import Spacefish.OpenExisting

/-!
What the calls leave alone in the descriptor table. Finding, uploading, making and
placing a file do not touch it. The calls on a descriptor change its deferred time
stamps and its cache, and nothing else.
-/

namespace Spacefish

open Program Buffer

section

variable (b : Build) (env : Env)

theorem onMeta_fds {α : Type} (x : Op MetaShm α) : Frames World.fdTable (onMeta x) :=
  .zoom x (fun _ _ => rfl)

theorem onData_fds {α : Type} (x : Op DataShm α) : Frames World.fdTable (onData x) :=
  .zoom x (fun _ _ => rfl)

theorem setMb_fds (mb : Int) (f : MetaBucket → MetaBucket) :
    Frames World.fdTable (setMb mb f) :=
  onMeta_fds _

theorem strcpyPath_fds (mb : Int) (p : Path) : Frames World.fdTable (strcpyPath mb p) :=
  (Keeps.ite (.pure _) (.throw _)).frames.bind (fun _ => setMb_fds _ _)

theorem uploadRounds_fds (mb : Int) (buf : List Byte) (n i prev : Nat) :
    Frames World.fdTable (uploadRounds b env mb buf n i prev) := by
  induction n generalizing i prev with
  | zero => exact (Keeps.pure _).frames
  | succ n ih =>
      refine (onData_fds _).bind (fun ix => ?_)
      have hrest : Frames World.fdTable (do
          let _ ← onData (getDbucketPtr ix)
          onData (modify (·.set ix (fun db =>
            { db with buf := memcpy db.buf 0 ((buf.drop (i * dbucketBufSize)).take dbucketBufSize)
                      bytes := dbucketBufSize })))
          uploadRounds b env mb buf n (i + 1) ix) :=
        (onData_fds _).bind (fun _ => (onData_fds _).bind (fun _ => ih _ _))
      exact .ite ((setMb_fds _ _).bind (fun _ => hrest))
        ((onData_fds _).bind (fun _ => hrest))

theorem uploadFirst_fds (mb rounds : Int) :
    Frames World.fdTable (uploadFirst b env mb rounds) := by
  refine .ite ?_ (Keeps.pure _).frames
  refine (onData_fds _).bind (fun ix => (onData_fds _).bind (fun _ => ?_))
  exact (onData_fds _).bind (fun _ => (setMb_fds _ _).bind (fun _ =>
    (Keeps.pure _).frames))

theorem uploadTail_fds (buf : List Byte) (rounds : Int) (off last : Nat) :
    Frames World.fdTable (uploadTail b env buf rounds off last) := by
  refine .ite (Keeps.pure _).frames (.ite (Keeps.throw _).frames ?_)
  refine Keeps.get.frames.bind (fun w => .ite (onData_fds _) ?_)
  exact (onData_fds _).bind (fun _ => (onData_fds _).bind (fun _ =>
    (onData_fds _).bind (fun _ => onData_fds _)))

theorem uploadFile_fds (name : Path) : Frames World.fdTable (uploadFile b env name) := by
  unfold uploadFile
  cases env.realStat name with
  | error e => exact (Keeps.pure _).frames
  | ok st =>
      refine .ite (Keeps.pure _).frames ((onMeta_fds _).bind (fun r => ?_))
      cases r with
      | none => exact (Keeps.pure _).frames
      | some mb =>
          refine .ite (Keeps.pure _).frames ((strcpyPath_fds _ _).bind (fun _ => ?_))
          refine (setMb_fds _ _).bind (fun _ => Frames.bind ?_ (fun _ =>
            (Keeps.pure _).frames))
          exact (uploadFirst_fds b env _ _).bind (fun _ =>
            (uploadRounds_fds b env _ _ _ _ _).bind (fun _ =>
              uploadTail_fds b env _ _ _ _))

theorem createNewFile_fds (p : Path) (mode : Nat) :
    Frames World.fdTable (createNewFile b env p mode) := by
  refine (onMeta_fds _).bind (fun r => ?_)
  cases r with
  | none => exact (Keeps.pure _).frames
  | some mb =>
      refine (onData_fds _).bind (fun ix => (setMb_fds _ _).bind (fun _ => ?_))
      refine (strcpyPath_fds _ _).bind (fun _ => (setMb_fds _ _).bind (fun _ => ?_))
      exact (setMb_fds _ _).bind (fun _ => (Keeps.pure _).frames)

theorem openResolve_fds (pathname p : Path) (flags mode : Nat) :
    Frames World.fdTable (openResolve b env pathname p flags mode) := by
  refine .ite ((onMeta_fds _).bind (fun r => ?_))
    (.ite ((onMeta_fds _).bind (fun r => ?_)) ((onMeta_fds _).bind (fun r => ?_)))
  · cases r with
    | none => exact uploadFile_fds b env _
    | some mb => exact (Keeps.pure _).frames
  · cases r with
    | none => exact createNewFile_fds b env _ _
    | some mb =>
        refine Keeps.get.frames.bind (fun w => (onData_fds _).bind (fun _ => ?_))
        exact (setMb_fds _ _).bind (fun _ => (setMb_fds _ _).bind (fun _ =>
          (Keeps.pure _).frames))
  · cases r with
    | some mb => exact .ite (Keeps.pure _).frames (Keeps.pure _).frames
    | none =>
        cases env.realStat pathname with
        | error e => exact createNewFile_fds b env _ _
        | ok st => exact .ite (Keeps.pure _).frames (uploadFile_fds b env _)

theorem buildAbsPath1_fds (p : Path) : Frames World.fdTable (buildAbsPath1 env p) :=
  Keeps.frames (fun w => by
    rcases absPath_cases env p with ⟨q, _, hrun⟩ | ⟨e, _, _, hrun⟩
    · rw [hrun w]
      exact rfl
    · rw [hrun w]
      exact rfl)

theorem openPosition_fds (flags : Nat) (mb : Int) :
    Frames World.fdTable (openPosition flags mb) :=
  Keeps.get.frames.bind (fun _ => .ite (onData_fds _) (setMb_fds _ _))

theorem sysUnlink_fds (p : Path) : Frames World.fdTable (sysUnlink env p) :=
  .ite (Keeps.pure _).frames ((buildAbsPath1_fds env p).bind (fun _ => (onMeta_fds _).bind (fun _ =>
    .ite (Keeps.pure _).frames (Keeps.pure _).frames)))

theorem sysRename_fds (old new : Path) : Frames World.fdTable (sysRename env old new) := by
  refine .ite (Keeps.pure _).frames (.ite (Keeps.pure _).frames ?_)
  refine (buildAbsPath1_fds env old).bind (fun _ => (buildAbsPath1_fds env new).bind (fun _ => ?_))
  refine (onMeta_fds _).bind (fun r => .ite (.ite ?_ (Keeps.pure _).frames) ?_)
  · refine (onMeta_fds _).bind (fun r => ?_)
    cases r with
    | none => exact (Keeps.pure _).frames
    | some mb => exact (Keeps.throw _).frames
  · refine (onMeta_fds _).bind (fun r => ?_)
    cases r with
    | none => exact (Keeps.throw _).frames
    | some mb => exact (setMb_fds _ _).bind (fun _ => (Keeps.pure _).frames)

theorem sysXstat_fds (p : Path) : Frames World.fdTable (sysXstat env p) := by
  refine .ite (Keeps.pure _).frames ((buildAbsPath1_fds env p).bind (fun q =>
    (onMeta_fds _).bind (fun r => ?_)))
  cases r with
  | none =>
      dsimp only
      cases env.realStat p with
      | error e => exact (Keeps.pure _).frames
      | ok st => exact (Keeps.pure _).frames
  | some mb => exact (Keeps.get.bind (fun _ => Keeps.pure _)).frames

theorem sysFxstat_fds (fd : Int) : Frames World.fdTable (sysFxstat env fd) := by
  refine (Keeps.get.bind (fun _ => .ite (.pure _) (.throw _))).frames.bind (fun f => .ite ?_ ?_)
  · cases env.realFstat fd with
    | error e => exact (Keeps.pure _).frames
    | ok st => exact (Keeps.pure _).frames
  · exact .ite (Keeps.pure _).frames (Keeps.get.bind (fun _ => .ite (.pure _) (.pure _))).frames

theorem upload_fds (name : Path) : Frames World.fdTable (callOp b env (.upload name)) := by
  refine (uploadFile_fds b env name).bind (fun r => ?_)
  cases r with
  | error e => exact (Keeps.pure _).frames
  | ok mb => exact (Keeps.pure _).frames

end

/-! One datum of every entry. -/

variable {β : Type} {φ : FdInfo → β}

def fdView (φ : FdInfo → β) (w : World) : Nat → β := fun i => φ (w.fdTable i)

/-- The datum is neither a deferred stamp nor part of the cache. -/
structure Unstamped (φ : FdInfo → β) : Prop where
  stamp : ∀ env type f, φ (deferStamp env type f) = φ f
  cache : ∀ offset ix f, φ (cacheFill offset ix f) = φ f

theorem onMeta_view {α : Type} (x : Op MetaShm α) : Frames (fdView φ) (onMeta x) :=
  .zoom x (fun _ _ => rfl)

theorem onData_view {α : Type} (x : Op DataShm α) : Frames (fdView φ) (onData x) :=
  .zoom x (fun _ _ => rfl)

theorem setMb_view (mb : Int) (f : MetaBucket → MetaBucket) : Frames (fdView φ) (setMb mb f) :=
  onMeta_view _

theorem fddes_view (fd : Int) : Frames (fdView φ) (fddes fd) :=
  (Keeps.get.bind (fun _ => .ite (.pure _) (.throw _))).frames

theorem setFddes_view (fd : Int) {f : FdInfo → FdInfo} (hf : ∀ g, φ (f g) = φ g) :
    Frames (fdView φ) (setFddes fd f) := by
  refine .ite (.modify (fun w => funext (fun i => ?_))) (Keeps.throw _).frames
  by_cases hi : i = fd.toNat
  · subst hi
    simp [fdView, World.setFd, hf]
  · simp [fdView, World.setFd, hi]

/-- The calls on a descriptor, behind their two tests. -/
theorem onFd_view {fd : Int} {r₁ r₂ : Ret} {k : FdInfo → Op World Ret}
    (hk : ∀ f, Frames (fdView φ) (k f)) :
    Frames (fdView φ) (fddes fd >>= fun f =>
      if f.exclusive then pure r₁ else if f.empty then pure r₂ else k f) :=
  (fddes_view fd).bind (fun f =>
    .ite (Keeps.pure _).frames (.ite (Keeps.pure _).frames (hk f)))

section

variable (b : Build) (env : Env) (hφ : Unstamped φ)
include hφ

theorem locate_view (fd : Int) (f : FdInfo) (first : Nat) (offset : Int) :
    Frames (fdView φ) (locate b fd f first offset) := by
  refine .ite (Keeps.pure _).frames ((onData_view _).bind (fun r => ?_))
  cases r with
  | none => exact (Keeps.pure _).frames
  | some ix =>
      exact .ite (Frames.bind (setFddes_view fd (fun f => hφ.cache offset ix f))
        (fun _ => (Keeps.pure _).frames)) (Keeps.pure _).frames

theorem deferStamp_view (fd : Int) (type : Nat) :
    Frames (fdView φ) (setFddes fd (deferStamp env type)) :=
  setFddes_view fd (fun f => hφ.stamp env type f)

theorem sysRead_view (fd : Int) (count : UInt64) :
    Frames (fdView φ) (sysRead env fd count) := by
  refine onFd_view (fun f => Keeps.get.frames.bind (fun w => ?_))
  refine (onData_view _).bind (fun r => .ite ?_ (Keeps.pure _).frames)
  exact (setMb_view _ _).bind (fun _ => (deferStamp_view env hφ fd _).bind (fun _ =>
    (Keeps.pure _).frames))

theorem sysWrite_view (fd : Int) (buf : List Byte) :
    Frames (fdView φ) (sysWrite b env fd buf) := by
  refine onFd_view (fun f => Keeps.get.frames.bind (fun w => ?_))
  refine (onData_view _).bind (fun r => .ite ?_ ?_)
  · exact (setMb_view _ _).bind (fun _ => (deferStamp_view env hφ fd _).bind (fun _ =>
      (setMb_view _ _).bind (fun _ => (setMb_view _ _).bind (fun _ =>
        (Keeps.pure _).frames))))
  · exact (setMb_view _ _).bind (fun _ => (Keeps.pure _).frames)

theorem sysPread_view (fd : Int) (count : UInt64) (offset : Int) :
    Frames (fdView φ) (sysPread b env fd count offset) := by
  refine onFd_view (fun f => Keeps.get.frames.bind (fun w => ?_))
  refine (locate_view b hφ fd _ _ _).bind (fun r => ?_)
  cases r with
  | none => exact (Keeps.pure _).frames
  | some ix =>
      refine (onData_view _).bind (fun r => .ite ?_ (Keeps.pure _).frames)
      exact (deferStamp_view env hφ fd _).bind (fun _ => (Keeps.pure _).frames)

theorem sysPwrite_view (fd : Int) (buf : List Byte) (offset : Int) :
    Frames (fdView φ) (sysPwrite b env fd buf offset) := by
  refine onFd_view (fun f => Keeps.get.frames.bind (fun w => ?_))
  refine (locate_view b hφ fd _ _ _).bind (fun r => ?_)
  cases r with
  | none => exact (Keeps.pure _).frames
  | some ix =>
      refine (onData_view _).bind (fun r => .ite ?_ ?_)
      · exact (deferStamp_view env hφ fd _).bind (fun _ => (setMb_view _ _).bind (fun _ =>
          (setMb_view _ _).bind (fun _ => (Keeps.pure _).frames)))
      · exact (setMb_view _ _).bind (fun _ => (Keeps.pure _).frames)

end

end Spacefish
