import Spacefish.Lib.Guards
import Spacefish.TruncFreeAlloc
import Spacefish.System

/-!
A call under the test of the buckets that it takes. The build that refuses buckets runs
every call as the build without the test does, unless the test fails; so the test of a
call can be evaluated.
-/

namespace Spacefish

open Program Buffer

variable {b : Build} {fit : DataBucket → Bool} {env : Env} {s : Sys} {e : Event}

/-- `x` runs as `y` does unless a bucket is refused. -/
abbrev Restricts {σ α : Type} (x y : Op σ α) : Prop := Guards Halt.undefined x y

theorem refusing_alloc (draw : Nat) :
    Restricts ((b.refusing fit).getFreeDbucketIx draw) (b.getFreeDbucketIx draw) :=
  .check (b.getFreeDbucketIx draw) (fun ix d => ix < d.numBuckets ∧ fit (d.bucket ix) = true)

theorem onData_restricts {α : Type} {x y : Op DataShm α} (h : Restricts x y) :
    Restricts (onData x) (onData y) := h.zoom

theorem writeLoop_restricts (guarded : Bool) (fuel ix off : Nat) (buf : List Byte) :
    Restricts (writeLoop (b.refusing fit) env guarded fuel ix off buf)
      (writeLoop b env guarded fuel ix off buf) := by
  induction fuel generalizing ix off buf with
  | zero => exact .refl _
  | succ fuel ih =>
      have hnext : ∀ nextIx, Restricts
          (writeLoop.nextOrNew (b.refusing fit) env fuel ix nextIx)
          (writeLoop.nextOrNew b env fuel ix nextIx) := fun _ =>
        .ite ((refusing_alloc _).bind (fun _ => .refl _)) (.refl _)
      refine .ite (.refl _) (.then _ (fun db => .ite (.refl _) (.then _ (fun _ => ?_))))
      exact (hnext _).bind (fun next => (ih _ _ _).bind (fun _ => .refl _))

theorem truncChain_refusing (first : Nat) : truncChain (b.refusing fit) first = truncChain b first := by
  have hloop : ∀ n ix, truncLoop (b.refusing fit) n ix = truncLoop b n ix := by
    intro n
    induction n with
    | zero => exact fun _ => rfl
    | succ n ih =>
        intro ix
        simp only [truncLoop, ih]
        rfl
  simp only [truncChain, hloop]
  rfl

theorem uploadRounds_restricts (mb : Int) (buf : List Byte) (n i prev : Nat) :
    Restricts (uploadRounds (b.refusing fit) env mb buf n i prev)
      (uploadRounds b env mb buf n i prev) := by
  induction n generalizing i prev with
  | zero => exact .refl _
  | succ n ih =>
      refine (onData_restricts (refusing_alloc _)).bind (fun ix => ?_)
      have hrest : Restricts (do
            let _ ← onData (getDbucketPtr ix)
            onData (modify (·.set ix (fun db =>
              { db with buf := memcpy db.buf 0
                          ((buf.drop (i * dbucketBufSize)).take dbucketBufSize)
                        bytes := dbucketBufSize })))
            uploadRounds (b.refusing fit) env mb buf n (i + 1) ix) _ :=
        .then (onData (getDbucketPtr ix)) (fun _ => .then (onData (modify (·.set ix (fun db =>
          { db with buf := memcpy db.buf 0 ((buf.drop (i * dbucketBufSize)).take dbucketBufSize)
                    bytes := dbucketBufSize })))) (fun _ => ih (i + 1) ix))
      exact .ite (.then _ (fun _ => hrest)) (.then _ (fun _ => hrest))

theorem uploadData_restricts (mb : Int) (buf : List Byte) (size : Nat) :
    Restricts (uploadData (b.refusing fit) env mb buf size) (uploadData b env mb buf size) := by
  have hfirst : ∀ rounds, Restricts (uploadFirst (b.refusing fit) env mb rounds)
      (uploadFirst b env mb rounds) := fun _ =>
    .ite ((onData_restricts (refusing_alloc _)).bind (fun _ => .refl _)) (.refl _)
  have htail : ∀ rounds off last, Restricts (uploadTail (b.refusing fit) env buf rounds off last)
      (uploadTail b env buf rounds off last) := fun _ _ _ =>
    .ite (.refl _) (.ite (.refl _) (.then _ (fun _ => .ite (.refl _)
      ((onData_restricts (refusing_alloc _)).bind (fun _ => .refl _)))))
  exact (hfirst _).bind (fun _ => (uploadRounds_restricts _ _ _ _ _).bind (fun _ => htail _ _ _))

theorem uploadFile_restricts (name : Path) :
    Restricts (uploadFile (b.refusing fit) env name) (uploadFile b env name) := by
  unfold uploadFile
  cases env.realStat name with
  | error e => exact .refl _
  | ok st =>
      refine .ite (.refl _) (.then _ (fun r => ?_))
      cases r with
      | none => exact .refl _
      | some mb =>
          refine .ite (.refl _) (.then _ (fun _ => .then _ (fun _ => ?_)))
          exact (uploadData_restricts _ _ _).bind (fun _ => .refl _)

theorem createNewFile_restricts (fpath : Path) (mode : Nat) :
    Restricts (createNewFile (b.refusing fit) env fpath mode) (createNewFile b env fpath mode) := by
  refine .then _ (fun r => ?_)
  cases r with
  | none => exact .refl _
  | some mb => exact (onData_restricts (refusing_alloc _)).bind (fun _ => .refl _)

theorem openResolve_restricts (pathname fpath : Path) (flags mode : Nat) :
    Restricts (openResolve (b.refusing fit) env pathname fpath flags mode)
      (openResolve b env pathname fpath flags mode) := by
  refine .ite (.then _ (fun r => ?_)) (.ite (.then _ (fun r => ?_)) (.then _ (fun r => ?_)))
  · cases r with
    | some mb => exact .refl _
    | none => exact uploadFile_restricts _
  · cases r with
    | some mb =>
        dsimp only
        simp only [truncChain_refusing]
        exact .refl _
    | none => exact createNewFile_restricts _ _
  · cases r with
    | some mb => exact .refl _
    | none =>
        dsimp only
        cases env.realStat pathname with
        | ok st => exact .ite (.refl _) (uploadFile_restricts _)
        | error e => exact createNewFile_restricts _ _

theorem sysOpen_restricts (pathname : Path) (flags mode : Nat) :
    Restricts (sysOpen (b.refusing fit) env pathname flags mode)
      (sysOpen b env pathname flags mode) := by
  refine .ite (.refl _) (.ite (.refl _) (.then _ (fun fpath => ?_)))
  exact (openResolve_restricts _ _ _ _).bind (fun _ => .refl _)

theorem sysWrite_restricts (fd : Int) (buf : List Byte) :
    Restricts (sysWrite (b.refusing fit) env fd buf) (sysWrite b env fd buf) := by
  refine .then _ (fun f => .ite (.refl _) (.ite (.refl _) (.then _ (fun w => ?_))))
  exact (onData_restricts (writeLoop_restricts _ _ _ _ _)).bind (fun _ => .refl _)

end Spacefish
