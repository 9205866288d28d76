import Spacefish.EndOfFile
import Spacefish.RowSearch

/-!
What the flags of `open` ask for and what the call does: `O_APPEND` sets no
cursor, and `O_EXCL` is looked at only when the flags do not truncate.
-/

namespace Spacefish

open LinkedArray Program Buffer

variable {w w' : World} {rows : Nat → List Int} {env : Env} {bld : Build} {s : Sys}
  {p pathname : Path} {flags mode pid h : Nat} {m : Int}

/-! `O_APPEND` -/

/-- The cursor of the file stands behind the last byte of its content. -/
def CursorAtEnd (s : Sys) (m : Int) : Prop :=
  ∃ pre l, fileChain s m = pre ++ (s.table.mb m).lastDbucket :: l ∧
    (s.table.mb m).lastDbOffset = (s.data.bucket (s.table.mb m).lastDbucket).bytes ∧
    total s.data l = 0

/-- The event returns a descriptor of a file whose cursor stands at the end. -/
def OpensAtEnd (bld : Build) (s : Sys) (e : Event) : Prop :=
  ∃ fd m s', exec bld s e = (.ret { ret := fd, err := .ok }, s') ∧
    UserFd (s'.view e.pid) fd m ∧ CursorAtEnd s' m

/-- An `open` with `O_APPEND` that returns has failed. -/
theorem sysOpen_append (bld : Build) (env : Env) (mode : Nat) (w : World)
    (hexcl : exclusivePath pathname = false) (happ : hasFlag flags oAppend = true) :
    Ends (sysOpen bld env pathname flags mode w) (fun r _ => r.ret = -1) (fun _ _ => True) := by
  rw [sysOpen, run_ite, if_neg (by simp [hexcl]), run_ite]
  split
  · exact rfl
  · rcases absPath_cases env pathname with ⟨p, _, hrun⟩ | ⟨e, _, _, hrun⟩
    · rw [bind_of_ok (hrun w), ends_bind]
      refine Ends.of_forall _ (fun r w₁ => ?_)
      cases r with
      | error e => exact rfl
      | ok m =>
          obtain ⟨e, he⟩ := openPlace_append env m w₁ happ
          change Ends (openPlace env flags m w₁) _ _
          rw [he]
          trivial
    · rw [bind_of_error (hrun w)]
      trivial

/-- No `open` with `O_APPEND` ever returns a descriptor, in no state and no build. -/
theorem open_append_never (hexcl : exclusivePath pathname = false)
    (happ : hasFlag flags oAppend = true) :
    ¬ OpensAtEnd bld s ⟨pid, env, .open pathname flags mode⟩ := by
  rintro ⟨fd, m, s', hexec, hu, _⟩
  have hends := sysOpen_append bld env mode (s.view pid) hexcl happ
  rcases exec_ends (e := ⟨pid, env, .open pathname flags mode⟩) hends hexec with
    ⟨r, w', hret, _, hr⟩ | ⟨e, w', hhalt, _, _⟩
  · obtain rfl := Out.ret.inj hret
    have hpos := hu.pos
    dsimp only at hr
    omega
  · cases hhalt

/-- `O_RDWR | O_APPEND` on an existing file ends the process. -/
theorem open_append_exits :
    ¬ ∀ (s : Sys) (pid : Nat) (env : Env) (pathname : Path) (flags mode : Nat) (m : Int),
      Run defaultBuild KeepsOpenFiles initSys s → hasFlag flags oAppend = true →
      LeadsTo env s.table pathname m → (s.table.mb m).inUse = true →
      OpensAtEnd defaultBuild s ⟨pid, env, .open pathname flags mode⟩ := by
  intro hall
  have hlead : LeadsTo emptyDisk threeBytes.table pathA 0 :=
    ⟨by decide +kernel, by decide, pathA, by decide +kernel, by decide +kernel⟩
  obtain ⟨fd, m, s', hexec, _⟩ := hall threeBytes 0 emptyDisk pathA 1026 0 0 threeBytes_reached
    (by decide) hlead (by decide +kernel)
  have hout : (exec defaultBuild threeBytes ⟨0, emptyDisk, .open pathA 1026 0⟩).1.isRet = false := by
    decide +kernel
  rw [hexec] at hout
  cases hout

/-- The same call, through the theorem. -/
theorem open_append_never_threeBytes :
    ¬ OpensAtEnd defaultBuild threeBytes ⟨0, emptyDisk, .open pathA 1026 0⟩ :=
  open_append_never (by decide +kernel) (by decide)

/-! `O_CREAT | O_EXCL` -/

/-- The path names a file of the store or of the disk. -/
def PathExists (env : Env) (t : MetaShm) (pathname : Path) : Prop :=
  (∃ st, env.realStat pathname = .ok st) ∨ ∃ p, absPath env pathname = .ok p ∧ HasPath t p

/-- The call fails with `EEXIST` and leaves everything as it was. -/
def Refused (bld : Build) (env : Env) (pathname : Path) (flags mode : Nat) (w : World) : Prop :=
  sysOpen bld env pathname flags mode w = .ok { ret := -1, err := .eexist } w

/-- `open` looks its path up: the path is short, can be made absolute and hashed, and
no rename has left its row locked. -/
def LooksUp (env : Env) (t : MetaShm) (pathname : Path) : Prop :=
  pathname.length ≤ pathMax ∧
    ∃ p h, absPath env pathname = .ok p ∧ hash p = .ok h ∧ RowIdle t h

/-- With flags that truncate, the error `EEXIST` is not among those of `open`. -/
theorem openResolve_trunc_errno (hcreat : hasFlag flags oCreat = true)
    (htrunc : oTruncCheck flags = true) :
    Ends (openResolve bld env pathname p flags mode w) (fun r _ => r ≠ .error .eexist)
      (fun _ _ => True) := by
  rw [openResolve, if_neg (by simp [hcreat]), if_pos htrunc]
  refine .seq (fun r w₁ => ?_)
  cases r with
  | none => exact createNewFile_enospc.mono (fun r _ hr he => by cases hr _ he) (fun _ _ h => h)
  | some m =>
      refine .seq (fun _ _ => .seq (fun _ _ => .seq (fun _ _ => .seq (fun _ _ => ?_))))
      exact fun h => by cases h

theorem openPlace_errno :
    Ends (openPlace env flags m w) (fun r _ => r.err ≠ .eexist) (fun _ _ => True) := by
  unfold openPlace
  rw [ends_bind]
  refine Ends.of_forall _ (fun _ w₁ => ?_)
  refine (openSlot_ends m).mono ?_ (fun _ _ _ => trivial)
  rintro r w' (⟨rfl, _⟩ | ⟨i, rfl, _⟩)
  · exact fun h => by cases h
  · exact fun h => by cases h

theorem sysOpen_trunc_errno (bld : Build) (env : Env) (mode : Nat) (w : World)
    (hexcl : exclusivePath pathname = false) (hcreat : hasFlag flags oCreat = true)
    (htrunc : oTruncCheck flags = true) :
    Ends (sysOpen bld env pathname flags mode w) (fun r _ => r.err ≠ .eexist)
      (fun _ _ => True) := by
  rw [sysOpen, run_ite, if_neg (by simp [hexcl]), run_ite]
  split
  · exact fun h => by cases h
  · rw [ends_bind]
    refine Ends.of_forall _ (fun p w₁ => ?_)
    rw [ends_bind]
    refine (openResolve_trunc_errno hcreat htrunc).mono ?_ (fun _ _ _ => trivial)
    intro r w₂ hr
    cases r with
    | error e => exact fun he => hr (congrArg _ he)
    | ok m => exact openPlace_errno

theorem TableWf.lookup_of_looksUp (wf : TableWf w.table rows)
    (hok : hash p = .ok h) (hidle : RowIdle w.table h) :
    onMeta (getMbucket p) w = .ok (findPath w.table p (rows h)) w :=
  onMeta_of_ok (wf.getMbucket_eq hok hidle)

/-- An `open` that returns has looked its path up. -/
theorem sysOpen_looksUp {r : Ret} (hrun : sysOpen bld env pathname flags mode w = .ok r w')
    (wf : TableWf w.table rows) (hexcl : exclusivePath pathname = false)
    (hlen : pathname.length ≤ pathMax) : LooksUp env w.table pathname := by
  rcases absPath_cases env pathname with ⟨p, hpath, hbuild⟩ | ⟨e, _, _, hbuild⟩
  · have hends := getMbucket_ends wf p
    cases hget : getMbucket p w.table with
    | error e t' =>
        rw [sysOpen_lookupStops hexcl hlen hpath (zoom_of_error hget)] at hrun
        cases hrun
    | ok r t' =>
        rw [hget] at hends
        obtain ⟨_, h, hok, _⟩ := hends
        refine ⟨hlen, p, h, hpath, hok, (wf.rowLock h).resolve_right (fun hstuck => ?_)⟩
        rw [sysOpen_rowStuck hexcl hlen hpath hok hstuck] at hrun
        cases hrun
  · rw [sysOpen, run_ite, if_neg (by simp [hexcl]), run_ite, if_neg (by omega),
      bind_of_error (hbuild w)] at hrun
    cases hrun

theorem Refused.short (hr : Refused bld env pathname flags mode w)
    (hexcl : exclusivePath pathname = false) : pathname.length ≤ pathMax := by
  by_contra hlong
  rw [Refused, sysOpen, run_ite, if_neg (by simp [hexcl]), run_ite, if_pos (by omega)] at hr
  cases hr

theorem Refused.exec (hr : Refused bld env pathname flags mode (s.view pid)) :
    (exec bld s ⟨pid, env, .open pathname flags mode⟩).1 = .ret { ret := -1, err := .eexist } := by
  unfold Spacefish.exec
  rw [callOp, hr]

/-- The kernel fails with `EEXIST` exactly for a path that exists, as `open(2)` says of
`O_CREAT` with `O_EXCL`. -/
def KernelExcl (env : Env) (pathname : Path) (flags : Nat) : Prop :=
  (env.realOpen pathname flags = -1 ∧ env.realErrno = .eexist) ↔
    ∃ st, env.realStat pathname = .ok st

theorem sysOpen_forwarded_ret (bld : Build) (mode : Nat) (w : World)
    (hexcl : exclusivePath pathname = true) :
    Ends (sysOpen bld env pathname flags mode w)
      (fun r _ => r = { ret := env.realOpen pathname flags, err := env.realErrno })
      (fun _ _ => True) := by
  rw [sysOpen, run_ite, if_pos hexcl]
  dsimp only
  by_cases hpos : env.realOpen pathname flags > 0
  · rw [if_pos hpos]
    exact .seq (fun _ _ => rfl)
  · rw [if_neg hpos]
    rfl

/-- A call that is forwarded is refused when the kernel answers so. -/
theorem refused_forwarded_iff (hexcl : exclusivePath pathname = true) :
    Refused bld env pathname flags mode w ↔
      env.realOpen pathname flags = -1 ∧ env.realErrno = .eexist := by
  constructor
  · intro hr
    have hends := @sysOpen_forwarded_ret env pathname flags bld mode w hexcl
    rw [hr] at hends
    exact ⟨(congrArg Ret.ret hends).symm, (congrArg Ret.err hends).symm⟩
  · rintro ⟨hret, herr⟩
    rw [Refused, sysOpen, run_ite, if_pos hexcl]
    dsimp only
    rw [hret, if_neg (by decide), herr]
    rfl

/-- An `open` with `O_CREAT` and `O_EXCL` of a path that exists is refused if and only
if it is forwarded and the path is found on the disk, or the path is looked up and the
flags do not truncate. -/
theorem exclusive_create_refused_iff (wf : TableWf w.table rows)
    (hcreat : hasFlag flags oCreat = true) (hexclusive : hasFlag flags oExcl = true)
    (hexists : PathExists env w.table pathname)
    (hkernel : exclusivePath pathname = true → KernelExcl env pathname flags) :
    Refused bld env pathname flags mode w ↔
      (exclusivePath pathname = true ∧ ∃ st, env.realStat pathname = .ok st) ∨
        (exclusivePath pathname = false ∧ LooksUp env w.table pathname ∧
          oTruncCheck flags = false) := by
  cases hexcl : exclusivePath pathname with
  | true =>
      rw [refused_forwarded_iff hexcl]
      exact (hkernel hexcl).trans (by simp)
  | false =>
      constructor
      · intro hr
        refine Or.inr ⟨rfl, sysOpen_looksUp hr wf hexcl (hr.short hexcl), ?_⟩
        by_contra htrunc
        have hends := sysOpen_trunc_errno bld env mode w hexcl hcreat (by simpa using htrunc)
        rw [hr] at hends
        exact hends rfl
      · rintro (⟨hno, _⟩ | ⟨_, ⟨hlen, p, h, hpath, hok, hidle⟩, htrunc⟩)
        · cases hno
        · rw [Refused, sysOpen, run_ite, if_neg (by simp [hexcl]), run_ite, if_neg (by omega),
            bind_of_ok (absPath_run hpath w), openResolve, if_neg (by simp [hcreat]),
            if_neg (by simp [htrunc]), bind_assoc,
            bind_of_ok (wf.lookup_of_looksUp hok hidle)]
          cases hfind : findPath w.table p (rows h) with
          | some m =>
              dsimp only
              rw [if_pos hexclusive]
              rfl
          | none =>
              rcases hexists with ⟨st, hst⟩ | ⟨q, hq, hhas⟩
              · dsimp only
                rw [hst]
                dsimp only
                rw [if_pos hexclusive]
                rfl
              · obtain rfl : p = q := Except.ok.inj (hpath.symm.trans hq)
                rw [wf.hasPath_iff hok, hfind] at hhas
                cases hhas

theorem threeBytes_inTable : HasPath threeBytes.table pathA := by
  refine ⟨12469, 0, by decide, ?_, by decide +kernel⟩
  rw [show (threeBytes.table.row 12469).firstIx = 0 by decide +kernel]
  exact .here (by decide)

theorem threeBytes_hasPath : PathExists emptyDisk threeBytes.table pathA :=
  Or.inr ⟨pathA, by decide +kernel, threeBytes_inTable⟩

/-- `O_RDWR | O_CREAT | O_EXCL` on a file of three bytes. -/
theorem exclusive_create_refused_threeBytes :
    Refused defaultBuild emptyDisk pathA 194 0 (threeBytes.view 0) := by
  obtain ⟨rows, ch, hinv⟩ := run_sysWf threeBytes_reached
  have hidle : RowIdle (threeBytes.view 0).table 12469 := by
    unfold RowIdle
    decide +kernel
  exact (exclusive_create_refused_iff (w := threeBytes.view 0) hinv.store.table (by decide)
    (by decide) threeBytes_hasPath (fun h => absurd h (by decide +kernel))).mpr
    (Or.inr ⟨by decide +kernel, ⟨by decide, pathA, 12469, by decide +kernel, by decide, hidle⟩,
      by decide⟩)

/-- With `O_TRUNC` the same call returns a descriptor of the emptied file. -/
theorem exclusive_create_truncates :
    ¬ ∀ (bld : Build) (env : Env) (w : World) (rows : Nat → List Int) (pathname : Path)
      (flags mode : Nat), TableWf w.table rows → hasFlag flags oCreat = true →
      hasFlag flags oExcl = true → PathExists env w.table pathname →
      (exclusivePath pathname = true → KernelExcl env pathname flags) →
      Refused bld env pathname flags mode w := by
  intro hall
  obtain ⟨rows, ch, hinv⟩ := run_sysWf threeBytes_reached
  have hr := hall defaultBuild emptyDisk (threeBytes.view 0) rows pathA 706 0 hinv.store.table
    (by decide) (by decide) threeBytes_hasPath (fun h => absurd h (by decide +kernel))
  have hnum : (exec defaultBuild threeBytes ⟨0, emptyDisk, .open pathA 706 0⟩).1.num = 1025 := by
    decide +kernel
  rw [Refused.exec hr] at hnum
  cases hnum

end Spacefish
