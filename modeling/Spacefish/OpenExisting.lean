import Spacefish.Trace

/-!
An `open` that leads to a file in the store. The call then depends on the flags
alone: it truncates the file, fails, or takes the file as it is, and goes on to
the cursor and the descriptor.
-/

namespace Spacefish

open LinkedArray Program Buffer

/-- An `open` of `pathname` leads to the file `m` in the store. -/
def LeadsTo (env : Env) (t : MetaShm) (pathname : Path) (m : Int) : Prop :=
  exclusivePath pathname = false ∧ pathname.length ≤ pathMax ∧
    ∃ p, absPath env pathname = .ok p ∧ lookup t p = some m

variable {rows : Nat → List Int} {ch : Int → List Nat} {m : Int} {env : Env}
  {pathname p : Path} {flags mode : Nat} {w : World} {l : List Nat} {b : Nat}

/-- The state in which a truncating `open` sets the cursor. -/
def afterTrunc (env : Env) (m : Int) (l : List Nat) (w : World) : World :=
  { w with
    table := w.table.setMb m (fun b =>
      { b with s := stamp env { b.s with stSize := 0, stBlocks := 1 } (stMod ||| stChg)
               consisent := false })
    data := w.data.clear l }

/-- What `open` does once it has its file. -/
def openPlace (env : Env) (flags : Nat) (m : Int) : Op World Ret := do
  openPosition flags m
  match ← getEmptyFd env firstUserFd maxNumFd with
  | none => return { ret := -1, err := .emfile }
  | some fd =>
      setFddes fd (fun f => { f with mindex := m.toNat })
      return { ret := fd, err := .ok }

theorem absPath_run (hpath : absPath env pathname = .ok p) (w : World) :
    buildAbsPath1 env pathname w = .ok p w := by
  rcases absPath_cases env pathname with ⟨q, hq, hrun⟩ | ⟨e, _, he, _⟩
  · rw [hpath] at hq
    obtain rfl := Except.ok.inj hq
    exact hrun w
  · rw [hpath] at he
    cases he

/-- A truncating `open` of a file in the store empties its chain and goes on; a
file without data ends the process. -/
theorem LeadsTo.sysOpen_eq (mode : Nat) (hlead : LeadsTo env w.table pathname m)
    (wf : LinkWf (w.store rows ch)) (hflag : truncates flags = true) :
    sysOpen defaultBuild env pathname flags mode w =
      if ch m = [] then .error (.exit .stepNotYetCreated) w
      else openPlace env flags m (afterTrunc env m (ch m) w) := by
  obtain ⟨hexcl, hlen, p, hpath, hfind⟩ := hlead
  have hwf : TableWf w.table rows := wf.table
  obtain ⟨hget, h, hok, hfound⟩ := getMbucket_of_lookup hwf hfind
  obtain ⟨hcreat, htrunc⟩ := Bool.and_eq_true_iff.mp hflag
  have huse : (w.table.mb m).inUse = true := hwf.findPath_inUse hok hfound
  have hsteps : w.data.dbucketSteps = totalStepsAllowed := wf.links.steps
  have hlinked : Linked w.data.next noIx (w.table.mb m).firstDbucket (ch m) := wf.linked m huse
  have hopen : ∀ k : Except Errno Int → Op World Ret,
      (openResolve defaultBuild env pathname p flags mode >>= k) w =
        if ch m = [] then .error (.exit .stepNotYetCreated) w
        else k (.ok m) (afterTrunc env m (ch m) w) := by
    intro k
    rw [openResolve, if_neg (by simp [hcreat]), if_pos htrunc, bind_assoc,
      bind_of_ok (onMeta_of_ok hget)]
    dsimp only
    cases hl : ch m with
    | nil =>
        rw [hl] at hlinked
        have hfirst : (w.table.mb m).firstDbucket = noIx := hlinked
        rw [if_pos rfl, bind_assoc, run_get_bind, hfirst, bind_assoc,
          bind_of_error (onData_of_error (truncChain_noIx wf.links.steps_le))]
    | cons b l =>
        rw [hl] at hlinked
        obtain ⟨hfirst, hrest⟩ := hlinked
        have htr : truncChain defaultBuild b w.data = .ok ⟨⟩ (w.data.clear (b :: l)) :=
          truncChain_eq rfl hsteps ⟨rfl, hrest⟩ (hl ▸ wf.owned m huse)
        rw [if_neg (by simp), bind_assoc, run_get_bind, hfirst, bind_assoc,
          bind_of_ok (onData_of_ok htr), bind_assoc, run_setMb, mbModify, bind_assoc, run_setMb]
        dsimp only
        rw [setMb_setMb]
        rfl
  rw [sysOpen, run_ite, if_neg (by simp [hexcl]), run_ite, if_neg (by omega), bind_of_ok (absPath_run hpath w), hopen]
  rfl

/-- Any other `open` of a file in the store takes the file as it is, or fails
with `O_CREAT` and `O_EXCL`. -/
theorem LeadsTo.sysOpen_found (hlead : LeadsTo env w.table pathname m) (hwf : TableWf w.table rows)
    (hflag : truncates flags = false) :
    sysOpen defaultBuild env pathname flags mode w =
      if hasFlag flags oCreat ∧ hasFlag flags oExcl then
        .ok { ret := -1, err := .eexist } w
      else openPlace env flags m w := by
  obtain ⟨hexcl, hlen, p, hpath, hfind⟩ := hlead
  obtain ⟨hget, _⟩ := getMbucket_of_lookup hwf hfind
  rw [sysOpen, run_ite, if_neg (by simp [hexcl]), run_ite, if_neg (by omega),
    bind_of_ok (absPath_run hpath w)]
  cases hcreat : hasFlag flags oCreat with
  | false =>
      rw [openResolve, if_pos (by simp [hcreat]), bind_assoc, bind_of_ok (onMeta_of_ok hget),
        if_neg (by simp)]
      rfl
  | true =>
      have htrunc : ¬ oTruncCheck flags = true := by simpa [truncates, hcreat] using hflag
      rw [openResolve, if_neg (by simp [hcreat]), if_neg htrunc, bind_assoc,
        bind_of_ok (onMeta_of_ok hget)]
      dsimp only
      cases hasFlag flags oExcl with
      | true => rfl
      | false =>
          rw [if_neg (by simp), if_neg (by simp)]
          rfl

/-- With `O_APPEND` the process ends or waits forever. -/
theorem openPlace_append (env : Env) (m : Int) (w : World) (happ : hasFlag flags oAppend = true) :
    ∃ e, openPlace env flags m w = .error e w := by
  obtain ⟨e, he, _⟩ := appendLoop_error walkFuel (w.table.mb m).firstDbucket w.data
  exact ⟨e, by rw [openPlace, openPosition, bind_assoc, run_get_bind, if_pos happ,
    bind_of_error (onData_of_error he)]⟩

/-- An `open` whose lookup does not return does not return either. -/
theorem sysOpen_lookupStops {bld : Build} {e : Halt} {w' : World}
    (hexcl : exclusivePath pathname = false) (hlen : pathname.length ≤ pathMax)
    (hpath : absPath env pathname = .ok p) (hget : onMeta (getMbucket p) w = .error e w') :
    sysOpen bld env pathname flags mode w = .error e w' := by
  rw [sysOpen, run_ite, if_neg (by simp [hexcl]), run_ite, if_neg (by omega),
    bind_of_ok (absPath_run hpath w), openResolve]
  by_cases hcreat : (!hasFlag flags oCreat) = true
  · rw [if_pos hcreat, bind_assoc, bind_of_error hget]
  · rw [if_neg hcreat]
    by_cases htrunc : oTruncCheck flags = true
    · rw [if_pos htrunc, bind_assoc, bind_of_error hget]
    · rw [if_neg htrunc, bind_assoc, bind_of_error hget]

/-- An `open` on a row that was left locked waits forever. -/
theorem sysOpen_rowStuck {bld : Build} {h : Nat} (hexcl : exclusivePath pathname = false)
    (hlen : pathname.length ≤ pathMax) (hpath : absPath env pathname = .ok p)
    (hok : hash p = .ok h) (hstuck : RowStuck w.table h) :
    sysOpen bld env pathname flags mode w = .error .hang w := by
  have hrun : getMbucket p w.table = .error .hang w.table := by
    rw [getMbucket, bind_of_ok (hashRow_eq hok), bind_of_error (downRead_stuck hstuck)]
  exact sysOpen_lookupStops hexcl hlen hpath (zoom_of_error hrun)

end Spacefish
