import Spacefish.OpenFile

/-!
The second half of `open`: the cursor, the descriptor, and the call as a whole.
-/

namespace Spacefish

open LinkedArray Program Buffer

variable {w : World} {rows : Nat → List Int} {ch : Int → List Nat} {env : Env} {bld : Build}
  {p pathname : Path} {flags mode : Nat} {m : Int}

/-- The cursor at the start of the file. -/
def rewound (c : FileCore) : FileCore := { c with last := c.first, off := 0 }

/-- The descriptor table after `open` has taken entry `i` for file `m`. -/
structure FdOpened (fds fds' : Nat → FdInfo) (i : Nat) (m : Int) : Prop where
  low : firstUserFd ≤ i
  high : i < maxNumFd
  free : (fds i).empty = true
  least : ∀ j, firstUserFd ≤ j → j < i → (fds j).empty = false
  self : fds' i = { fds i with empty := false, mindex := m.toNat }
  other : ∀ j ≠ i, fds' j = fds j

/-- The loop of `get_empty_fd` takes the first empty entry. -/
theorem getEmptyFdLoop_ends (n i : Nat) :
    Ends (getEmptyFdLoop env n i w)
      (fun r w' => (r = none ∧ w' = w ∧ ∀ j, i ≤ j → j < i + n → j < maxNumFd →
          (w.fdTable j).empty = false) ∨
        ∃ j, r = some j ∧ i ≤ j ∧ j < maxNumFd ∧ (w.fdTable j).empty = true ∧
          (∀ k, i ≤ k → k < j → (w.fdTable k).empty = false) ∧
          w' = w.setFd j (fun f => { f with empty := false }))
      (fun e w' => e = .undefined ∧ w' = w) := by
  induction n generalizing i with
  | zero => exact Or.inl ⟨rfl, rfl, fun j h₁ h₂ => by omega⟩
  | succ n ih =>
      have hskip : (i < maxNumFd → (w.fdTable i).empty = false) →
          Ends (getEmptyFdLoop env n (i + 1) w)
            (fun r w' => (r = none ∧ w' = w ∧ ∀ j, i ≤ j → j < i + (n + 1) → j < maxNumFd →
                (w.fdTable j).empty = false) ∨
              ∃ j, r = some j ∧ i ≤ j ∧ j < maxNumFd ∧ (w.fdTable j).empty = true ∧
                (∀ k, i ≤ k → k < j → (w.fdTable k).empty = false) ∧
                w' = w.setFd j (fun f => { f with empty := false }))
            (fun e w' => e = .undefined ∧ w' = w) := by
        intro hi
        refine (ih (i + 1)).mono ?_ (fun _ _ he => he)
        rintro r w' (⟨hr, hw, hall⟩ | ⟨j, hr, hij, hj, hfree, hleast, hw⟩)
        · refine Or.inl ⟨hr, hw, fun j h₁ h₂ h₃ => ?_⟩
          by_cases hji : j = i
          · subst hji
            exact hi h₃
          · exact hall j (by omega) (by omega) h₃
        · refine Or.inr ⟨j, hr, by omega, hj, hfree, fun k h₁ h₂ => ?_, hw⟩
          by_cases hki : k = i
          · subst hki
            exact hi (by omega)
          · exact hleast k (by omega) h₂
      rw [getEmptyFdLoop, run_get_bind, run_ite]
      by_cases hlt : i < maxNumFd
      · rw [if_pos hlt, run_ite]
        by_cases hempty : (w.fdTable i).empty = true
        · rw [if_pos hempty, run_modify_bind]
          exact Or.inr ⟨i, rfl, Nat.le_refl _, hlt, hempty, fun k h₁ h₂ => by omega, rfl⟩
        · rw [if_neg hempty]
          exact hskip (fun _ => by simpa using hempty)
      · rw [if_neg hlt, run_ite]
        by_cases hpast : env.pastFdTable = true
        · rw [if_pos hpast]
          exact ⟨rfl, rfl⟩
        · rw [if_neg hpast]
          exact hskip (fun h => absurd h hlt)

/-- No entry is left for `open`. -/
def FdsFull (fds : Nat → FdInfo) : Prop :=
  ∀ j, firstUserFd ≤ j → j < maxNumFd → (fds j).empty = false

theorem openSlot_ends (m : Int) :
    Ends ((do
        match ← getEmptyFd env firstUserFd maxNumFd with
        | none => return { ret := -1, err := .emfile }
        | some fd =>
            setFddes fd (fun f => { f with mindex := m.toNat })
            return { ret := fd, err := .ok } : Op World Ret) w)
      (fun r w' => (r = { ret := -1, err := .emfile } ∧ w' = w ∧ FdsFull w.fdTable) ∨
        ∃ i : Nat, r = { ret := i, err := .ok } ∧ w'.table = w.table ∧ w'.data = w.data ∧
          FdOpened w.fdTable w'.fdTable i m)
      (fun e _ => e = .undefined) := by
  have hn : firstUserFd + (maxNumFd + 1 - firstUserFd) = maxNumFd + 1 := rfl
  rw [ends_bind, getEmptyFd]
  generalize maxNumFd + 1 - firstUserFd = n at hn ⊢
  refine (getEmptyFdLoop_ends n firstUserFd).mono ?_ (fun _ _ he => he.1)
  rintro r w' (⟨hr, hw, hall⟩ | ⟨i, hr, hlow, hhigh, hfree, hleast, hw⟩)
  · subst hr hw
    exact Or.inl ⟨rfl, rfl, fun j h₁ h₂ => hall j h₁ (by omega) h₂⟩
  · subst hr hw
    change Ends ((setFddes (i : Nat) _ >>= _) _) _ _
    rw [setFddes_eq (by omega) (by omega)]
    refine Or.inr ⟨i, rfl, rfl, rfl, hlow, hhigh, hfree, hleast, ?_, ?_⟩
    · simp [World.setFd]
    · intro j hj
      simp [World.setFd, hj]

/-- The `O_APPEND` loop has no exit but the end of the process. -/
theorem appendLoop_error (fuel b : Nat) (d : DataShm) :
    ∃ e, appendLoop fuel b d = .error e d ∧ (e = .hang ∨ e = .exit .stepNotYetCreated) := by
  induction fuel generalizing b with
  | zero => exact ⟨.hang, rfl, Or.inl rfl⟩
  | succ fuel ih =>
      obtain ⟨e, he, hwhy⟩ := ih (d.bucket b).nextIx
      by_cases hb : b / dataBucketsStep ≥ d.dbucketSteps
      · refine ⟨.exit .stepNotYetCreated, ?_, Or.inr rfl⟩
        rw [appendLoop, getDbucketPtr, bind_assoc, run_get_bind, if_pos hb]
        rfl
      · refine ⟨e, ?_, hwhy⟩
        rw [appendLoop, getDbucketPtr, bind_assoc, run_get_bind, if_neg hb]
        exact he

/-! The whole call. -/

/-- The descriptor table after a descriptor of the kernel was recorded. -/
def FdForwarded (fds fds' : Nat → FdInfo) : Prop :=
  fds' = fds ∨ ∃ i, fds' = Function.update fds i
    { fds i with empty := false, exclusive := true }

/-- What an `open` that returns has done. -/
inductive OpenRet (env : Env) (pathname : Path) (flags : Nat) (rows : Nat → List Int)
    (ch : Int → List Nat) (w : World) : Ret → World → Prop where
  | forwarded {r : Ret} {w' : World} (hexcl : exclusivePath pathname = true)
      (htab : w'.table = w.table) (hdata : w'.data = w.data)
      (hfds : FdForwarded w.fdTable w'.fdTable) : OpenRet env pathname flags rows ch w r w'
  | tooLong {r : Ret} (hexcl : exclusivePath pathname = false) (hret : r.ret = -1)
      (hlen : pathMax < pathname.length) : OpenRet env pathname flags rows ch w r w
  | failed {r : Ret} {w' : World} {p : Path} (hexcl : exclusivePath pathname = false)
      (hlen : pathname.length ≤ pathMax) (hpath : absPath env pathname = .ok p)
      (hret : r.ret = -1) (hwhy : Unresolved env p flags rows w w') :
      OpenRet env pathname flags rows ch w r w'
  | opened {r : Ret} {w₁ w' : World} {p : Path} {m : Int}
      (hexcl : exclusivePath pathname = false) (hlen : pathname.length ≤ pathMax)
      (hpath : absPath env pathname = .ok p)
      (hres : Resolved env pathname p flags rows ch w m w₁)
      (he : Edited w₁.table w'.table m rewound) (hdata : w'.data = w₁.data)
      (hslot : (r = { ret := -1, err := .emfile } ∧ w'.fdTable = w₁.fdTable ∧
          FdsFull w₁.fdTable) ∨
        ∃ i : Nat, r = { ret := i, err := .ok } ∧ FdOpened w₁.fdTable w'.fdTable i m) :
      OpenRet env pathname flags rows ch w r w'

theorem Bare.fds {w' : World} (hb : Bare w rows w') : w'.fdTable = w.fdTable := by
  obtain ⟨_, _, _, _, hnew, _⟩ := hb
  exact hnew.fds

theorem Resolved.fds {w' : World} (hr : Resolved env pathname p flags rows ch w m w') :
    w'.fdTable = w.fdTable := by
  cases hr with
  | found _ _ _ => rfl
  | truncated _ _ _ _ _ => rfl
  | made _ hfill => exact hfill.file.fds

/-- With `O_APPEND` the process ends, or walks on without end, when the file is
resolved. -/
def AppendExit (env : Env) (pathname : Path) (flags : Nat) (rows : Nat → List Int)
    (ch : Int → List Nat) (w : World) (e : Halt) (w' : World) : Prop :=
  hasFlag flags oAppend = true ∧ (e = .hang ∨ e = .exit .stepNotYetCreated ∧
    ∃ p m, absPath env pathname = .ok p ∧ Resolved env pathname p flags rows ch w m w')

theorem openExclusive_ends (pathname : Path) (flags : Nat) :
    Ends ((do
        let ret := env.realOpen pathname flags
        if ret > 0 then
          setFddes ret (fun f => { f with empty := false, exclusive := true })
        return { ret := ret, err := env.realErrno } : Op World Ret) w)
      (fun _ w' => w'.table = w.table ∧ w'.data = w.data ∧ FdForwarded w.fdTable w'.fdTable)
      (fun e _ => e = .undefined) := by
  dsimp only
  rw [run_ite]
  split
  · by_cases hin : 0 ≤ env.realOpen pathname flags ∧ env.realOpen pathname flags < maxNumFd
    · rw [setFddes_eq hin.1 hin.2]
      exact ⟨rfl, rfl, Or.inr ⟨_, rfl⟩⟩
    · rw [setFddes, if_neg hin]
      exact rfl
  · exact ⟨rfl, rfl, Or.inl rfl⟩

theorem sysOpen_ends (hbld : bld.getFreeDbucketIx = bucketIxAllocAllRandom)
    (hfree : bld.oTruncFree = false) (wf : StoreWf (w.store rows ch)) (pathname : Path)
    (flags mode : Nat) :
    Ends (sysOpen bld env pathname flags mode w)
      (OpenRet env pathname flags rows ch w)
      (fun e w' => Died w rows e w' ∨ AppendExit env pathname flags rows ch w e w') := by
  unfold sysOpen
  rw [run_ite]
  cases hexcl : exclusivePath pathname with
  | true =>
      rw [if_pos rfl]
      refine (openExclusive_ends pathname flags).mono ?_ ?_
      · rintro r w' ⟨htab, hdata, hfds⟩
        exact .forwarded hexcl htab hdata hfds
      · rintro e w' rfl
        exact Or.inl (Or.inr (Or.inl rfl))
  | false =>
      rw [if_neg (by simp), run_ite]
      by_cases hlen : pathname.length > pathMax
      · rw [if_pos hlen]
        exact .tooLong hexcl rfl hlen
      · rw [if_neg hlen]
        rcases absPath_cases env pathname with ⟨p, hpath, hrun⟩ | ⟨e, he, _, hrun⟩
        · rw [bind_of_ok (hrun w), ends_bind]
          refine (openResolve_ends hbld hfree wf pathname p flags mode).mono ?_
            (fun _ _ he => Or.inl he)
          rintro r w₁ (⟨⟨e, rfl⟩, hwhy⟩ | ⟨m, rfl, hres⟩)
          · exact .failed hexcl (by omega) hpath rfl hwhy
          · dsimp only
            rw [openPosition, bind_assoc, run_get_bind]
            cases happ : hasFlag flags oAppend with
            | true =>
                rw [if_pos rfl]
                obtain ⟨e, he, hwhy⟩ := appendLoop_error walkFuel (w₁.table.mb m).firstDbucket
                  w₁.data
                rw [bind_of_error (onData_of_error he)]
                rcases hwhy with rfl | rfl
                · exact Or.inr ⟨happ, Or.inl rfl⟩
                · exact Or.inr ⟨happ, Or.inr ⟨rfl, p, m, hpath, hres⟩⟩
            | false =>
                rw [if_neg (by simp), run_setMb]
                have he : Edited w₁.table (w₁.table.setMb m (fun b =>
                    { b with lastDbucket := b.firstDbucket, lastDbOffset := 0 })) m rewound :=
                  Edited.setMb rfl
                refine (openSlot_ends m).mono ?_ ?_
                · rintro r w' (⟨rfl, rfl, hfull⟩ | ⟨i, rfl, htab, hdata, hslot⟩)
                  · exact .opened hexcl (by omega) hpath hres he rfl (Or.inl ⟨rfl, rfl, hfull⟩)
                  · exact .opened hexcl (by omega) hpath hres (htab ▸ he) hdata
                      (Or.inr ⟨i, rfl, hslot⟩)
                · rintro e w' rfl
                  exact Or.inl (Or.inr (Or.inl rfl))
        · rw [bind_of_error (hrun w)]
          exact Or.inl (Died.of_pathStop he)

end Spacefish
