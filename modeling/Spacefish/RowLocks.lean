import Spacefish.RowSearch

/-!
The row locks across the operations of `meta_shm.c`. Between its lock and its
unlock calls an operation edits buckets and row heads and leaves every lock as
it is, so each return path is judged by the unlock calls on it alone. All paths
give back what they took, except the one of `mb_chpath` on which the old path is
absent.
-/

namespace Spacefish

open Program

/-- The locks of all rows. -/
def MetaShm.locks (t : MetaShm) (h : Nat) : UrwLock := (t.row h).lock

/-- No row of the table is locked. -/
def RowsFree (t : MetaShm) : Prop := ∀ h < hashTableSize, RowIdle t h

variable {t t' : MetaShm} {h ho hn : Nat} {str oldpath newpath : Path} {α β : Type}

/-! Steps that leave the locks alone. -/

theorem setRow_locks {f : HashInfo → HashInfo} (hf : ∀ hi, (f hi).lock = hi.lock) :
    (t.setRow h f).locks = t.locks := by
  funext k
  by_cases hk : k = h
  · subst hk
    simp [MetaShm.locks, MetaShm.setRow, hf]
  · simp [MetaShm.locks, MetaShm.setRow, hk]

theorem lockRow_locks (l : UrwLock) : (t.lockRow h l).locks = Function.update t.locks h l := by
  funext k
  by_cases hk : k = h
  · subst hk
    simp [MetaShm.locks]
  · simp [MetaShm.locks, MetaShm.lockRow, MetaShm.setRow, hk]

theorem get_fixes : Fixes MetaShm.locks (get : Op MetaShm MetaShm) := Keeps.get.fixes

theorem setMb_fixes (ix : Int) (f : MetaBucket → MetaBucket) :
    Fixes MetaShm.locks (modify (·.setMb ix f) : Op MetaShm PUnit) :=
  Fixes.modify (fun _ => rfl)

theorem setFirst_fixes (h : Nat) (ix : Int) :
    Fixes MetaShm.locks (modify (·.setRow h (fun hi => { hi with firstIx := ix })) :
      Op MetaShm PUnit) :=
  Fixes.modify (fun _ => setRow_locks (fun _ => rfl))

theorem linkAfter_fixes (h : Nat) (prev : Option Int) (ix : Int) :
    Fixes MetaShm.locks (linkAfter h prev ix) := by
  cases prev with
  | none => exact setFirst_fixes h ix
  | some p => exact setMb_fixes p _

theorem spinLockMb_fixes (ix : Int) : Fixes MetaShm.locks (spinLockMb ix) := by
  intro t
  rw [spinLockMb, run_get_bind]
  split
  · trivial
  · rfl

theorem allocateMbucket_fixes (rand : Nat) : Fixes MetaShm.locks (allocateMbucket rand) := by
  refine get_fixes.bind (fun t => ?_)
  split
  · exact (setMb_fixes _ _).bind (fun _ => (Keeps.pure _).fixes)
  · exact (Keeps.pure _).fixes

/-! Return paths that unlock their row. -/

/-- Started with the row locked for writing, the program gives this lock back on
all its return paths and leaves the others alone. -/
def Unlocks (h : Nat) (x : Op MetaShm α) : Prop :=
  ∀ t, t.locks h = ⟨0, 1, true⟩ →
    Ends (x t) (fun _ t' => t'.locks = Function.update t.locks h initUrwLock) (fun _ _ => True)

theorem upWrite_unlocks (h : Nat) : Unlocks h (upWrite h) := by
  intro t hlock
  rw [upWrite_eq hlock]
  exact lockRow_locks _

theorem Unlocks.after {x : Op MetaShm α} {f : α → Op MetaShm β} (hx : Fixes MetaShm.locks x)
    (hf : ∀ a, Unlocks h (f a)) : Unlocks h (x >>= f) := by
  intro t hlock
  rw [ends_bind]
  refine (hx t).mono ?_ (fun _ _ _ => trivial)
  intro a t' hsame
  have hrest := hf a t' (by rw [hsame, hlock])
  rwa [hsame] at hrest

theorem Unlocks.before {x : Op MetaShm α} {f : α → Op MetaShm β} (hx : Unlocks h x)
    (hf : ∀ a, Fixes MetaShm.locks (f a)) : Unlocks h (x >>= f) := by
  intro t hlock
  rw [ends_bind]
  refine (hx t hlock).mono ?_ (fun _ _ _ => trivial)
  intro a t' hopen
  refine (hf a t').mono ?_ (fun _ _ _ => trivial)
  intro b t'' hsame
  exact hsame.trans hopen

theorem Unlocks.return (r : α) : Unlocks h (upWrite h >>= fun _ => pure r) :=
  (upWrite_unlocks h).before (fun _ => (Keeps.pure r).fixes)

/-- A program that locks a free row and gives it back. -/
theorem Unlocks.lock {x : Op MetaShm α} (hx : Unlocks h x) (hidle : RowIdle t h) :
    Ends ((downWrite h >>= fun _ => x) t) (fun _ t' => t'.locks = t.locks) (fun _ _ => True) := by
  rw [bind_of_ok (downWrite_eq hidle)]
  refine (hx _ (lockRow_lock _)).mono ?_ (fun _ _ _ => trivial)
  intro a t' hopen
  rw [hopen, lockRow_locks, Function.update_idem]
  exact Function.update_eq_self_iff.mpr hidle.symm

/-! The operations on one row. -/

theorem RowsFree.of_locks (hfree : RowsFree t) (hlocks : t'.locks = t.locks) : RowsFree t' := by
  intro k hk
  exact (congrFun hlocks k).trans (hfree k hk)

/-- A call that first hashes its path and then works on that row. -/
theorem hashRow_ends {f : Nat → Op MetaShm α} {Q : α → MetaShm → Prop}
    (hf : ∀ h < hashTableSize, Ends (f h t) Q (fun _ _ => True)) :
    Ends ((hashRow str >>= f) t) Q (fun _ _ => True) := by
  cases hok : hash str with
  | ok h =>
      rw [bind_of_ok (hashRow_eq hok)]
      exact hf h (hash_lt hok)
  | error e =>
      rw [hashRow, hok]
      trivial

theorem getMbucket_locks (hfree : RowsFree t) (str : Path) :
    Ends (getMbucket str t) (fun _ t' => t'.locks = t.locks) (fun _ _ => True) := by
  refine hashRow_ends (fun h hh => ?_)
  have hidle := hfree h hh
  rw [bind_of_ok (downRead_eq hidle), run_get_bind, ends_bind]
  refine (getMbucketLoop_keeps str rowFuel _ _).mono ?_ (fun _ _ _ => trivial)
  rintro mb t' rfl
  rw [bind_of_ok (upRead_eq (lockRow_lock _)), lockRow_lockRow, lockRow_self hidle]
  rfl

theorem strictCreateMbucket_locks (hfree : RowsFree t) (rand : Nat) (str : Path) :
    Ends (strictCreateMbucket rand str t) (fun _ t' => t'.locks = t.locks)
      (fun _ _ => True) := by
  refine hashRow_ends (fun h hh => Unlocks.lock ?_ (hfree h hh))
  refine Unlocks.after get_fixes (fun t => ?_)
  dsimp only
  split
  · refine Unlocks.after (allocateMbucket_fixes rand) (fun ret => ?_)
    split
    · exact Unlocks.return none
    · exact Unlocks.after (setFirst_fixes h ret) (fun _ => Unlocks.return _)
  · split
    · exact Unlocks.return none
    · refine Unlocks.after (rowEndLoop_keeps str _ _).fixes (fun r => ?_)
      split
      · exact Unlocks.return none
      · refine Unlocks.after (allocateMbucket_fixes rand) (fun ret => ?_)
        split
        · exact Unlocks.return none
        · exact Unlocks.after (setMb_fixes _ _) (fun _ => Unlocks.return _)

theorem getOrCreateMbucket_locks (hfree : RowsFree t) (rand : Nat) (str : Path) :
    Ends (getOrCreateMbucket rand str t) (fun _ t' => t'.locks = t.locks)
      (fun _ _ => True) := by
  refine hashRow_ends (fun h hh => Unlocks.lock ?_ (hfree h hh))
  refine Unlocks.after get_fixes (fun t => ?_)
  dsimp only
  split
  · refine Unlocks.after (allocateMbucket_fixes rand) (fun ret => ?_)
    exact Unlocks.after (setFirst_fixes h ret) (fun _ => Unlocks.return _)
  · split
    · exact Unlocks.return _
    · refine Unlocks.after (rowEndLoop_keeps str _ _).fixes (fun r => ?_)
      split
      · exact Unlocks.return _
      · refine Unlocks.after (allocateMbucket_fixes rand) (fun ret => ?_)
        exact Unlocks.after (setMb_fixes _ _) (fun _ => Unlocks.return _)

theorem releaseMetaBucket_locks (hfree : RowsFree t) (str : Path) :
    Ends (releaseMetaBucket str t) (fun _ t' => t'.locks = t.locks) (fun _ _ => True) := by
  refine hashRow_ends (fun h hh => Unlocks.lock ?_ (hfree h hh))
  refine Unlocks.after (getMbAndPrev_keeps str).fixes (fun r => ?_)
  split
  · exact Unlocks.return _
  · refine Unlocks.after get_fixes (fun t => ?_)
    refine Unlocks.after (linkAfter_fixes h _ _) (fun _ => ?_)
    refine Unlocks.after (setMb_fixes _ _) (fun _ => (upWrite_unlocks h).before (fun _ => ?_))
    refine (spinLockMb_fixes _).bind (fun _ => (setMb_fixes _ _).bind (fun _ => ?_))
    exact (setMb_fixes _ _).bind (fun _ => (Keeps.pure _).fixes)

/-! Rename. -/

/-- What `mb_chpath` does while both rows are locked. -/
def chpathRows (hiOld hiNew : Nat) (oldpath newpath : Path) : Op MetaShm Int := do
  let (mbOld, mbOldPrev) ← getMbAndPrev oldpath
  let (mbNew, mbNewPrev) ← getMbAndPrev newpath
  match mbOld with
  | none => return -1
  | some mbOld =>
      let t ← get
      let oldIx := linkBehind t hiOld mbOldPrev
      modify (·.setMb mbOld (fun b => { b with path := newpath.take pathMax }))
      linkAfter hiOld mbOldPrev (t.mb mbOld).nextIx
      match mbNew with
      | some mbNew =>
          let t ← get
          modify (·.setMb mbOld (fun b => { b with nextIx := (t.mb mbNew).nextIx }))
          linkAfter hiNew mbNewPrev oldIx
          spinLockMb mbNew
          modify (·.setMb mbNew (fun b =>
            { b with inUse := false, nextIx := -1, firstDbucket := noIx,
                     lastDbucket := noIx, lastDbOffset := 0 }))
          spinUnlockMb mbNew
          return 0
      | none =>
          modify (·.setMb mbOld (fun b => { b with nextIx := -1 }))
          linkAfter hiNew mbNewPrev oldIx
          return 0

/-- The end of `mb_chpath`; the early return of an absent path skips it. -/
def chpathUnlock (hiOld hiNew : Nat) (r : Int) : Op MetaShm Int :=
  if r = -1 then pure (-1)
  else do
    upWrite hiNew
    upWrite hiOld
    return r

theorem mbChpath_phases (hdiff : samePath oldpath newpath = false) :
    mbChpath oldpath newpath = (do
      let hiOld ← hashRow oldpath
      let hiNew ← hashRow newpath
      downWrite hiOld
      downWrite hiNew
      let r ← chpathRows hiOld hiNew oldpath newpath
      chpathUnlock hiOld hiNew r) := by
  unfold mbChpath
  rw [if_neg (by simp [hdiff])]
  refine congrArg _ (funext fun hiOld => congrArg _ (funext fun hiNew => ?_))
  refine congrArg _ (funext fun _ => congrArg _ (funext fun _ => ?_))
  unfold chpathRows
  simp only [bind_assoc]
  refine congrArg _ (funext fun old => congrArg _ (funext fun new => ?_))
  obtain ⟨_ | mbOld, mbOldPrev⟩ := old
  · rfl
  · obtain ⟨_ | mbNew, mbNewPrev⟩ := new
    · simp [chpathUnlock]
    · simp [chpathUnlock]

/-- `mb_chpath` fails exactly when the old path is absent. -/
theorem chpathRows_ends (ho hn : Nat) (oldpath newpath : Path) :
    Ends (chpathRows ho hn oldpath newpath t)
      (fun r t' => t'.locks = t.locks ∧ (r = -1 ↔ ¬ HasPath t oldpath)) (fun _ _ => True) := by
  rw [chpathRows, ends_bind]
  refine ((getMbAndPrev_keeps oldpath t).and (getMbAndPrev_hasPath oldpath)).mono ?_
    (fun _ _ _ => trivial)
  rintro ⟨mbOld, mbOldPrev⟩ t' ⟨rfl, hfound⟩
  rw [ends_bind]
  refine (getMbAndPrev_keeps newpath t').mono ?_ (fun _ _ _ => trivial)
  rintro ⟨mbNew, mbNewPrev⟩ t rfl
  cases mbOld with
  | none => exact ⟨rfl, iff_of_true rfl (fun hhas => by simpa using hfound.mpr hhas)⟩
  | some mbOld =>
      -- every store below leaves the locks as they were in `t`
      have hzero : ∀ t' : MetaShm, t'.locks = t.locks →
          Ends ((pure 0 : Op MetaShm Int) t')
            (fun r t' => t'.locks = t.locks ∧ (r = -1 ↔ ¬ HasPath t oldpath)) (fun _ _ => True) :=
        fun t' hlocks => ⟨hlocks, iff_of_false (by decide) (not_not.mpr (hfound.mp rfl))⟩
      refine get_fixes.then rfl (fun _ _ h₁ => ?_)
      refine (setMb_fixes _ _).then h₁ (fun _ _ h₂ => ?_)
      refine (linkAfter_fixes _ _ _).then h₂ (fun _ _ h₃ => ?_)
      cases mbNew with
      | some mbNew =>
          refine get_fixes.then h₃ (fun _ _ h₄ => ?_)
          refine (setMb_fixes _ _).then h₄ (fun _ _ h₅ => ?_)
          refine (linkAfter_fixes _ _ _).then h₅ (fun _ _ h₆ => ?_)
          refine (spinLockMb_fixes _).then h₆ (fun _ _ h₇ => ?_)
          refine (setMb_fixes _ _).then h₇ (fun _ _ h₈ => ?_)
          exact (setMb_fixes _ _).then h₈ (fun _ _ h₉ => hzero _ h₉)
      | none =>
          refine (setMb_fixes _ _).then h₃ (fun _ _ h₄ => ?_)
          exact (linkAfter_fixes _ _ _).then h₄ (fun _ _ h₅ => hzero _ h₅)

/-- The locks after `mb_chpath` on free rows that differ. -/
theorem mbChpath_locks (hold : hash oldpath = .ok ho) (hnew : hash newpath = .ok hn)
    (hne : ho ≠ hn) (hidle : RowIdle t ho) (hidle' : RowIdle t hn)
    (hdiff : samePath oldpath newpath = false) :
    Ends (mbChpath oldpath newpath t)
      (fun _ t' => (HasPath t oldpath → t'.locks = t.locks) ∧
        (¬ HasPath t oldpath → t'.locks ho = ⟨0, 1, true⟩)) (fun _ _ => True) := by
  have hfree : RowIdle (t.lockRow ho ⟨0, 1, true⟩) hn := by
    rw [RowIdle, lockRow_lock_of_ne hne]
    exact hidle'
  rw [mbChpath_phases hdiff, bind_of_ok (hashRow_eq hold), bind_of_ok (hashRow_eq hnew),
    bind_of_ok (downWrite_eq hidle), bind_of_ok (downWrite_eq hfree), ends_bind]
  refine (chpathRows_ends ho hn oldpath newpath).mono ?_ (fun _ _ _ => trivial)
  rintro r t₁ ⟨hlocks, hr⟩
  rw [hasPath_lockRow, hasPath_lockRow] at hr
  rw [lockRow_locks, lockRow_locks] at hlocks
  rw [chpathUnlock, run_ite]
  split
  next habsent =>
    refine ⟨fun hhas => absurd hhas (hr.mp habsent), fun _ => ?_⟩
    rw [hlocks, Function.update_of_ne hne, Function.update_self]
  next hpresent =>
    have hunlock : Unlocks hn (upWrite hn) := upWrite_unlocks hn
    have hunlock' : Unlocks ho (upWrite ho >>= fun _ => pure r) := Unlocks.return r
    rw [ends_bind]
    refine (hunlock t₁ (by rw [hlocks, Function.update_self])).mono ?_ (fun _ _ _ => trivial)
    intro _ t₂ h₂
    rw [hlocks, Function.update_idem, Function.update_comm hne] at h₂
    refine (hunlock' t₂ (by rw [h₂, Function.update_self])).mono ?_ (fun _ _ _ => trivial)
    intro _ t₃ h₃
    refine ⟨fun _ => ?_, fun habsent => absurd (hr.mpr habsent) hpresent⟩
    have hsame : Function.update t.locks hn initUrwLock = t.locks :=
      Function.update_eq_self_iff.mpr hidle'.symm
    rw [h₃, h₂, Function.update_idem, hsame]
    exact Function.update_eq_self_iff.mpr hidle.symm

/-! All operations. -/

inductive TableCall where
  | get (str : Path)
  | strictCreate (rand : Nat) (str : Path)
  | getOrCreate (rand : Nat) (str : Path)
  | release (str : Path)
  | chpath (oldpath newpath : Path)

def TableCall.run : TableCall → Op MetaShm Unit
  | .get str => getMbucket str >>= fun _ => pure ()
  | .strictCreate rand str => strictCreateMbucket rand str >>= fun _ => pure ()
  | .getOrCreate rand str => getOrCreateMbucket rand str >>= fun _ => pure ()
  | .release str => releaseMetaBucket str >>= fun _ => pure ()
  | .chpath oldpath newpath => mbChpath oldpath newpath >>= fun _ => pure ()

/-- The two paths of a rename hash to different rows. -/
def TableCall.OnTwoRows : TableCall → Prop
  | .chpath oldpath newpath => hash oldpath ≠ hash newpath
  | _ => True

/-- A rename finds its old path, or has nothing to do. -/
def TableCall.FindsOld (t : MetaShm) : TableCall → Prop
  | .chpath oldpath newpath => samePath oldpath newpath = true ∨ HasPath t oldpath
  | _ => True

theorem ends_of_run {x : Op MetaShm α} {Q : MetaShm → Prop}
    (hends : Ends (x t) (fun _ t' => Q t') (fun _ _ => True))
    (hrun : (x >>= fun _ => pure ()) t = .ok () t') : Q t' := by
  have hbind : Ends ((x >>= fun _ => pure ()) t) (fun _ t' => Q t') (fun _ _ => True) := by
    rw [ends_bind]
    exact hends
  rw [hrun] at hbind
  exact hbind

theorem mbChpath_balanced (hfree : RowsFree t) (hrows : hash oldpath ≠ hash newpath)
    (hrun : (mbChpath oldpath newpath >>= fun _ => pure ()) t = .ok () t') :
    RowsFree t' ↔ samePath oldpath newpath = true ∨ HasPath t oldpath := by
  cases hdiff : samePath oldpath newpath with
  | true =>
      have hsame : Ends (mbChpath oldpath newpath t) (fun _ t' => t' = t) (fun _ _ => True) := by
        rw [mbChpath, if_pos hdiff]
        rfl
      obtain rfl := ends_of_run hsame hrun
      exact iff_of_true hfree (Or.inl rfl)
  | false =>
      cases hold : hash oldpath with
      | error e =>
          rw [mbChpath_phases hdiff, hashRow, hold] at hrun
          cases hrun
      | ok ho =>
          cases hnew : hash newpath with
          | error e =>
              rw [mbChpath_phases hdiff, bind_assoc, bind_of_ok (hashRow_eq hold), hashRow,
                hnew] at hrun
              cases hrun
          | ok hn =>
              have hne : ho ≠ hn := fun heq => hrows (by rw [hold, hnew, heq])
              obtain ⟨hfound, habsent⟩ := ends_of_run (mbChpath_locks hold hnew hne
                (hfree ho (hash_lt hold)) (hfree hn (hash_lt hnew)) hdiff) hrun
              constructor
              · intro hfree'
                by_contra hnot
                have hidle : t'.locks ho = initUrwLock := hfree' ho (hash_lt hold)
                rw [habsent (fun hhas => hnot (Or.inr hhas))] at hidle
                cases hidle
              · rintro (hsame | hhas)
                · cases hsame
                · exact hfree.of_locks (hfound hhas)

/-- On every return path the rows are free again, unless a rename did not find
its old path. -/
theorem row_locks_balanced (hfree : RowsFree t) (call : TableCall) (hrows : call.OnTwoRows)
    (hrun : call.run t = .ok () t') : RowsFree t' ↔ call.FindsOld t := by
  cases call with
  | get str =>
      exact iff_of_true (hfree.of_locks (ends_of_run (getMbucket_locks hfree str) hrun)) trivial
  | strictCreate rand str =>
      exact iff_of_true
        (hfree.of_locks (ends_of_run (strictCreateMbucket_locks hfree rand str) hrun)) trivial
  | getOrCreate rand str =>
      exact iff_of_true
        (hfree.of_locks (ends_of_run (getOrCreateMbucket_locks hfree rand str) hrun)) trivial
  | release str =>
      exact iff_of_true
        (hfree.of_locks (ends_of_run (releaseMetaBucket_locks hfree str) hrun)) trivial
  | chpath oldpath newpath => exact mbChpath_balanced hfree hrows hrun

theorem initTable_free : RowsFree initTable := fun _ _ => rfl

/-- A table with the file `/a` of three bytes, its cursor at the end. -/
def oneFile : MetaShm :=
  (initTable.setRow 12469 (fun hi => { hi with firstIx := 0 })).setMb 0 (fun b =>
    { b with inUse := true, path := [47, 97], firstDbucket := 0, lastDbucket := 0
             lastDbOffset := 3, s := { b.s with stSize := 3 } })

theorem oneFile_free : RowsFree oneFile := by
  intro h hh
  have hlocks : oneFile.locks = initTable.locks := by
    funext k
    change (Function.update initTable.row 12469 _ k).lock = (initTable.row k).lock
    rw [Function.update_apply]
    split <;> rfl
  exact initTable_free.of_locks hlocks h hh

/-- A rename of the file gives both rows back. -/
theorem row_locks_balanced_rename : ∃ t',
    (TableCall.chpath [47, 97] [47, 98]).run oneFile = .ok () t' ∧ RowsFree t' := by
  obtain ⟨t', hrun⟩ : ∃ t', (TableCall.chpath [47, 97] [47, 98]).run oneFile = .ok () t' := ⟨_, rfl⟩
  have hrows : hash [47, 97] ≠ hash [47, 98] := fun heq => by cases heq
  have hhas : HasPath oneFile [47, 97] := ⟨12469, 0, by decide, .here (by decide), by decide⟩
  exact ⟨t', hrun, (row_locks_balanced oneFile_free (.chpath [47, 97] [47, 98]) hrows hrun).mpr
    (Or.inr hhas)⟩

/-- A rename of a path that the empty table does not hold keeps both rows locked. -/
theorem rename_absent_keeps_locks :
    ¬ ∀ (t t' : MetaShm) (call : TableCall), RowsFree t → call.OnTwoRows →
      call.run t = .ok () t' → RowsFree t' := by
  intro hall
  obtain ⟨t', hrun, hlock⟩ : ∃ t', (TableCall.chpath [47, 97] [47, 98]).run initTable = .ok () t' ∧
      (t'.row 12469).lock = ⟨0, 1, true⟩ := ⟨_, rfl, rfl⟩
  have hrows : hash [47, 97] ≠ hash [47, 98] := fun heq => by cases heq
  have hidle := hall _ _ (.chpath [47, 97] [47, 98]) initTable_free hrows hrun 12469 (by decide)
  rw [RowIdle, hlock] at hidle
  cases hidle

end Spacefish
