import Spacefish.OpenFlags

/-!
The names of a rename. `rename` compares its arguments as they are written and
`mb_chpath` compares the absolute paths: two spellings of one file pass the first
comparison and are taken for a rename that is already done, whether or not the
file is in the table.
-/

namespace Spacefish

open LinkedArray Program

/-- `rename` calls `mb_chpath` with the absolute paths `foldpath` and `fnewpath`. -/
structure ReachesChpath (env : Env) (oldpath newpath foldpath fnewpath : Path) : Prop where
  differ : oldpath ≠ newpath
  oldShort : oldpath.length ≤ pathMax
  newShort : newpath.length ≤ pathMax
  oldAbs : absPath env oldpath = .ok foldpath
  newAbs : absPath env newpath = .ok fnewpath

/-- Behind a successful `mb_chpath`, which has left the table `t'`, `get_mbucket` finds
the new path, and `rename` marks the bucket it finds and returns 0. -/
def MarksBucket (env : Env) (oldpath newpath fnewpath : Path) (w : World) (t' : MetaShm) : Prop :=
  ∃ m, getMbucket fnewpath t' = .ok (some m) t' ∧
    sysRename env oldpath newpath w = .ok { ret := 0, err := .ok }
      { w with table := t'.setMb m (fun b => { b with consisent := false }) }

variable {w : World} {t t' : MetaShm} {rows : Nat → List Int} {env : Env}
  {oldpath newpath foldpath fnewpath : Path}

/-- The new path is in the table behind a successful `mb_chpath` if the paths differ
or the path was there before. -/
theorem mbChpath_new_iff (wf : TableWf t rows) (hzero : mbChpath foldpath fnewpath t = .ok 0 t') :
    (∃ m, getMbucket fnewpath t' = .ok (some m) t') ↔
      samePath foldpath fnewpath = false ∨ ∃ m, lookup t fnewpath = some m := by
  cases hsame : samePath foldpath fnewpath with
  | true =>
      rw [mbChpath, run_ite, if_pos hsame] at hzero
      obtain rfl : t = t' := by
        injection hzero
      constructor
      · rintro ⟨m, hget⟩
        exact Or.inr ⟨m, lookup_of_run hget⟩
      · rintro (hno | ⟨m, hfind⟩)
        · cases hno
        · exact ⟨m, (getMbucket_of_lookup wf hfind).1⟩
  | false =>
      refine iff_of_true ?_ (Or.inl rfl)
      have hends := mbChpath_ends wf foldpath fnewpath
      rw [hzero] at hends
      rcases hends with ⟨_, _, hyes⟩ |
        ⟨_, hn, _, hnew, _, _, hidle, ⟨hno, _⟩ | ⟨m, rows', _, _, hr⟩⟩
      · rw [hsame] at hyes
        cases hyes
      · cases hno
      · refine ⟨m, ?_⟩
        rw [hr.wf.getMbucket_eq hnew ((hr.locks hn).trans hidle), hr.found]

/-- Behind a successful `mb_chpath` there is a bucket to mark if and only if the two
absolute paths differ or the file is in the table. -/
theorem rename_marks_bucket_iff (wf : TableWf w.table rows)
    (hreach : ReachesChpath env oldpath newpath foldpath fnewpath)
    (hzero : mbChpath foldpath fnewpath w.table = .ok 0 t') :
    MarksBucket env oldpath newpath fnewpath w t' ↔
      samePath foldpath fnewpath = false ∨ ∃ m, lookup w.table fnewpath = some m := by
  rw [← mbChpath_new_iff wf hzero]
  constructor
  · rintro ⟨m, hget, _⟩
    exact ⟨m, hget⟩
  · rintro ⟨m, hget⟩
    refine ⟨m, hget, ?_⟩
    rw [sysRename, run_ite, if_neg hreach.differ, run_ite,
      if_neg (by have := hreach.oldShort; have := hreach.newShort; omega),
      bind_of_ok (absPath_run hreach.oldAbs w), bind_of_ok (absPath_run hreach.newAbs w),
      bind_of_ok (onMeta_of_ok hzero), if_neg (by decide),
      bind_of_ok (onMeta_of_ok (w := { w with table := t' }) hget)]
    rfl

/-- The rename of a file of three bytes. -/
theorem rename_marks_threeBytes :
    ∃ t', mbChpath pathA pathB threeBytes.table = .ok 0 t' ∧
      MarksBucket emptyDisk pathA pathB pathB (threeBytes.view 0) t' := by
  obtain ⟨rows, ch, hinv⟩ := run_sysWf threeBytes_reached
  have hnum : Ends (mbChpath pathA pathB threeBytes.table) (fun r _ => r = 0)
      (fun _ _ => False) := by decide +kernel
  cases hrun : mbChpath pathA pathB threeBytes.table with
  | error e t' =>
      rw [hrun] at hnum
      exact hnum.elim
  | ok r t' =>
      rw [hrun, ends_ok] at hnum
      subst hnum
      refine ⟨t', rfl, ?_⟩
      exact (rename_marks_bucket_iff (w := threeBytes.view 0) hinv.store.table
        ⟨by decide, by decide, by decide, by decide +kernel, by decide +kernel⟩ hrun).mpr
        (Or.inl (by decide +kernel))

/-- A process in the directory `/x`. -/
def inDirX : Env := { emptyDisk with cwd := some [47, 120] }

/-- `rename("./a", "a")` of a file that is nowhere follows a null pointer. -/
theorem rename_two_spellings :
    ¬ ∀ (env : Env) (w : World) (rows : Nat → List Int) (oldpath newpath foldpath fnewpath : Path)
      (t' : MetaShm), TableWf w.table rows →
      ReachesChpath env oldpath newpath foldpath fnewpath →
      mbChpath foldpath fnewpath w.table = .ok 0 t' →
      MarksBucket env oldpath newpath fnewpath w t' := by
  intro hall
  have hreach : ReachesChpath inDirX [46, 47, 97] [97] [47, 120, 47, 97] [47, 120, 47, 97] :=
    ⟨by decide, by decide, by decide, by decide +kernel, by decide +kernel⟩
  obtain ⟨m, hget, _⟩ := hall inDirX (initSys.view 0) _ _ _ _ _ initSys.table
    initSys_wf.store.table hreach (by rw [mbChpath, run_ite, if_pos (by decide +kernel)]; rfl)
  have hlook : lookup initSys.table [47, 120, 47, 97] = none := by decide +kernel
  rw [lookup_of_run hget] at hlook
  cases hlook

end Spacefish
