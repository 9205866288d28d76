import Spacefish.TableEdit

/-!
Creation in a well-formed table: `strict_create_mbucket` walks its row to the
end, takes a free bucket from the array and appends it to the row.
-/

namespace Spacefish

open LinkedArray Program

variable {t : MetaShm} {rows : Nat → List Int} {h fuel : Nat} {str : Path}
  {l : List Int} {i m : Int}

/-- Every bucket of the array is taken. -/
def TableFull (t : MetaShm) : Prop := ∀ m : Int, 0 ≤ m → m < metaBuckets → (t.mb m).inUse = true

/-- The walk to the end of a row. -/
theorem rowEndLoop_eq (hl : Linked t.next (-1) i (m :: l)) (hf : (m :: l).length < fuel) :
    ∃ a, rowEndLoop str fuel i t = .ok (findPath t str (m :: l), a) t ∧
      (findPath t str (m :: l) = none → (m :: l).getLast? = some a) := by
  induction l generalizing i m fuel with
  | nil =>
      obtain ⟨rfl, hm, hnext⟩ := hl
      obtain ⟨fuel, rfl⟩ : ∃ n, fuel = n + 1 := ⟨fuel - 1, by simp at hf; omega⟩
      have hnext : (t.mb i).nextIx = -1 := hnext
      by_cases hsame : samePath str (t.mb i).path
      · exact ⟨i, by simp [rowEndLoop, findPath, hnext, hsame]⟩
      · exact ⟨i, by simp [rowEndLoop, findPath, hnext, hsame]⟩
  | cons m' l ih =>
      obtain ⟨rfl, hm, htail⟩ := hl
      obtain ⟨fuel, rfl⟩ : ∃ n, fuel = n + 1 := ⟨fuel - 1, by simp at hf; omega⟩
      have hnext : (t.mb i).nextIx ≠ -1 := by
        rw [show (t.mb i).nextIx = m' from htail.1]
        exact htail.2.1
      by_cases hsame : samePath str (t.mb i).path
      · exact ⟨i, by simp [rowEndLoop, findPath, hnext, hsame]⟩
      · obtain ⟨a, hrun, hlast⟩ := ih htail (by simpa using hf)
        have hfind : findPath t str (i :: m' :: l) = findPath t str (m' :: l) := by
          simp [findPath, hsame]
        refine ⟨a, ?_, ?_⟩
        · rw [hfind]
          simpa [rowEndLoop, hnext, hsame, MetaShm.next] using hrun
        · rw [hfind]
          intro hnone
          simpa using hlast hnone

/-- `allocate_mbucket` takes a free bucket if there is one. -/
theorem allocateMbucket_eq (rand : Nat) (hunlocked : ∀ m, (t.mb m).lock = false) :
    (∃ m : Int, (0 ≤ m ∧ m < metaBuckets) ∧ (t.mb m).inUse = false ∧
      allocateMbucket rand t = .ok m (t.setMb m (fun mb => { mb with inUse := true }))) ∨
    ((∀ m : Int, 0 ≤ m → m < metaBuckets → (t.mb m).inUse = true) ∧
      allocateMbucket rand t = .ok (-1) t) := by
  unfold allocateMbucket
  rw [run_get_bind]
  cases hscan : CyclicScan.scan (fun ix => !(t.mb ix).inUse && !(t.mb ix).lock)
      (rand % metaBuckets) metaBuckets metaBuckets 0 with
  | some ix =>
      obtain ⟨hlt, hfree⟩ := CyclicScan.full_scan_some hscan
      refine Or.inl ⟨ix, by omega, ?_, rfl⟩
      simp only [hunlocked, Bool.and_eq_true, Bool.not_eq_eq_eq_not, Bool.not_true] at hfree
      exact hfree.1
  | none =>
      refine Or.inr ⟨fun m h₀ h₁ => ?_, rfl⟩
      have hbusy := CyclicScan.full_scan_none hscan m.toNat (by omega)
      rw [show ((m.toNat : Nat) : Int) = m by omega, hunlocked] at hbusy
      simpa using hbusy

/-- What `strict_create_mbucket` leaves when it makes bucket `m` for row `h`. -/
structure Created (t t' : MetaShm) (rows : Nat → List Int) (h : Nat) (m : Int) : Prop where
  fresh : (t.mb m).inUse = false
  bound : 0 ≤ m ∧ m < metaBuckets
  wf : TableWf t' (Function.update rows h (rows h ++ [m]))
  new : SameButLink (t'.mb m) { t.mb m with inUse := true }
  same : ∀ m' ≠ m, SameButLink (t'.mb m') (t.mb m')
  locks : ∀ h, (t'.row h).lock = (t.row h).lock

theorem TableWf.not_mem (wf : TableWf t rows) (hm : (t.mb m).inUse = false) :
    ∀ h < hashTableSize, m ∉ rows h := by
  intro h hh hmem
  rw [(wf.inUse_iff m).mpr ⟨h, hh, hmem⟩] at hm
  cases hm

theorem TableWf.create (wf : TableWf t rows) (hh : h < hashTableSize)
    (hm : (t.mb m).inUse = false) (hbound : 0 ≤ m ∧ m < metaBuckets) :
    Created t ((t.setMb m (fun mb => { mb with inUse := true })).relink h (rows h).getLast? m)
      rows h m := by
  have hoff := wf.not_mem hm
  have hnext := (wf.free m hm).1
  have hrows := wf.toRowsWf.setMb_off (fun mb => { mb with inUse := true }) hoff
  have hins := hrows.insert (rows h) [] [] hh (by simp) hoff hbound
    (by simpa [MetaShm.next] using hnext)
  have hsame : ∀ m' ≠ m, SameButLink
      (((t.setMb m (fun mb => { mb with inUse := true })).relink h (rows h).getLast? m).mb m')
      (t.mb m') := by
    intro m' hne
    refine SameButLink.trans relink_same ?_
    rw [setMb_mb_of_ne _ hne]
    exact SameButLink.refl _
  have hnew : SameButLink
      (((t.setMb m (fun mb => { mb with inUse := true })).relink h (rows h).getLast? m).mb m)
      { t.mb m with inUse := true } := by
    refine SameButLink.trans relink_same ?_
    rw [setMb_mb_self]
    exact SameButLink.refl _
  refine ⟨hm, hbound, ⟨hins, ?_, ?_, ?_, ?_⟩, hnew, hsame, fun h' => relink_rowLock⟩
  · intro m'
    by_cases hne : m' = m
    · subst hne
      rw [hnew.inUse]
      exact ⟨fun _ => ⟨h, hh, by simp⟩, fun _ => rfl⟩
    · rw [(hsame m' hne).inUse, wf.inUse_iff]
      constructor
      · rintro ⟨h', hh', hmem⟩
        refine ⟨h', hh', ?_⟩
        by_cases heq : h' = h
        · subst heq
          simp [hmem]
        · simpa [heq] using hmem
      · rintro ⟨h', hh', hmem⟩
        refine ⟨h', hh', ?_⟩
        by_cases heq : h' = h
        · subst heq
          simpa [hne] using hmem
        · simpa [heq] using hmem
  · intro m' hfree
    have hne : m' ≠ m := by
      rintro rfl
      rw [hnew.inUse] at hfree
      cases hfree
    rw [(hsame m' hne).inUse] at hfree
    refine ⟨?_, by rw [(hsame m' hne).firstDbucket]; exact (wf.free m' hfree).2⟩
    rw [relink_next_of_ne, MetaShm.next, setMb_mb_of_ne _ hne]
    · exact (wf.free m' hfree).1
    · intro hlast
      exact wf.not_mem hfree h hh (List.mem_of_getLast? hlast)
  · intro h'
    simp only [RowIdle, RowStuck, relink_rowLock]
    exact wf.rowLock h'
  · intro m'
    by_cases hne : m' = m
    · subst hne
      rw [hnew.lock]
      exact wf.mbUnlocked m'
    · rw [(hsame m' hne).lock]
      exact wf.mbUnlocked m'

/-- Dropping the write lock of a row gives back the table under the lock. -/
theorem upWrite_lockRow (hl : (t.row h).lock = initUrwLock) :
    upWrite h (t.lockRow h ⟨0, 1, true⟩) = .ok ⟨⟩ t := by
  rw [upWrite_eq (lockRow_lock _), lockRow_lockRow, lockRow_self hl]

/-- The end of `strict_create_mbucket`: allocate, link behind `prev`, unlock. -/
def appendNew (rand h : Nat) (prev : Option Int) : Op MetaShm (Option Int) := do
  let ret ← allocateMbucket rand
  if ret = -1 then
    upWrite h
    return none
  linkAfter h prev ret
  upWrite h
  return some ret

theorem TableWf.appendNew_eq (wf : TableWf t rows) (rand : Nat) (hh : h < hashTableSize)
    (hidle : RowIdle t h) :
    (appendNew rand h (rows h).getLast? (t.lockRow h ⟨0, 1, true⟩) = .ok none t ∧
      ∀ m : Int, 0 ≤ m → m < metaBuckets → (t.mb m).inUse = true) ∨
    ∃ m t', appendNew rand h (rows h).getLast? (t.lockRow h ⟨0, 1, true⟩) = .ok (some m) t' ∧
      Created t t' rows h m := by
  unfold appendNew
  rcases allocateMbucket_eq (t := t.lockRow h ⟨0, 1, true⟩) rand wf.mbUnlocked with
    ⟨m, hbound, hfree, halloc⟩ | ⟨hfull, halloc⟩
  · refine Or.inr ⟨m, _, ?_, wf.create hh hfree hbound⟩
    have hne : m ≠ -1 := by omega
    have hlink : linkAfter h (rows h).getLast? m
        ((t.lockRow h ⟨0, 1, true⟩).setMb m (fun mb => { mb with inUse := true })) =
        .ok ⟨⟩ (((t.setMb m (fun mb => { mb with inUse := true })).relink h
          (rows h).getLast? m).lockRow h ⟨0, 1, true⟩) := by
      rw [linkAfter_eq, ← relink_lockRow]
      rfl
    rw [bind_of_ok halloc, run_ite, if_neg hne, bind_of_ok hlink, bind_of_ok (upWrite_lockRow ?_)]
    · rfl
    · rw [relink_rowLock]
      exact hidle
  · refine Or.inl ⟨?_, hfull⟩
    rw [bind_of_ok halloc, run_ite, if_pos rfl, bind_of_ok (upWrite_lockRow hidle)]
    rfl

/-- `strict_create_mbucket` fails with the table unchanged when the path is on
its row or no bucket is free, and otherwise appends a free bucket to the row. -/
theorem TableWf.strictCreateMbucket_eq (wf : TableWf t rows) (rand : Nat)
    (hok : hash str = .ok h) (hidle : RowIdle t h) :
    (strictCreateMbucket rand str t = .ok none t ∧
      ((findPath t str (rows h)).isSome ∨
        ∀ m : Int, 0 ≤ m → m < metaBuckets → (t.mb m).inUse = true)) ∨
    ∃ m t', strictCreateMbucket rand str t = .ok (some m) t' ∧
      findPath t str (rows h) = none ∧ Created t t' rows h m := by
  have hh := hash_lt hok
  have hlinked := wf.linked h hh
  have hlen := wf.length_lt hh
  have happend := wf.appendNew_eq rand hh hidle
  have hup := upWrite_lockRow hidle
  have hfirst := lockRow_firstIx (t := t) (h := h) ⟨0, 1, true⟩ h
  unfold strictCreateMbucket
  rw [bind_of_ok (hashRow_eq hok), bind_of_ok (downWrite_eq hidle), run_get_bind]
  rw [hfirst, lockRow_mb]
  cases hrow : rows h with
  | nil =>
      rw [hrow] at hlinked happend
      have hnil : (t.row h).firstIx = -1 := hlinked
      rw [run_ite, if_pos hnil]
      rcases happend with ⟨hrun, hfull⟩ | ⟨m, t', hrun, hcreated⟩
      · exact Or.inl ⟨hrun, Or.inr hfull⟩
      · exact Or.inr ⟨m, t', hrun, rfl, hcreated⟩
  | cons a l =>
      rw [hrow] at hlinked hlen happend
      have ha : (t.row h).firstIx = a := hlinked.1
      have hne : (t.row h).firstIx ≠ -1 := by rw [ha]; exact hlinked.2.1
      rw [run_ite, if_neg hne]
      by_cases hone : (t.mb (t.row h).firstIx).nextIx = -1 ∧
          samePath str (t.mb (t.row h).firstIx).path
      · refine Or.inl ⟨?_, Or.inl ?_⟩
        · rw [run_ite, if_pos hone, bind_of_ok hup]
          rfl
        · rw [ha] at hone
          simp [findPath, hone.2]
      · obtain ⟨b, hloop, hlast⟩ := rowEndLoop_eq (t := t.lockRow h ⟨0, 1, true⟩)
          hlinked hlen
        rw [run_ite, if_neg hone, bind_of_ok hloop]
        change _ ∨ ∃ m t', _ ∧ findPath t str (a :: l) = none ∧ _
        cases hfind : findPath (t.lockRow h ⟨0, 1, true⟩) str (a :: l) with
        | some m =>
            refine Or.inl ⟨?_, Or.inl ?_⟩
            · change (upWrite h >>= fun _ => pure none) _ = _
              rw [bind_of_ok hup]
              rfl
            · change (findPath (t.lockRow h ⟨0, 1, true⟩) str (a :: l)).isSome
              rw [hfind]
              rfl
        | none =>
            rw [hlast hfind] at happend
            rcases happend with ⟨hrun, hfull⟩ | ⟨m, t', hrun, hcreated⟩
            · exact Or.inl ⟨hrun, Or.inr hfull⟩
            · exact Or.inr ⟨m, t', hrun, hfind, hcreated⟩

end Spacefish
