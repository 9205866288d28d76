import Spacefish.TablePaths

/-!
The paths that stand in one row. When uploads are complete and the data buckets
are not exhausted, no two buckets of a row carry one path: a new bucket gets a
path that the row does not have, and a rename takes the place of the bucket that
had the new path.
-/

namespace Spacefish

open LinkedArray Program

/-- No two buckets of a row carry one path. -/
def RowsDistinct (t : MetaShm) (rows : Nat → List Int) : Prop :=
  ∀ h < hashTableSize, ∀ a ∈ rows h, ∀ b ∈ rows h,
    samePath (t.mb a).path (t.mb b).path = true → a = b

variable {w : World} {rows rows' : Nat → List Int} {env : Env} {call : Call} {out : Out}
  {t t' : MetaShm} {p q : Path} {m : Int} {h : Nat}

theorem samePath_iff_take {p q : Path} : samePath p q = true ↔ p.take pathMax = q.take pathMax := by
  rw [samePath, beq_iff_eq]

theorem Touched.path_eq {dirty : Bool} (he : Touched t t' m (t.mb m).path dirty) (a : Int) :
    (t'.mb a).path = (t.mb a).path := by
  by_cases ha : a = m
  · rw [ha, he.path]
  · rw [he.other a ha]

theorem findPath_eq_none : findPath t p (rows h) = none ↔
    ∀ a ∈ rows h, samePath p (t.mb a).path = false := by
  rw [findPath, List.find?_eq_none]
  simp

theorem RowsDistinct.congr (hd : RowsDistinct t rows)
    (hpath : ∀ a, (t'.mb a).path = (t.mb a).path) : RowsDistinct t' rows := by
  intro h hh a ha b hb hab
  rw [hpath, hpath] at hab
  exact hd h hh a ha b hb hab

/-- The bucket of a path, when there is one, is the only one of its row. -/
theorem RowsDistinct.findPath_eq (hd : RowsDistinct t rows) (hh : h < hashTableSize)
    (hm : m ∈ rows h) (hname : samePath p (t.mb m).path = true) :
    findPath t p (rows h) = some m := by
  cases hfind : findPath t p (rows h) with
  | none =>
      rw [findPath_eq_none.mp hfind m hm] at hname
      cases hname
  | some a =>
      have ha := findPath_same hfind
      rw [samePath_iff_take] at ha hname
      rw [hd h hh a (List.mem_of_find?_eq_some hfind) m hm (samePath_iff_take.mpr (ha ▸ hname))]

/-- A new bucket that has been given its path. -/
theorem Made.rowsDistinct {dirty : Bool} (wf : TableWf t rows) (hd : RowsDistinct t rows)
    (hm : Made t rows p h m p dirty t') :
    RowsDistinct t' (Function.update rows h (rows h ++ [m])) := by
  obtain ⟨t₁, hc, he⟩ := hm.made
  have hnone := findPath_eq_none.mp hm.absent
  have hpath : ∀ a ≠ m, (t'.mb a).path = (t.mb a).path :=
    fun a ha => by rw [he.other a ha, (hc.same a ha).path]
  have hnew : ∀ h' < hashTableSize, ∀ a, a ∈ Function.update rows h (rows h ++ [m]) h' → a ≠ m →
      a ∈ rows h' := by
    intro h' hh' a ha ham
    rcases mem_created.mp ha with ⟨rfl, ha' | ha'⟩ | ⟨_, ha'⟩
    · exact ha'
    · exact absurd ha' ham
    · exact ha'
  have hrow : ∀ h' < hashTableSize, m ∈ Function.update rows h (rows h ++ [m]) h' → h' = h := by
    intro h' hh' hmem
    rcases mem_created.mp hmem with ⟨rfl, _⟩ | ⟨_, hmem⟩
    · rfl
    · exact absurd hmem (wf.not_mem hc.fresh h' hh')
  intro h' hh' a ha b hb hab
  by_cases ham : a = m <;> by_cases hbm : b = m
  · rw [ham, hbm]
  · subst ham
    obtain rfl := hrow h' hh' ha
    rw [he.path, hpath b hbm, hnone b (hnew h' hh' b hb hbm)] at hab
    cases hab
  · subst hbm
    obtain rfl := hrow h' hh' hb
    have hba := samePath_iff_take.mpr (samePath_iff_take.mp hab).symm
    rw [he.path, hpath a ham, hnone a (hnew h' hh' a ha ham)] at hba
    cases hba
  · rw [hpath a ham, hpath b hbm] at hab
    exact hd h' hh' a (hnew h' hh' a ha ham) b (hnew h' hh' b hb hbm) hab

theorem Released.rowsDistinct (hr : Released t t' rows rows' m) (hd : RowsDistinct t rows) :
    RowsDistinct t' rows' := by
  intro h hh a ha b hb hab
  obtain ⟨ham, ha⟩ := (hr.mem_iff h hh a).mp ha
  obtain ⟨hbm, hb⟩ := (hr.mem_iff h hh b).mp hb
  rw [(hr.same a ham).path, (hr.same b hbm).path] at hab
  exact hd h hh a ha b hb hab

theorem Renamed.rowsDistinct {hn : Nat} (hr : Renamed t t' rows rows' hn m
    (findPath t q (rows hn)) q) (hd : RowsDistinct t rows) : RowsDistinct t' rows' := by
  -- every other bucket left in the new row carries another path than `q`
  have hother : ∀ h < hashTableSize, ∀ a ∈ rows' h, a ≠ m → h = hn →
      samePath q (t.mb a).path = false := by
    intro h hh a ha ham heq
    subst heq
    obtain ⟨_, hao, ha⟩ : a ≠ m ∧ findPath t q (rows h) ≠ some a ∧ a ∈ rows h := by
      rcases (hr.mem_iff h hh a).mp ha with ⟨rfl, _⟩ | hrest
      · exact absurd rfl ham
      · exact hrest
    cases hsame : samePath q (t.mb a).path with
    | false => rfl
    | true => exact absurd (hd.findPath_eq hh ha hsame) hao
  have hpath : ∀ h < hashTableSize, ∀ a ∈ rows' h, a ≠ m →
      (t'.mb a).path = (t.mb a).path ∧ a ∈ rows h := by
    intro h hh a ha ham
    rcases (hr.mem_iff h hh a).mp ha with ⟨rfl, _⟩ | ⟨_, hao, ha⟩
    · exact absurd rfl ham
    · exact ⟨(hr.same a ham hao).path, ha⟩
  have hmoved : (t'.mb m).path.take pathMax = q.take pathMax := by
    rw [hr.moved.path]
    simp
  have hrow : ∀ h < hashTableSize, m ∈ rows' h → h = hn := by
    intro h hh hmem
    rcases (hr.mem_iff h hh m).mp hmem with ⟨_, heq⟩ | ⟨hno, _⟩
    · exact heq
    · exact absurd rfl hno
  intro h hh a ha b hb hab
  by_cases ham : a = m <;> by_cases hbm : b = m
  · rw [ham, hbm]
  · subst ham
    rw [samePath_iff_take, hmoved, (hpath h hh b hb hbm).1] at hab
    have hno := hother h hh b hb hbm (hrow h hh ha)
    rw [samePath_iff_take.mpr hab] at hno
    cases hno
  · subst hbm
    rw [samePath_iff_take, hmoved, (hpath h hh a ha ham).1] at hab
    have hno := hother h hh a ha ham (hrow h hh hb)
    rw [samePath_iff_take.mpr hab.symm] at hno
    cases hno
  · rw [(hpath h hh a ha ham).1, (hpath h hh b hb hbm).1] at hab
    exact hd h hh a (hpath h hh a ha ham).2 b (hpath h hh b hb hbm).2 hab

theorem TableEffect.rowsDistinct (wf : TableWf w.table rows)
    (heff : TableEffect w rows env call out t' rows') (hshort : ¬ ShortReads env call)
    (hover : out ≠ .halt (.exit .dataBucketOverUse)) (hd : RowsDistinct w.table rows) :
    RowsDistinct t' rows' := by
  cases heff with
  | keep => exact hd
  | touch he => exact hd.congr he.path_eq
  | make _ hm hq =>
      rcases hq with ⟨rfl, _⟩ | hno | hno
      · exact hm.rowsDistinct wf hd
      · exact absurd hno hshort
      · exact absurd hno hover
  | release _ _ _ _ hr => exact hr.rowsDistinct hd
  | rename _ _ _ _ _ _ _ _ hr he => exact (hr.rowsDistinct hd).congr he.path_eq
  | stuck ho hn => exact hd

end Spacefish
