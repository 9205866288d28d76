import Spacefish.CreateSteps
import Spacefish.RowPaths
import Spacefish.TableRun

/-!
The names of the buckets while processes make files. A bucket is in its row before its
path is stored; what it is made for is its name all the same. A step edits a bucket
in place, stores the path of a new bucket, or makes one, whose name is then new if no
bucket of the row carries it and nobody holds a bucket of that name without its path.
-/

namespace Spacefish

open Interleaving Program

/-- The bucket that a process has made and not yet stored the path of. -/
def OpenPc.unnamed : OpenPc → Option (Path × Int)
  | .first p mb => some (p, mb)
  | .fields p mb => some (p, mb)
  | .name p mb => some (p, mb)
  | .read p _ mb => some (p, mb)
  | _ => none

/-- The buckets have different names and stand in the rows of their names. `un` says
which buckets the processes have not named yet; what stands in their paths is left from
earlier files. -/
structure NamesWf {ι : Type*} (t : MetaShm) (rows : Nat → List Int) (name : Int → Path)
    (un : ι → Option (Path × Int)) : Prop where
  wf : TableWf t rows
  idle : ∀ h, RowIdle t h
  row : ∀ m, (t.mb m).inUse = true → ∃ h, hash (name m) = .ok h ∧ m ∈ rows h
  inj : ∀ m m', (t.mb m).inUse = true → (t.mb m').inUse = true → name m = name m' → m = m'
  stored : ∀ m, (t.mb m).inUse = true → (∀ i p, un i ≠ some (p, m)) → (t.mb m).path = name m
  holds : ∀ i p m, un i = some (p, m) → (t.mb m).inUse = true ∧ name m = p

section

variable {ι : Type*} {t t' : MetaShm} {rows : Nat → List Int} {name : Int → Path}
  {un : ι → Option (Path × Int)} {h : Nat} {p : Path} {m : Int} {i : ι} {dirty : Bool}

/-- A table at rest, with nothing under way. -/
theorem NamesWf.of_map (hmap : MapWf t rows) :
    NamesWf t rows (fun m => (t.mb m).path) (fun _ : ι => none) := by
  obtain ⟨wf, named, idle⟩ := hmap
  refine ⟨wf, idle, fun m huse => ?_, named.unique, fun _ _ _ => rfl, fun i p m hun => ?_⟩
  · obtain ⟨h, hh, hmem⟩ := (wf.inUse_iff m).mp huse
    exact ⟨h, named.hashed h hh m hmem, hmem⟩
  · cases hun

theorem NamesWf.touch (hn : NamesWf t rows name un)
    (he : Touched t t' m (t.mb m).path dirty) : NamesWf t' rows name un := by
  have hpath : ∀ a, (t'.mb a).path = (t.mb a).path := he.path_eq
  refine ⟨he.tableWf hn.wf, fun h => ?_, fun a ha => ?_, fun a b ha hb => ?_, fun a ha hun => ?_,
    fun i p a hun => ?_⟩
  · rw [RowIdle, he.row]
    exact hn.idle h
  · exact hn.row a (he.inUse_eq a ▸ ha)
  · exact hn.inj a b (he.inUse_eq a ▸ ha) (he.inUse_eq b ▸ hb)
  · rw [hpath]
    exact hn.stored a (he.inUse_eq a ▸ ha) hun
  · rw [he.inUse_eq]
    exact hn.holds i p a hun

/-- Nobody has the name: the row does not show it, and nobody holds an unnamed bucket
for it. -/
theorem NamesWf.absent (hn : NamesWf t rows name un) (hok : hash p = .ok h)
    (hnone : findPath t p (rows h) = none) (hrival : ∀ j m, un j ≠ some (p, m)) :
    ∀ a, (t.mb a).inUse = true → name a ≠ p := by
  rintro a ha rfl
  obtain ⟨h', hok', hmem⟩ := hn.row a ha
  rw [hok] at hok'
  cases hok'
  by_cases hun : ∃ j q, un j = some (q, a)
  · obtain ⟨j, q, hj⟩ := hun
    obtain rfl := (hn.holds j q a hj).2
    exact hrival j a hj
  · have hpath := hn.stored a ha (fun j q hj => hun ⟨j, q, hj⟩)
    have hdiff := findPath_eq_none.mp hnone a hmem
    rw [hpath, samePath, beq_self_eq_true] at hdiff
    cases hdiff

variable [DecidableEq ι]

/-- The path of a new bucket is stored. -/
theorem NamesWf.store (hn : NamesWf t rows name un) (he : Touched t t' m p dirty)
    (hun : un i = some (p, m)) : NamesWf t' rows name (Function.update un i none) := by
  obtain ⟨huse, hname⟩ := hn.holds i p m hun
  refine ⟨he.tableWf hn.wf, fun h => ?_, fun a ha => ?_, fun a b ha hb => ?_, fun a ha hno => ?_,
    fun j q a hj => ?_⟩
  · rw [RowIdle, he.row]
    exact hn.idle h
  · exact hn.row a (he.inUse_eq a ▸ ha)
  · exact hn.inj a b (he.inUse_eq a ▸ ha) (he.inUse_eq b ▸ hb)
  · by_cases ham : a = m
    · rw [ham, he.path, hname]
    · rw [he.other a ham]
      refine hn.stored a (he.inUse_eq a ▸ ha) (fun j q hj => ?_)
      by_cases hji : j = i
      · rw [hji, hun] at hj
        cases hj
        exact ham rfl
      · exact hno j q (by rw [Function.update_of_ne hji]; exact hj)
  · rw [he.inUse_eq]
    by_cases hji : j = i
    · rw [hji, Function.update_self] at hj
      cases hj
    · rw [Function.update_of_ne hji] at hj
      exact hn.holds j q a hj

/-- A bucket is made for a name that nobody has. -/
theorem NamesWf.make (hn : NamesWf t rows name un) (hc : Created t t' rows h m)
    (hok : hash p = .ok h) (habsent : ∀ a, (t.mb a).inUse = true → name a ≠ p)
    (hun : un i = none) :
    NamesWf t' (Function.update rows h (rows h ++ [m])) (Function.update name m p)
      (Function.update un i (some (p, m))) := by
  have hnew : (t'.mb m).inUse = true := by rw [hc.new.inUse]
  have hold : ∀ a ≠ m, (t'.mb a).inUse = true → (t.mb a).inUse = true :=
    fun a ha huse => (hc.same a ha).inUse ▸ huse
  have hfresh : ∀ {a}, (t.mb a).inUse = true → a ≠ m := by
    rintro a ha rfl
    rw [hc.fresh] at ha
    cases ha
  refine ⟨hc.wf, fun h' => ?_, fun a ha => ?_, fun a b ha hb hab => ?_, fun a ha hno => ?_,
    fun j q a hj => ?_⟩
  · exact (hc.locks h').trans (hn.idle h')
  · by_cases ham : a = m
    · subst ham
      rw [Function.update_self]
      exact ⟨h, hok, mem_created.mpr (Or.inl ⟨rfl, Or.inr rfl⟩)⟩
    · rw [Function.update_of_ne ham]
      obtain ⟨h', hok', hmem⟩ := hn.row a (hold a ham ha)
      refine ⟨h', hok', mem_created.mpr ?_⟩
      by_cases hh : h' = h
      · subst hh
        exact Or.inl ⟨rfl, Or.inl hmem⟩
      · exact Or.inr ⟨hh, hmem⟩
  · by_cases ham : a = m <;> by_cases hbm : b = m
    · rw [ham, hbm]
    · rw [ham, Function.update_self, Function.update_of_ne hbm] at hab
      exact absurd hab.symm (habsent b (hold b hbm hb))
    · rw [hbm, Function.update_self, Function.update_of_ne ham] at hab
      exact absurd hab (habsent a (hold a ham ha))
    · rw [Function.update_of_ne ham, Function.update_of_ne hbm] at hab
      exact hn.inj a b (hold a ham ha) (hold b hbm hb) hab
  · by_cases ham : a = m
    · subst ham
      exact absurd (Function.update_self ..) (hno i p)
    · rw [(hc.same a ham).path, Function.update_of_ne ham]
      refine hn.stored a (hold a ham ha) (fun j q hj => ?_)
      by_cases hji : j = i
      · rw [hji, hun] at hj
        cases hj
      · exact hno j q (by rw [Function.update_of_ne hji]; exact hj)
  · by_cases hji : j = i
    · rw [hji, Function.update_self] at hj
      cases hj
      exact ⟨hnew, Function.update_self ..⟩
    · rw [Function.update_of_ne hji] at hj
      obtain ⟨huse, hname⟩ := hn.holds j q a hj
      have ham := hfresh huse
      rw [(hc.same a ham).inUse, Function.update_of_ne ham]
      exact ⟨huse, hname⟩

end

end Spacefish
