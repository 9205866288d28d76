import Mathlib.Logic.Relation
import Spacefish.TableMove

/-!
The metadata table as a finite map from paths to bucket indices. `pathMap`
reads the map off the buckets in use; on the tables that the four operations
reach from the initial one, every bucket in use stands on exactly one row, the
row of its path, and no path occurs twice, so that each operation on the rows
is the corresponding operation on the map.
-/

namespace Spacefish

open LinkedArray Program

/-- C strings of 7-bit bytes that fit the `path` field. -/
def GoodPath (p : Path) : Prop :=
  p.length < pathMax ∧ ∀ c ∈ p, 1 ≤ c.toNat ∧ c.toNat ≤ 127

instance (p : Path) : Decidable (GoodPath p) := inferInstanceAs (Decidable (_ ∧ _))

/-- The map that the buckets in use represent. -/
def pathMap (t : MetaShm) (p : Path) : Option Int :=
  ((List.range metaBuckets).map Int.ofNat).find?
    (fun m => (t.mb m).inUse && decide ((t.mb m).path = p))

/-- The paths stored in the buckets of the rows. -/
structure Named (t : MetaShm) (rows : Nat → List Int) : Prop where
  hashed : ∀ h < hashTableSize, ∀ m ∈ rows h, hash (t.mb m).path = .ok h
  short : ∀ m, (t.mb m).inUse = true → (t.mb m).path.length < pathMax
  unique : ∀ m m', (t.mb m).inUse = true → (t.mb m').inUse = true →
    (t.mb m).path = (t.mb m').path → m = m'

variable {t t' : MetaShm} {rows rows' : Nat → List Int} {h : Nat} {p str : Path} {m m' : Int}

theorem hash_ok (hp : GoodPath p) : ∃ h, hash p = .ok h := by
  have hbytes : ∀ n, ∃ h, hashFrom n p = .ok h := by
    have hlt := hp.2
    clear hp
    induction p with
    | nil => exact fun n => ⟨_, rfl⟩
    | cons c rest ih =>
        intro n
        obtain ⟨k, hk⟩ := ih (fun b hb => hlt b (by simp [hb])) (hashStep n c)
        have hc := hlt c (by simp)
        exact ⟨k, by rw [hashFrom, if_pos (by omega), hk]⟩
  exact hbytes 5381

theorem samePath_iff {a b : Path} (ha : a.length < pathMax) (hb : b.length < pathMax) :
    samePath a b = true ↔ a = b := by
  rw [samePath, List.take_of_length_le (by omega), List.take_of_length_le (by omega), beq_iff_eq]

/-- The search of a row finds exactly the bucket in use that has the path. -/
theorem findPath_iff (wf : TableWf t rows) (named : Named t rows) (hok : hash p = .ok h)
    (hp : p.length < pathMax) :
    findPath t p (rows h) = some m ↔ (t.mb m).inUse = true ∧ (t.mb m).path = p := by
  have hh := hash_lt hok
  have hon : ∀ a ∈ rows h, (t.mb a).inUse = true :=
    fun a ha => (wf.inUse_iff a).mpr ⟨h, hh, ha⟩
  have hsame : ∀ a ∈ rows h, (samePath p (t.mb a).path = true ↔ p = (t.mb a).path) :=
    fun a ha => samePath_iff hp (named.short a (hon a ha))
  constructor
  · intro hfind
    have hmem := List.mem_of_find?_eq_some hfind
    have hm : samePath p (t.mb m).path = true := List.find?_some (p := fun a =>
      samePath p (t.mb a).path) hfind
    exact ⟨hon m hmem, ((hsame m hmem).mp hm).symm⟩
  · rintro ⟨huse, hpath⟩
    obtain ⟨h', hh', hmem⟩ := (wf.inUse_iff m).mp huse
    have hrow := named.hashed h' hh' m hmem
    rw [hpath, hok] at hrow
    obtain rfl : h = h' := Except.ok.inj hrow
    cases hfind : findPath t p (rows h) with
    | none =>
        have hno := List.find?_eq_none.mp hfind m hmem
        exact absurd ((hsame m hmem).mpr hpath.symm) hno
    | some a =>
        have hmem' := List.mem_of_find?_eq_some hfind
        have ha : samePath p (t.mb a).path = true := List.find?_some (p := fun a =>
          samePath p (t.mb a).path) hfind
        have hpa := (hsame a hmem').mp ha
        rw [named.unique a m (hon a hmem') huse (hpa.symm.trans hpath.symm)]

theorem pathMap_iff (wf : TableWf t rows) (named : Named t rows) :
    pathMap t p = some m ↔ (t.mb m).inUse = true ∧ (t.mb m).path = p := by
  constructor
  · intro hfind
    simpa using List.find?_some (p := fun a => (t.mb a).inUse && decide ((t.mb a).path = p)) hfind
  · rintro ⟨huse, hpath⟩
    obtain ⟨h, hh, hmem⟩ := (wf.inUse_iff m).mp huse
    have hbound := wf.bound h hh m hmem
    cases hfind : pathMap t p with
    | none =>
        have hno := List.find?_eq_none.mp hfind m
          (List.mem_map.mpr ⟨m.toNat, List.mem_range.mpr (by omega), by simp; omega⟩)
        simp [huse, hpath] at hno
    | some a =>
        have ha : (t.mb a).inUse = true ∧ (t.mb a).path = p := by
          simpa using List.find?_some
            (p := fun a => (t.mb a).inUse && decide ((t.mb a).path = p)) hfind
        rw [named.unique a m ha.1 huse (ha.2.trans hpath.symm)]

theorem findPath_eq_pathMap (wf : TableWf t rows) (named : Named t rows) (hok : hash p = .ok h)
    (hp : p.length < pathMax) : findPath t p (rows h) = pathMap t p := by
  apply Option.ext
  intro m
  rw [findPath_iff wf named hok hp, pathMap_iff wf named]

/-- A bucket in use may change in everything but its mark, its link and its
lock. -/
theorem TableWf.setMb (wf : TableWf t rows) {f : MetaBucket → MetaBucket}
    (huse : (t.mb m).inUse = true) (hf : (f (t.mb m)).inUse = true)
    (hnext : (f (t.mb m)).nextIx = (t.mb m).nextIx) (hlock : (f (t.mb m)).lock = (t.mb m).lock) :
    TableWf (t.setMb m f) rows := by
  have hsame : ∀ a, (t.setMb m f).next a = t.next a ∧
      ((t.setMb m f).mb a).inUse = (t.mb a).inUse ∧
      ((t.setMb m f).mb a).lock = (t.mb a).lock := by
    intro a
    by_cases ha : a = m
    · subst ha
      rw [MetaShm.next, setMb_mb_self]
      exact ⟨hnext, hf.trans huse.symm, hlock⟩
    · rw [MetaShm.next, setMb_mb_of_ne _ ha]
      exact ⟨rfl, rfl, rfl⟩
  refine ⟨wf.toRowsWf.congr (fun _ _ => rfl) (fun _ _ a _ => (hsame a).1), ?_, ?_,
    wf.rowLock, ?_⟩
  · intro a
    rw [(hsame a).2.1]
    exact wf.inUse_iff a
  · intro a hfree
    rw [(hsame a).2.1] at hfree
    have ha : a ≠ m := by
      rintro rfl
      rw [huse] at hfree
      cases hfree
    rw [(hsame a).1, setMb_mb_of_ne _ ha]
    exact wf.free a hfree
  · intro a
    rw [(hsame a).2.2]
    exact wf.mbUnlocked a

/-! The operations on the map. -/

/-- `strict_create_mbucket` and the store to `mb->path` behind it. -/
def createMbucket (rand : Nat) (str : Path) : Op MetaShm (Option Int) := do
  match ← strictCreateMbucket rand str with
  | none => return none
  | some mb =>
      let path ← inPathBuffer str
      modify (·.setMb mb (fun b => { b with path := path }))
      return some mb

theorem mem_created {l : List Int} {a : Int} {h' : Nat} :
    a ∈ Function.update rows h (l ++ [m]) h' ↔
      (h' = h ∧ (a ∈ l ∨ a = m)) ∨ (h' ≠ h ∧ a ∈ rows h') := by
  by_cases heq : h' = h
  · subst heq
    simp
  · simp [heq]

/-- A created bucket that has been given its path. -/
theorem Created.named (hc : Created t t' rows h m) (wf : TableWf t rows) (named : Named t rows)
    (hok : hash p = .ok h) (hp : p.length < pathMax)
    (hnone : ∀ a, (t.mb a).inUse = true → (t.mb a).path ≠ p) :
    TableWf (t'.setMb m (fun b => { b with path := p })) (Function.update rows h (rows h ++ [m])) ∧
      Named (t'.setMb m (fun b => { b with path := p }))
        (Function.update rows h (rows h ++ [m])) := by
  have huse : (t'.mb m).inUse = true := by rw [hc.new.inUse]
  have hpath : ∀ a ≠ m, ((t'.setMb m (fun b => { b with path := p })).mb a).path =
      (t.mb a).path := by
    intro a ha
    rw [setMb_mb_of_ne _ ha, (hc.same a ha).path]
  have huse_iff : ∀ a ≠ m, ((t'.setMb m (fun b => { b with path := p })).mb a).inUse =
      (t.mb a).inUse := by
    intro a ha
    rw [setMb_mb_of_ne _ ha, (hc.same a ha).inUse]
  have hnew : ((t'.setMb m (fun b => { b with path := p })).mb m).path = p := by simp
  refine ⟨hc.wf.setMb huse huse rfl rfl, ?_, ?_, ?_⟩
  · intro h' hh' a ha
    by_cases ham : a = m
    · subst ham
      rw [hnew, hok]
      rcases mem_created.mp ha with ⟨rfl, _⟩ | ⟨_, ha'⟩
      · rfl
      · exact absurd ha' (wf.not_mem hc.fresh h' hh')
    · rw [hpath a ham]
      rcases mem_created.mp ha with ⟨rfl, ha' | ha'⟩ | ⟨_, ha'⟩
      · exact named.hashed h' hh' a ha'
      · exact absurd ha' ham
      · exact named.hashed h' hh' a ha'
  · intro a hu
    by_cases ham : a = m
    · subst ham
      rw [hnew]
      exact hp
    · rw [huse_iff a ham] at hu
      rw [hpath a ham]
      exact named.short a hu
  · intro a b ha hb hab
    by_cases ham : a = m <;> by_cases hbm : b = m
    · rw [ham, hbm]
    · subst ham
      rw [huse_iff b hbm] at hb
      rw [hnew, hpath b hbm] at hab
      exact absurd hab.symm (hnone b hb)
    · subst hbm
      rw [huse_iff a ham] at ha
      rw [hnew, hpath a ham] at hab
      exact absurd hab (hnone a ha)
    · rw [huse_iff a ham] at ha
      rw [huse_iff b hbm] at hb
      rw [hpath a ham, hpath b hbm] at hab
      exact named.unique a b ha hb hab

theorem Released.named (hr : Released t t' rows rows' m) (named : Named t rows) :
    Named t' rows' := by
  have hgone : (t'.mb m).inUse = false := by
    rw [hr.gone]
    rfl
  have hne : ∀ a, (t'.mb a).inUse = true → a ≠ m := by
    rintro a ha rfl
    rw [hgone] at ha
    cases ha
  refine ⟨?_, ?_, ?_⟩
  · intro h hh a ha
    obtain ⟨ham, ha⟩ := (hr.mem_iff h hh a).mp ha
    rw [(hr.same a ham).path]
    exact named.hashed h hh a ha
  · intro a ha
    have ham := hne a ha
    rw [(hr.same a ham).inUse] at ha
    rw [(hr.same a ham).path]
    exact named.short a ha
  · intro a b ha hb hab
    have ham := hne a ha
    have hbm := hne b hb
    rw [(hr.same a ham).inUse] at ha
    rw [(hr.same b hbm).inUse] at hb
    rw [(hr.same a ham).path, (hr.same b hbm).path] at hab
    exact named.unique a b ha hb hab

theorem Renamed.named {hn : Nat} {lost : Option Int} (hr : Renamed t t' rows rows' hn m lost p)
    (named : Named t rows) (hok : hash p = .ok hn) (hp : p.length < pathMax)
    (hover : ∀ a, (t.mb a).inUse = true → (t.mb a).path = p → lost = some a) :
    Named t' rows' := by
  have hpath : (t'.mb m).path = p := by
    rw [hr.moved.path]
    exact List.take_of_length_le (by omega)
  have hother : ∀ a ≠ m, (t'.mb a).inUse = true → lost ≠ some a := by
    intro a ham ha hao
    rw [hr.gone a hao] at ha
    simp [MetaBucket.released] at ha
  refine ⟨?_, ?_, ?_⟩
  · intro h hh a ha
    rcases (hr.mem_iff h hh a).mp ha with ⟨rfl, rfl⟩ | ⟨ham, hao, ha⟩
    · rw [hpath, hok]
    · rw [(hr.same a ham hao).path]
      exact named.hashed h hh a ha
  · intro a ha
    by_cases ham : a = m
    · rw [ham, hpath]
      exact hp
    · have hs := hr.same a ham (hother a ham ha)
      rw [hs.inUse] at ha
      rw [hs.path]
      exact named.short a ha
  · intro a b ha hb hab
    by_cases ham : a = m <;> by_cases hbm : b = m
    · rw [ham, hbm]
    · have hs := hr.same b hbm (hother b hbm hb)
      rw [ham, hpath, hs.path] at hab
      exact absurd (hover b (hs.inUse ▸ hb) hab.symm) (hother b hbm hb)
    · have hs := hr.same a ham (hother a ham ha)
      rw [hbm, hpath, hs.path] at hab
      exact absurd (hover a (hs.inUse ▸ ha) hab) (hother a ham ha)
    · have hsa := hr.same a ham (hother a ham ha)
      have hsb := hr.same b hbm (hother b hbm hb)
      rw [hsa.inUse] at ha
      rw [hsb.inUse] at hb
      rw [hsa.path, hsb.path] at hab
      exact named.unique a b ha hb hab

end Spacefish
