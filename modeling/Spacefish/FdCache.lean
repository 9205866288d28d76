import Spacefish.Fd
import Spacefish.DataWf

/-!
The offset cache of a descriptor and the chain it speaks about, and what the
calls on a descriptor may change in the table of descriptors.
-/

namespace Spacefish

/-- The number of links `pread` and `pwrite` follow for an offset, an `int`. -/
def hops (offset : Int) : Nat := (toInt (offset.tdiv dbucketBufSize)).toNat

/-- The bucket the walk to an offset ends at on the chain `l`, if it gets
there; the end marker when the chain ends right before it. -/
def placeOf (l : List Nat) (offset : Int) : Option Nat :=
  if hops offset ≤ l.length then some ((l.drop (hops offset)).head?.getD noIx) else none

/-- Every entry of the cache for an offset that is not negative agrees with the
chain. -/
def CacheOk (f : FdInfo) (l : List Nat) : Prop :=
  ∀ j < offsetProcessCacheSize, 0 ≤ (f.offDbMapping j).offset →
    (f.offDbMapping j).dbindex ≠ noIx →
    l[hops (f.offDbMapping j).offset]? = some (f.offDbMapping j).dbindex

variable {w w' : World} {env : Env} {offset : Int} {i type : Nat} {l : List Nat} {f f' : FdInfo}
  {fds fds' fds'' : Nat → FdInfo}

theorem cacheLookup_eq (f : FdInfo) (offset : Int) :
    cacheLookup f offset =
      if (f.offDbMapping 0).offset = offset then (f.offDbMapping 0).dbindex else noIx := by
  simp [cacheLookup, offsetProcessCacheSize, List.range_succ]

theorem CacheOk.lookup (hc : CacheOk f l) (hoff : 0 ≤ offset) (hne : cacheLookup f offset ≠ noIx) :
    l[hops offset]? = some (cacheLookup f offset) := by
  rw [cacheLookup_eq] at hne ⊢
  split at hne
  · next heq =>
    rw [if_pos heq]
    have := hc 0 (by decide) (heq ▸ hoff) hne
    rwa [heq] at this
  · exact absurd rfl hne

theorem placeOf_of_getElem {ix : Nat} (h : l[hops offset]? = some ix) :
    placeOf l offset = some ix := by
  obtain ⟨hlt, _⟩ := List.getElem?_eq_some_iff.mp h
  rw [placeOf, if_pos (Nat.le_of_lt hlt), List.head?_drop, h]
  rfl

theorem getElem_of_placeOf {ix : Nat} (h : placeOf l offset = some ix) (hne : ix ≠ noIx) :
    l[hops offset]? = some ix := by
  unfold placeOf at h
  split at h
  · have hix := Option.some.inj h
    rw [List.head?_drop] at hix
    cases hget : l[hops offset]? with
    | none =>
        rw [hget] at hix
        exact absurd hix.symm hne
    | some b =>
        rw [hget] at hix
        rw [show b = ix from hix]
  · cases h

theorem CacheOk.fill {ix : Nat} (hptr : f.offDbPtr = 0)
    (hplace : 0 ≤ offset → placeOf l offset = some ix) : CacheOk (cacheFill offset ix f) l := by
  intro j hj hpos hne
  obtain rfl : j = 0 := by
    unfold offsetProcessCacheSize at hj
    omega
  simp only [cacheFill, hptr, Function.update_self] at hpos hne ⊢
  exact getElem_of_placeOf (hplace hpos) hne

/-- A chain that grows at its end keeps the cache. -/
theorem CacheOk.append {new : List Nat} (hc : CacheOk f l) : CacheOk f (l ++ new) := by
  intro j hj hpos hne
  have h := hc j hj hpos hne
  obtain ⟨hlt, _⟩ := List.getElem?_eq_some_iff.mp h
  rw [List.getElem?_append_left hlt]
  exact h

theorem placeOf_some {ix : Nat} (h : placeOf l offset = some ix) :
    (hops offset = l.length ∧ ix = noIx) ∨
      ∃ pre l', l = pre ++ ix :: l' ∧ pre.length = hops offset := by
  unfold placeOf at h
  split at h
  · next hle =>
    have hix := Option.some.inj h
    rcases Nat.lt_or_eq_of_le hle with hlt | heq
    · refine Or.inr ⟨l.take (hops offset), l.drop (hops offset + 1), ?_, by simp; omega⟩
      rw [List.head?_drop, List.getElem?_eq_getElem hlt, Option.getD_some] at hix
      rw [← hix, List.getElem_cons_drop, List.take_append_drop]
    · rw [List.drop_of_length_le (Nat.le_of_eq heq.symm)] at hix
      exact Or.inl ⟨heq, hix.symm⟩
  · cases h

/-! Changes of the descriptor table by the calls on one descriptor. -/

/-- `f'` is `f` after a call on a file with chain `l`: the time stamps may
differ, and the cache may have been filled with the place of an offset. -/
structure SlotNext (l : List Nat) (f f' : FdInfo) : Prop where
  empty : f'.empty = f.empty
  exclusive : f'.exclusive = f.exclusive
  mindex : f'.mindex = f.mindex
  cache : (f'.offDbMapping = f.offDbMapping ∧ f'.offDbPtr = f.offDbPtr) ∨
    ∃ offset ix, placeOf l offset = some ix ∧
      f'.offDbMapping = (cacheFill offset ix f).offDbMapping ∧
      f'.offDbPtr = (cacheFill offset ix f).offDbPtr

/-- Only entry `i` of the table changes, as a call may change it. -/
structure FdNext (l : List Nat) (i : Nat) (fds fds' : Nat → FdInfo) : Prop where
  self : SlotNext l (fds i) (fds' i)
  other : ∀ j ≠ i, fds' j = fds j

theorem SlotNext.refl (l : List Nat) (f : FdInfo) : SlotNext l f f :=
  ⟨rfl, rfl, rfl, Or.inl ⟨rfl, rfl⟩⟩

theorem SlotNext.stamp (hf : SlotNext l f f') : SlotNext l f (deferStamp env type f') :=
  ⟨hf.empty, hf.exclusive, hf.mindex, hf.cache⟩

theorem FdNext.refl (l : List Nat) (i : Nat) (fds : Nat → FdInfo) : FdNext l i fds fds :=
  ⟨.refl _ _, fun _ _ => rfl⟩

theorem FdNext.stamp (hf : FdNext l i fds w.fdTable) :
    FdNext l i fds (w.setFd i (deferStamp env type)).fdTable := by
  refine ⟨?_, fun j hj => ?_⟩
  · simpa [World.setFd] using hf.self.stamp
  · rw [← hf.other j hj]
    simp [World.setFd, hj]

theorem FdNext.fill {ix : Nat} (hplace : placeOf l offset = some ix) :
    FdNext l i w.fdTable (w.setFd i (cacheFill offset ix)).fdTable := by
  have hself : (w.setFd i (cacheFill offset ix)).fdTable i = cacheFill offset ix (w.fdTable i) := by
    simp [World.setFd]
  refine ⟨?_, fun j hj => by simp [World.setFd, hj]⟩
  rw [hself]
  exact ⟨rfl, rfl, rfl, Or.inr ⟨offset, ix, hplace, rfl, rfl⟩⟩

theorem SlotNext.cacheOk (hf : SlotNext l f f') (hptr : f.offDbPtr = 0) (hc : CacheOk f l) :
    CacheOk f' l ∧ f'.offDbPtr = 0 := by
  rcases hf.cache with ⟨hmap, hptr'⟩ | ⟨offset, ix, hplace, hmap, hptr'⟩
  · refine ⟨?_, hptr'.trans hptr⟩
    simpa [CacheOk, hmap] using hc
  · refine ⟨?_, ?_⟩
    · have hfill := CacheOk.fill (f := f) (l := l) hptr (fun _ => hplace)
      simpa [CacheOk, hmap] using hfill
    · rw [hptr']
      simp [cacheFill, offsetProcessCacheSize, Nat.mod_one]

end Spacefish
