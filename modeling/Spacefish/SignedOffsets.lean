import Spacefish.PastEnd

/-!
`pread` and `pwrite` at any offset, also a negative one. The marker of an empty
cache entry is the offset -1, so that a call with this offset takes the bucket
that an empty entry still names. The remainder of another negative offset is
negative too, and as an unsigned number it lies far behind every buffer.
-/

namespace Spacefish

open LinkedArray Program Buffer

variable {w w' : World} {rows : Nat → List Int} {ch : Int → List Nat} {env : Env} {m : Nat}
  {fd offset : Int} {buf : List Byte} {d d' : DataShm} {l new : List Nat} {b off c k fuel : Nat}
  {f f' : FdInfo}

/-! Offsets. -/

/-- The remainder of the offset is not negative. -/
def Regular (offset : Int) : Prop := 0 ≤ offset ∨ (dbucketBufSize : Int) ∣ offset

instance (offset : Int) : Decidable (Regular offset) := inferInstanceAs (Decidable (_ ∨ _))

theorem Regular.ne (hreg : Regular offset) : offset ≠ -1 := by
  rintro rfl
  rcases hreg with hpos | ⟨k, hk⟩
  · omega
  · unfold dbucketBufSize at hk
    omega

theorem Regular.toSize_tmod (hreg : Regular offset) :
    toSize (offset.tmod dbucketBufSize) = within offset := by
  rcases hreg with hpos | hdvd
  · exact Spacefish.toSize_tmod hpos
  · rw [Int.tmod_eq_zero_of_dvd hdvd, within, Int.emod_eq_zero_of_dvd hdvd]
    rfl

/-- The position for another offset lies less than a buffer before the end of the
unsigned numbers. -/
theorem irregular_tmod (hreg : ¬ Regular offset) :
    ∃ k, 0 < k ∧ k < dbucketBufSize ∧ toSize (offset.tmod dbucketBufSize) = 2 ^ 64 - k := by
  obtain ⟨hneg, hdvd⟩ := not_or.mp hreg
  have hne : offset.tmod dbucketBufSize ≠ 0 := fun hzero => hdvd (Int.dvd_of_tmod_eq_zero hzero)
  have hlt := Int.tmod_lt_of_pos (-offset) (show (0 : Int) < dbucketBufSize by decide)
  have hsign : (-offset).tmod dbucketBufSize = -offset.tmod dbucketBufSize := Int.neg_tmod ..
  have hnonneg := Int.tmod_nonneg (a := -offset) (dbucketBufSize : Int) (by omega)
  refine ⟨(-offset.tmod dbucketBufSize).toNat, by omega, by omega, ?_⟩
  unfold toSize dbucketBufSize at *
  omega

/-! The cache. -/

/-- Every cache entry but an empty one agrees with the chain. -/
def CacheTrue (f : FdInfo) (l : List Nat) : Prop :=
  ∀ j < offsetProcessCacheSize, (f.offDbMapping j).offset ≠ -1 →
    (f.offDbMapping j).dbindex ≠ noIx →
    l[hops (f.offDbMapping j).offset]? = some (f.offDbMapping j).dbindex

/-- The bucket that `pread` and `pwrite` start at. -/
def startOf (f : FdInfo) (l : List Nat) (offset : Int) : Option Nat :=
  if cacheLookup f offset = noIx then placeOf l offset else some (cacheLookup f offset)

/-- The descriptor when that bucket is known. -/
def located (f : FdInfo) (l : List Nat) (offset : Int) : FdInfo :=
  if cacheLookup f offset = noIx then
    match placeOf l offset with
    | some ix => cacheFill offset ix f
    | none => f
  else f

theorem CacheTrue.startOf_eq (hc : CacheTrue f l) (hne : offset ≠ -1) :
    startOf f l offset = placeOf l offset := by
  unfold startOf
  split
  · rfl
  · next hhit =>
    rw [cacheLookup_eq] at hhit ⊢
    split at hhit
    · next heq =>
      rw [if_pos heq]
      have hplace := hc 0 (by decide) (heq ▸ hne) hhit
      rw [heq] at hplace
      exact (placeOf_of_getElem hplace).symm
    · exact absurd rfl hhit

theorem CacheTrue.cacheOk (hc : CacheTrue f l) : CacheOk f l :=
  fun j hj hpos => hc j hj (by omega)

theorem CacheTrue.append (hc : CacheTrue f l) : CacheTrue f (l ++ new) := by
  intro j hj hoff hne
  have h := hc j hj hoff hne
  obtain ⟨hlt, _⟩ := List.getElem?_eq_some_iff.mp h
  rw [List.getElem?_append_left hlt]
  exact h

theorem cacheTrue_of_empty (hclean : (f.offDbMapping 0).offset = -1) : CacheTrue f l := by
  intro j hj hoff
  obtain rfl : j = 0 := by
    unfold offsetProcessCacheSize at hj
    omega
  exact absurd hclean hoff

theorem SlotNext.cacheTrue (hf : SlotNext l f f') (hptr : f.offDbPtr = 0) (hc : CacheTrue f l) :
    CacheTrue f' l := by
  rcases hf.cache with ⟨hmap, _⟩ | ⟨offset, ix, hplace, hmap, _⟩
  · simpa [CacheTrue, hmap] using hc
  · intro j hj hoff hne
    obtain rfl : j = 0 := by
      unfold offsetProcessCacheSize at hj
      omega
    rw [hmap] at hoff hne ⊢
    simp only [cacheFill, hptr, Function.update_self] at hne ⊢
    exact getElem_of_placeOf hplace hne

theorem located_next (f : FdInfo) (l : List Nat) (offset : Int) :
    SlotNext l f (located f l offset) := by
  unfold located
  split
  · split
    · next ix hplace => exact ⟨rfl, rfl, rfl, Or.inr ⟨offset, ix, hplace, rfl, rfl⟩⟩
    · exact .refl _ _
  · exact .refl _ _

theorem setFd_self {i : Nat} {g : FdInfo → FdInfo} (hg : g (w.fdTable i) = w.fdTable i) :
    w.setFd i g = w := by
  rw [World.setFd, hg, Function.update_eq_self]

/-- The search for the first bucket, whatever the cache holds. -/
theorem locate_start (offset : Int) (hu : UserFd w fd m)
    (hsteps : w.data.dbucketSteps = totalStepsAllowed)
    (hlinked : Linked w.data.next noIx (w.table.mb m).firstDbucket l)
    (hown : ∀ b ∈ l, w.data.Owned b) :
    locate defaultBuild fd (w.fdTable fd.toNat) (w.table.mb m).firstDbucket offset w =
      .ok (startOf (w.fdTable fd.toNat) l offset)
        (w.setFd fd.toNat (fun f => located f l offset)) := by
  have hrun : onData (walkLoop (hops offset) (w.table.mb m).firstDbucket) w =
      .ok (placeOf l offset) w := onData_of_ok (walkLoop_eq hsteps hlinked hown)
  unfold locate startOf
  change (if cacheLookup (w.fdTable fd.toNat) offset ≠ noIx then _ else _ : Op World _) w = _
  by_cases hhit : cacheLookup (w.fdTable fd.toNat) offset = noIx
  · rw [if_neg (not_not_intro hhit), if_pos hhit]
    change (onData (walkLoop (hops offset) (w.table.mb m).firstDbucket) >>= _) w = _
    rw [bind_of_ok hrun]
    cases hplace : placeOf l offset with
    | none =>
        rw [setFd_self (by simp [located, hhit, hplace])]
        rfl
    | some ix =>
        change (setFddes fd (cacheFill offset ix) >>= _) w = _
        rw [setFddes_eq hu.pos hu.lt, World.setFd, World.setFd]
        simp [located, hhit, hplace]
  · rw [if_pos hhit, if_neg hhit, setFd_self (by simp [located, hhit])]
    rfl

/-! The first bucket of a `pread`. -/

/-- What `pread` does behind its loop. -/
def preadDone (env : Env) (fd : Int) (data : List Byte) : Op World Ret := do
  if data.length > 0 then
    setFddes fd (deferStamp env stAcs)
  return { ret := data.length, err := .ok, data := data }

theorem sysPread_start {count : UInt64} (hu : UserFd w fd m)
    (hsteps : w.data.dbucketSteps = totalStepsAllowed)
    (hlinked : Linked w.data.next noIx (w.table.mb m).firstDbucket l)
    (hown : ∀ b ∈ l, w.data.Owned b) :
    sysPread defaultBuild env fd count offset w =
      (match startOf (w.fdTable fd.toNat) l offset with
        | none => pure ({ ret := 0, err := .ok } : Ret)
        | some ix => onData (preadLoop env (readFuel count.toNat) ix
            (toSize (offset.tmod dbucketBufSize)) count.toNat) >>= preadDone env fd)
        (w.setFd fd.toNat (fun f => located f l offset)) := by
  rw [sysPread, fddes_eq hu, hu.exclusive, hu.nonempty]
  simp only [Bool.false_eq_true, if_false]
  rw [run_get_bind, hu.mindex, bind_of_ok (locate_start offset hu hsteps hlinked hown)]
  cases startOf (w.fdTable fd.toNat) l offset <;> rfl

theorem readFuel_pos (c : Nat) : 0 < readFuel c := Nat.mul_pos (Nat.succ_pos _) (Nat.succ_pos _)

/-- A loop that asks for nothing reads nothing. -/
theorem preadLoop_nothing (hsteps : d.dbucketSteps = totalStepsAllowed)
    (hb : b = noIx ∨ b < totBuckets) (hfuel : 0 < fuel) :
    preadLoop env fuel b off 0 d = .ok [] d := by
  obtain ⟨fuel, rfl⟩ : ∃ n, fuel = n + 1 := ⟨fuel - 1, by omega⟩
  rw [preadLoop, run_ite]
  split
  · rfl
  · next hne =>
    rw [bind_of_ok (getDbucketPtr_eq hsteps (hb.resolve_left hne)), run_ite,
      if_pos (Nat.zero_le _)]
    rfl

/-- What the loop returns begins with the cells of its first bucket. -/
theorem preadLoop_first (hsteps : d.dbucketSteps = totalStepsAllowed) (hb : b < totBuckets)
    (hk : k < c) (hkin : k < usub (d.bucket b).bytes off) :
    Ends (preadLoop env fuel b off c d)
      (fun data _ => data[k]? = some (byteAt env b (d.bucket b) (uadd off k)))
      (fun _ _ => True) := by
  have hcells : ∀ n, k < n → Ends ((copyOut env b (d.bucket b) off n : Op DataShm (List Byte)) d)
      (fun data d' => data[k]? = some (byteAt env b (d.bucket b) (uadd off k)) ∧ d' = d)
      (fun _ _ => True) := by
    intro n hn
    rw [copyOut]
    split
    · exact ⟨by simp [hn], rfl⟩
    · trivial
  cases fuel with
  | zero => trivial
  | succ fuel =>
      have hne : b ≠ noIx := by
        unfold totBuckets at hb
        unfold noIx
        omega
      rw [preadLoop, run_ite, if_neg hne, bind_of_ok (getDbucketPtr_eq hsteps hb), run_ite]
      split
      · exact (hcells c hk).mono (fun _ _ h => h.1) (fun _ _ h => h)
      · rw [ends_bind]
        refine (hcells _ hkin).mono ?_ (fun _ _ h => h)
        rintro chunk d₁ ⟨hchunk, rfl⟩
        rw [ends_bind]
        refine Ends.of_forall _ (fun rest d₂ => ?_)
        rw [run_pure, ends_ok]
        obtain ⟨hlt, _⟩ := List.getElem?_eq_some_iff.mp hchunk
        rw [List.getElem?_append_left hlt]
        exact hchunk

end Spacefish
