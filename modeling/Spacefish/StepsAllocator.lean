import Mathlib.Data.Finset.Card
import Spacefish.AllocRanges

/-!
Allocation in steps, alone. The usage counter is exact, so a step is created
when all buckets are in use and not before, and a bucket is found unless the
store is full.
-/

namespace Spacefish

open Program

/-- The number of data buckets with `in_use` set. -/
def inUseCount (d : DataShm) : Nat :=
  ((Finset.range totBuckets).filter (fun b => (d.bucket b).inUse = true)).card

variable {d d' : DataShm} {b k n : Nat}

theorem inUseCount_le (d : DataShm) : inUseCount d ≤ totBuckets :=
  (Finset.card_filter_le _ _).trans_eq (Finset.card_range _)

theorem inUseCount_congr (h : ∀ c, (d'.bucket c).inUse = (d.bucket c).inUse) :
    inUseCount d' = inUseCount d := by
  simp only [inUseCount, h]

/-- One bucket more is in use. -/
theorem inUseCount_mark (hb : b < totBuckets) (hfree : (d.bucket b).inUse = false)
    (hself : (d'.bucket b).inUse = true)
    (hother : ∀ c, c ≠ b → (d'.bucket c).inUse = (d.bucket c).inUse) :
    inUseCount d' = inUseCount d + 1 := by
  have hset : (Finset.range totBuckets).filter (fun c => (d'.bucket c).inUse = true) =
      insert b ((Finset.range totBuckets).filter (fun c => (d.bucket c).inUse = true)) := by
    ext c
    simp only [Finset.mem_insert, Finset.mem_filter, Finset.mem_range]
    by_cases hc : c = b
    · subst hc
      simp [hself, hb]
    · simp [hc, hother c hc]
  rw [inUseCount, hset, Finset.card_insert_of_notMem (by simp [hfree])]
  rfl

/-- Buckets in use below `n` only: the count tells whether they all are. -/
theorem inUseCount_eq_iff (hn : n ≤ totBuckets) (hout : ∀ c, n ≤ c → (d.bucket c).inUse = false) :
    inUseCount d = n ↔ ∀ c < n, (d.bucket c).inUse = true := by
  have hsub : (Finset.range totBuckets).filter (fun c => (d.bucket c).inUse = true) ⊆
      Finset.range n := by
    intro c hc
    rw [Finset.mem_filter] at hc
    rw [Finset.mem_range]
    by_contra hge
    rw [hout c (by omega)] at hc
    exact absurd hc.2 (by simp)
  constructor
  · intro hcount c hc
    have heq := Finset.eq_of_subset_of_card_le hsub (by
      rw [Finset.card_range]
      exact Nat.le_of_eq hcount.symm)
    have hmem : c ∈ (Finset.range totBuckets).filter (fun c => (d.bucket c).inUse = true) := by
      rw [heq]
      exact Finset.mem_range.mpr hc
    exact (Finset.mem_filter.mp hmem).2
  · intro hall
    have heq : (Finset.range totBuckets).filter (fun c => (d.bucket c).inUse = true) =
        Finset.range n := by
      refine Finset.Subset.antisymm hsub (fun c hc => ?_)
      have hlt := Finset.mem_range.mp hc
      exact Finset.mem_filter.mpr ⟨Finset.mem_range.mpr (by omega), hall c hlt⟩
    rw [inUseCount, heq, Finset.card_range]

/-! The invariant. -/

/-- The number of buckets in the steps that exist. -/
def DataShm.numBuckets (d : DataShm) : Nat := dataBucketsStep * d.dbucketSteps

/-- The store of the method in steps: the buckets in use lie in the steps that exist,
and the usage counter counts them. -/
structure CountedSteps (d : DataShm) : Prop where
  pos : 1 ≤ d.dbucketSteps
  le : d.dbucketSteps ≤ maxDataBucketsSteps
  unlocked : ∀ b, (d.bucket b).lock = false
  outside : ∀ b, d.numBuckets ≤ b → (d.bucket b).inUse = false
  counter : d.dbucketsInUse = inUseCount d

theorem CountedSteps.numBuckets_le (hd : CountedSteps d) : d.numBuckets ≤ totBuckets :=
  Nat.mul_le_mul_left dataBucketsStep hd.le

theorem CountedSteps.numBuckets_pos (hd : CountedSteps d) : 0 < d.numBuckets :=
  Nat.mul_pos (by decide) hd.pos

/-- The rough index at which the search starts. -/
def hint (d : DataShm) : Nat :=
  if d.dbucketRoughIndex > totBuckets then d.dbucketRoughIndex % totBuckets
  else d.dbucketRoughIndex

theorem hint_le (d : DataShm) : hint d ≤ totBuckets := by
  unfold hint
  split
  · exact Nat.le_of_lt (Nat.mod_lt _ (by decide))
  · omega

/-! The loop over the current buckets. -/

/-- The traversal `k` rounds later. -/
def Traversal.after (q : Traversal) (k : Nat) : Traversal := { q with i := q.i + k }

theorem traverseLoop_cases {q : Traversal} (hsteps : q.stepsRead = d.dbucketSteps)
    (hpos : 1 ≤ d.dbucketSteps) (hlocks : ∀ b, (d.bucket b).lock = false) (n : Nat) :
    (∃ k < n, (d.bucket (q.after k).bucket).inUse = false ∧
      (∀ j < k, (d.bucket (q.after j).bucket).inUse = true) ∧
      traverseLoop n q d = .ok (some (q.after k)) d) ∨
    ((∀ j < n, (d.bucket (q.after j).bucket).inUse = true) ∧
      traverseLoop n q d = .ok none d) := by
  induction n generalizing q with
  | zero => exact Or.inr ⟨fun j hj => absurd hj (Nat.not_lt_zero j), rfl⟩
  | succ n ih =>
      have hlt : q.bucket / dataBucketsStep < d.dbucketSteps := by
        have hmod : q.bucket < dataBucketsStep * d.dbucketSteps := by
          unfold Traversal.bucket Traversal.currentNumBuckets
          rw [hsteps]
          exact Nat.mod_lt _ (Nat.mul_pos (by decide) hpos)
        exact Nat.div_lt_of_lt_mul hmod
      have hptr : getDbucketPtr q.bucket d = .ok (d.bucket q.bucket) d := by
        rw [getDbucketPtr, run_get_bind, run_ite, if_neg (by omega)]
        rfl
      have hzero : q.after 0 = q := rfl
      have hshift : ∀ j, q.next.after j = q.after (j + 1) := by
        intro j
        rw [Traversal.after, Traversal.after, Traversal.next, Nat.add_assoc, Nat.add_comm 1 j]
      rw [traverseLoop, bind_of_ok hptr, run_ite, hlocks, Bool.or_false]
      cases huse : (d.bucket q.bucket).inUse with
      | false =>
          rw [if_neg (by simp)]
          exact Or.inl ⟨0, Nat.succ_pos n, huse, fun j hj => absurd hj (Nat.not_lt_zero j), rfl⟩
      | true =>
          rw [if_pos rfl]
          rcases ih (q := q.next) hsteps with ⟨k, hk, hfree, hbefore, hrun⟩ | ⟨hall, hrun⟩
          · refine Or.inl ⟨k + 1, by omega, by rw [← hshift]; exact hfree, ?_, by rw [hrun, hshift]⟩
            intro j hj
            cases j with
            | zero => exact huse
            | succ j =>
                rw [← hshift]
                exact hbefore j (by omega)
          · refine Or.inr ⟨?_, hrun⟩
            intro j hj
            cases j with
            | zero => exact huse
            | succ j =>
                rw [← hshift]
                exact hall j (by omega)

/-! One allocation. -/

/-- The store in which the search runs: the rough index reduced, and a new step when
every bucket is in use. -/
def DataShm.searched (d : DataShm) : DataShm :=
  if d.dbucketsInUse = d.numBuckets then
    { { d with dbucketRoughIndex := hint d }.initStep d.dbucketSteps with
      dbucketSteps := d.dbucketSteps + 1 }
  else { d with dbucketRoughIndex := hint d }

theorem CountedSteps.all_inUse_iff (hd : CountedSteps d) :
    d.dbucketsInUse = d.numBuckets ↔ ∀ b < d.numBuckets, (d.bucket b).inUse = true := by
  rw [hd.counter]
  exact inUseCount_eq_iff hd.numBuckets_le hd.outside

theorem CountedSteps.full_iff (hd : CountedSteps d) :
    d.dbucketsInUse = totBuckets ↔ DataFull d := by
  rw [hd.counter]
  refine inUseCount_eq_iff (Nat.le_refl _) (fun b hb => hd.outside b ?_)
  exact Nat.le_trans hd.numBuckets_le hb

theorem searched_roughIndex (d : DataShm) : d.searched.dbucketRoughIndex = hint d := by
  unfold DataShm.searched
  split
  · rfl
  · rfl

theorem searched_counter (d : DataShm) : d.searched.dbucketsInUse = d.dbucketsInUse := by
  unfold DataShm.searched
  split
  · rfl
  · rfl

theorem searched_steps (d : DataShm) : d.searched.dbucketSteps =
    if d.dbucketsInUse = d.numBuckets then d.dbucketSteps + 1 else d.dbucketSteps := by
  unfold DataShm.searched
  split
  · rfl
  · rfl

theorem CountedSteps.searched_inUse (hd : CountedSteps d) (b : Nat) :
    (d.searched.bucket b).inUse = (d.bucket b).inUse := by
  unfold DataShm.searched
  split
  · simp only [DataShm.initStep]
    split
    · next hb =>
      refine (hd.outside b ?_).symm
      have := Nat.div_mul_le_self b dataBucketsStep
      rw [hb, Nat.mul_comm] at this
      exact this
    · rfl
  · rfl

theorem CountedSteps.searched_lock (hd : CountedSteps d) (b : Nat) :
    (d.searched.bucket b).lock = false := by
  unfold DataShm.searched
  split
  · simp only [DataShm.initStep]
    split
    · rfl
    · exact hd.unlocked b
  · exact hd.unlocked b

/-- A store that is not full keeps the invariant when a step is created. -/
theorem CountedSteps.searched (hd : CountedSteps d) (hnot : ¬ DataFull d) :
    CountedSteps d.searched := by
  have hsteps := searched_steps d
  have hge : d.dbucketSteps ≤ d.searched.dbucketSteps := by
    rw [hsteps]
    split <;> omega
  refine ⟨Nat.le_trans hd.pos hge, ?_, hd.searched_lock, ?_, ?_⟩
  · rw [hsteps]
    split
    · next hall =>
      refine Nat.succ_le_of_lt (Nat.lt_of_le_of_ne hd.le ?_)
      intro hmax
      refine hnot (hd.full_iff.mp ?_)
      rw [hall, DataShm.numBuckets, hmax]
      rfl
    · exact hd.le
  · intro b hb
    rw [hd.searched_inUse]
    exact hd.outside b (Nat.le_trans (Nat.mul_le_mul_left _ hge) hb)
  · rw [searched_counter, hd.counter]
    exact (inUseCount_congr hd.searched_inUse).symm

/-- After that there is a free bucket. -/
theorem CountedSteps.searched_free (hd : CountedSteps d) (hnot : ¬ DataFull d) :
    ∃ b < d.searched.numBuckets, (d.bucket b).inUse = false := by
  have hd' := hd.searched hnot
  have hne : ¬ ∀ b < d.searched.numBuckets, (d.searched.bucket b).inUse = true := by
    intro hall
    have heq := hd'.all_inUse_iff.mpr hall
    rw [searched_counter] at heq
    by_cases hfull : d.dbucketsInUse = d.numBuckets
    · rw [DataShm.numBuckets, searched_steps, if_pos hfull, hfull, DataShm.numBuckets] at heq
      exact absurd heq (by simp [dataBucketsStep])
    · rw [DataShm.numBuckets, searched_steps, if_neg hfull] at heq
      exact hfull heq
  by_contra hno
  refine hne (fun b hb => ?_)
  rw [hd.searched_inUse]
  by_contra huse
  exact hno ⟨b, hb, by simpa using huse⟩

/-- The traversal of an allocation, at round `k`. -/
def DataShm.round (d : DataShm) (k : Nat) : Traversal := ⟨d.searched.dbucketSteps, hint d, k⟩

theorem round_after (d : DataShm) (k : Nat) : (d.round 0).after k = d.round k := by
  simp [DataShm.round, Traversal.after]

theorem round_num (d : DataShm) (k : Nat) :
    (d.round k).currentNumBuckets = d.searched.numBuckets := rfl

/-- No number of the search wraps around. -/
theorem CountedSteps.round_localIx (hd : CountedSteps d.searched)
    (hk : k < d.searched.numBuckets) : (d.round k).localIx = hint d + k := by
  have h₁ := hint_le d
  have h₂ := hd.numBuckets_le
  unfold totBuckets at h₁ h₂
  change (k + hint d) % 2 ^ 32 = hint d + k
  omega

theorem CountedSteps.round_bucket (hd : CountedSteps d.searched)
    (hk : k < d.searched.numBuckets) :
    (d.round k).bucket = (hint d + k) % d.searched.numBuckets := by
  rw [Traversal.bucket, hd.round_localIx hk, round_num]

theorem allocSteps_full (hd : CountedSteps d) (hfull : DataFull d) {α : Type}
    (ret : Traversal → α) : allocSteps ret d = .error (.exit .dataBucketOverUse) d := by
  have hcounter : d.dbucketsInUse = dataBucketsStep * maxDataBucketsSteps := hd.full_iff.mpr hfull
  rw [allocSteps, run_get_bind, run_ite, if_pos hcounter]
  rfl

/-- `try_create_step` in a store whose buckets are all in use. -/
theorem tryCreateStep_eq (hlt : d.dbucketSteps ≠ maxDataBucketsSteps) :
    tryCreateStep d.dbucketSteps d =
      .ok ⟨⟩ { d.initStep d.dbucketSteps with dbucketSteps := d.dbucketSteps + 1 } := by
  rw [tryCreateStep, run_ite, if_neg hlt]
  dsimp only
  rw [run_get_bind, run_ite, if_neg (Nat.lt_irrefl _)]
  rfl

/-- An allocation in a store that is not full takes the bucket of the first round
at which a bucket is free. -/
theorem allocSteps_eq (hd : CountedSteps d) (hnot : ¬ DataFull d) :
    ∃ k < d.searched.numBuckets, (d.bucket (d.round k).bucket).inUse = false ∧
      (∀ j < k, (d.bucket (d.round j).bucket).inUse = true) ∧
      ∀ {α : Type} (ret : Traversal → α),
        allocSteps ret d = .ok (ret (d.round k)) (d.searched.takeStep (d.round k)) := by
  have hd' := hd.searched hnot
  have hloop := traverseLoop_cases (d := d.searched) (q := d.round 0) rfl hd'.pos
    hd'.unlocked d.searched.numBuckets
  simp only [round_after, hd.searched_inUse] at hloop
  rcases hloop with ⟨k, hk, hfree, hbefore, hrun⟩ | ⟨hall, _⟩
  · refine ⟨k, hk, hfree, hbefore, fun {α} ret => ?_⟩
    have hcounter : ¬ d.dbucketsInUse = dataBucketsStep * maxDataBucketsSteps :=
      fun heq => hnot (hd.full_iff.mp heq)
    have hfind : traverseCurrentBuckets (maxDataBucketsSteps + 1) d.searched =
        .ok (d.round k) (d.searched.takeStep (d.round k)) := by
      rw [traverseCurrentBuckets, run_get_bind, searched_roughIndex]
      change (traverseLoop d.searched.numBuckets (d.round 0) >>= _) d.searched = _
      rw [bind_of_ok hrun]
      rfl
    have hreduce : (if d.dbucketRoughIndex > dataBucketsStep * maxDataBucketsSteps then
        { d with dbucketRoughIndex :=
          d.dbucketRoughIndex % (dataBucketsStep * maxDataBucketsSteps) } else d) =
          { d with dbucketRoughIndex := hint d } := by
      by_cases hover : d.dbucketRoughIndex > totBuckets
      · rw [show hint d = d.dbucketRoughIndex % totBuckets from if_pos hover]
        exact if_pos hover
      · rw [show hint d = d.dbucketRoughIndex from if_neg hover]
        exact if_neg hover
    rw [allocSteps, run_get_bind, run_ite, if_neg hcounter]
    dsimp only
    rw [run_modify_bind, hreduce, run_ite]
    by_cases hall : d.dbucketsInUse = dataBucketsStep * d.dbucketSteps
    · have hmax : d.dbucketSteps ≠ maxDataBucketsSteps := by
        intro hmax
        rw [hmax] at hall
        exact hcounter hall
      rw [if_pos hall, bind_of_ok (tryCreateStep_eq (d := { d with dbucketRoughIndex := hint d })
        hmax)]
      have hs : d.searched = { ({ d with dbucketRoughIndex := hint d } : DataShm).initStep
          d.dbucketSteps with dbucketSteps := d.dbucketSteps + 1 } := if_pos hall
      exact bind_of_ok ((congrArg (traverseCurrentBuckets _) hs.symm).trans hfind)
    · rw [if_neg hall]
      have hs : d.searched = { d with dbucketRoughIndex := hint d } := if_neg hall
      exact bind_of_ok ((congrArg (traverseCurrentBuckets _) hs.symm).trans hfind)
  · obtain ⟨b, hb, hfree⟩ := hd.searched_free hnot
    obtain ⟨k, hk, hprobe⟩ := CyclicScan.exists_probe (hint d) hb
    have huse := hall k hk
    rw [hd'.round_bucket hk, hprobe, hfree] at huse
    cases huse

/-! The invariant over whole runs. -/

theorem takeStep_inUse_self (d : DataShm) (q : Traversal) :
    ((d.takeStep q).bucket q.bucket).inUse = true := by
  simp [DataShm.takeStep, DataShm.set]

theorem takeStep_inUse_of_ne {q : Traversal} (hne : b ≠ q.bucket) :
    ((d.takeStep q).bucket b).inUse = (d.bucket b).inUse := by
  simp [DataShm.takeStep, DataShm.set, hne]

theorem takeStep_lock (d : DataShm) (q : Traversal) (b : Nat) :
    ((d.takeStep q).bucket b).lock = (d.bucket b).lock := by
  by_cases hb : b = q.bucket
  · subst hb
    simp [DataShm.takeStep, DataShm.set]
  · simp [DataShm.takeStep, DataShm.set, hb]

theorem CountedSteps.takeStep {q : Traversal} (hd : CountedSteps d) (hq : q.bucket < d.numBuckets)
    (hfree : (d.bucket q.bucket).inUse = false) : CountedSteps (d.takeStep q) := by
  have hle := hd.numBuckets_le
  refine ⟨hd.pos, hd.le, fun b => (takeStep_lock d q b).trans (hd.unlocked b), ?_, ?_⟩
  · intro b hb
    have hb' : d.numBuckets ≤ b := hb
    rw [takeStep_inUse_of_ne (by omega)]
    exact hd.outside b hb'
  · have hcount : inUseCount (d.takeStep q) = inUseCount d + 1 :=
      inUseCount_mark (by omega) hfree (takeStep_inUse_self d q)
        (fun c hc => takeStep_inUse_of_ne hc)
    have hmax := inUseCount_le d
    rw [hcount, ← hd.counter]
    rw [← hd.counter] at hmax
    change (d.dbucketsInUse + 1) % 2 ^ 32 = d.dbucketsInUse + 1
    unfold totBuckets at hmax
    omega

/-- The bucket of a round lies in the store. -/
theorem CountedSteps.round_lt (hd : CountedSteps d.searched) (k : Nat) :
    (d.round k).bucket < d.searched.numBuckets :=
  Nat.mod_lt _ hd.numBuckets_pos

theorem CountedSteps.alloc {α : Type} (ret : Traversal → α) (hd : CountedSteps d) :
    CountedSteps (leftBy (allocSteps ret d)) := by
  by_cases hfull : DataFull d
  · rw [allocSteps_full hd hfull]
    exact hd
  · obtain ⟨k, hk, hfree, _, hrun⟩ := allocSteps_eq hd hfull
    have hd' := hd.searched hfull
    rw [hrun ret]
    exact hd'.takeStep (hd'.round_lt k) (by rw [hd.searched_inUse]; exact hfree)

theorem release_unused (h : (d.bucket b).inUse = false) : releaseDbucket b d = .ok (-1) d := by
  rw [releaseDbucket, run_get_bind, run_ite, if_neg (by simp [h])]
  rfl

theorem release_used (h : (d.bucket b).inUse = true) :
    releaseDbucket b d = .ok 0 { d.set b (fun db => { db with inUse := false }) with
      dbucketsInUse := (d.dbucketsInUse + (2 ^ 32 - 1)) % 2 ^ 32 } := by
  rw [releaseDbucket, run_get_bind, run_ite, if_pos h]
  rfl

theorem CountedSteps.release (b : Nat) (hd : CountedSteps d) :
    CountedSteps (leftBy (releaseDbucket b d)) := by
  cases huse : (d.bucket b).inUse with
  | false =>
      rw [release_unused huse]
      exact hd
  | true =>
      rw [release_used huse]
      have hb : b < d.numBuckets := by
        by_contra hge
        rw [hd.outside b (by omega)] at huse
        cases huse
      have hle := hd.numBuckets_le
      refine ⟨hd.pos, hd.le, ?_, ?_, ?_⟩
      · intro c
        by_cases hc : c = b
        · subst hc
          simpa [leftBy] using hd.unlocked c
        · simpa [leftBy, set_bucket_of_ne _ hc] using hd.unlocked c
      · intro c hc
        have hcb : c ≠ b := by
          rintro rfl
          have : d.numBuckets ≤ c := hc
          omega
        simpa [leftBy, set_bucket_of_ne _ hcb] using hd.outside c hc
      · have hcount : inUseCount d =
            inUseCount (d.set b (fun db => { db with inUse := false })) + 1 :=
          inUseCount_mark (by omega) (by simp) huse (fun c hc => by rw [set_bucket_of_ne _ hc])
        have hmax := inUseCount_le d
        have hcounter := hd.counter
        unfold totBuckets at hmax
        have hdown : (d.dbucketsInUse + (2 ^ 32 - 1)) % 2 ^ 32 =
            inUseCount (d.set b (fun db => { db with inUse := false })) := by omega
        exact hdown.trans (inUseCount_congr (fun _ => rfl))

/-- The calls of a store with allocation method 0. -/
inductive StepsCall where
  | ix
  | ptr
  | release (b : Nat)

def StepsCall.run (d : DataShm) : StepsCall → DataShm
  | .ix => leftBy (bucketIxAllocSteps d)
  | .ptr => leftBy (bucketPtrAllocSteps d)
  | .release b => leftBy (releaseDbucket b d)

/-- The store after a sequence of calls, one at a time. -/
def stepsAfter (calls : List StepsCall) : DataShm :=
  calls.foldl StepsCall.run (initCores .steps).data

theorem initCores_counted : CountedSteps (initCores .steps).data := by
  refine ⟨Nat.le_refl 1, by decide, fun _ => rfl, fun _ _ => rfl, ?_⟩
  change 0 = inUseCount _
  simp [inUseCount, initCores, initData]

theorem CountedSteps.call (hd : CountedSteps d) (c : StepsCall) : CountedSteps (c.run d) := by
  cases c with
  | ix => exact hd.alloc _
  | ptr => exact hd.alloc _
  | release b => exact hd.release b

theorem stepsAfter_counted (calls : List StepsCall) : CountedSteps (stepsAfter calls) := by
  have hrun : ∀ (calls : List StepsCall) (d : DataShm), CountedSteps d →
      CountedSteps (calls.foldl StepsCall.run d) := by
    intro calls
    induction calls with
    | nil => exact fun d hd => hd
    | cons c calls ih => exact fun d hd => ih _ (hd.call c)
  exact hrun calls _ initCores_counted

end Spacefish
