import Spacefish.StepsAllocator

/-!
The usage counter over whole runs. Of the five methods only the one in steps
counts the buckets it hands out, while `release_dbucket` counts down whatever
method has handed its bucket out. The counter is exact in all states of a run when
the method is the one in steps, or when the run allocates nothing.
-/

namespace Spacefish

open Program

/-- A call of the allocation interface; an allocation with the core it runs on and
the draw of `rand`. -/
inductive BucketCall where
  | ix (core rand : Nat)
  | ptr (core rand : Nat)
  | release (b : Nat)
  deriving DecidableEq, Repr

/-- The core on which a call runs is below `ncores`. -/
def BucketCall.OnCore (ncores : Nat) : BucketCall → Prop
  | .ix core _ => core < ncores
  | .ptr core _ => core < ncores
  | .release _ => True

def BucketCall.isRelease : BucketCall → Bool
  | .release _ => true
  | _ => false

def BucketCall.run (m : AllocMethod) (ncores : Nat) (s : DataCores) : BucketCall → DataCores
  | .ix core rand => leftBy (getFreeDbucketIx m ncores core rand s)
  | .ptr core rand => leftBy (getFreeDbucketPtr m ncores core rand s)
  | .release b => leftBy (onBuckets (releaseDbucket b) s)

/-- The store after a sequence of calls, one at a time. -/
def bucketsAfter (m : AllocMethod) (ncores : Nat) (calls : List BucketCall) : DataCores :=
  calls.foldl (BucketCall.run m ncores) (initCores m)

/-- The counter counts the buckets in use, and the test for an exhausted store fires
in a full store only. -/
def UsageExact (d : DataShm) : Prop :=
  d.dbucketsInUse = inUseCount d ∧ (d.dbucketsInUse = totBuckets → DataFull d)

variable {d : DataShm} {s : DataCores} {m : AllocMethod} {ncores : Nat} {calls : List BucketCall}

theorem usageExact_of_count (h : d.dbucketsInUse = inUseCount d) : UsageExact d := by
  refine ⟨h, fun hfull b hb => ?_⟩
  rw [h] at hfull
  have heq := Finset.eq_of_subset_of_card_le (Finset.filter_subset
    (fun b => (d.bucket b).inUse = true) (Finset.range totBuckets)) (by
      rw [Finset.card_range]
      exact Nat.le_of_eq hfull.symm)
  have hmem : b ∈ (Finset.range totBuckets).filter (fun b => (d.bucket b).inUse = true) := by
    rw [heq]
    exact Finset.mem_range.mpr hb
  exact (Finset.mem_filter.mp hmem).2

/-! The method in steps. -/

theorem leftBy_onBuckets {α : Type} (x : Op DataShm α) (s : DataCores) :
    (leftBy (onBuckets x s)).data = leftBy (x s.data) := by
  unfold onBuckets zoom
  cases x s.data <;> rfl

theorem BucketCall.run_counted (c : BucketCall) (hs : CountedSteps s.data) :
    CountedSteps (c.run .steps ncores s).data := by
  cases c with
  | ix core rand =>
      rw [BucketCall.run, getFreeDbucketIx, leftBy_onBuckets]
      exact hs.alloc _
  | ptr core rand =>
      rw [BucketCall.run, getFreeDbucketPtr, leftBy_onBuckets]
      exact hs.alloc _
  | release b =>
      rw [BucketCall.run, leftBy_onBuckets]
      exact hs.release b

theorem bucketsAfter_counted (ncores : Nat) (calls : List BucketCall) :
    CountedSteps (bucketsAfter .steps ncores calls).data := by
  have hrun : ∀ (calls : List BucketCall) (s : DataCores), CountedSteps s.data →
      CountedSteps (calls.foldl (BucketCall.run .steps ncores) s).data := by
    intro calls
    induction calls with
    | nil => exact fun s hs => hs
    | cons c calls ih => exact fun s hs => ih _ (c.run_counted hs)
  exact hrun calls _ initCores_counted

/-! The other methods. -/

theorem initCores_unused (m : AllocMethod) (b : Nat) :
    ((initCores m).data.bucket b).inUse = false := rfl

/-- Nothing can be released in the initial store. -/
theorem bucketsAfter_releases (m : AllocMethod) (ncores : Nat)
    (hrel : ∀ c ∈ calls, c.isRelease = true) : bucketsAfter m ncores calls = initCores m := by
  unfold bucketsAfter
  induction calls with
  | nil => rfl
  | cons c calls ih =>
      have hc : c.run m ncores (initCores m) = initCores m := by
        cases c with
        | release b =>
            rw [BucketCall.run, onBuckets_of_ok (release_unused (initCores_unused m b))]
            rfl
        | ix core rand => exact absurd (hrel (.ix core rand) (by simp)) Bool.false_ne_true
        | ptr core rand => exact absurd (hrel (.ptr core rand) (by simp)) Bool.false_ne_true
      rw [List.foldl_cons, hc]
      exact ih (fun c hc => hrel c (List.mem_cons_of_mem _ hc))

theorem inUseCount_init (m : AllocMethod) : inUseCount (initCores m).data = 0 := by
  simp [inUseCount, initCores, initData]

/-- The first allocation of methods 1 to 4 is not counted. -/
theorem firstAlloc_not_exact {c : BucketCall} (hm : m ≠ .steps) (hpos : 1 ≤ ncores)
    (hle : ncores ≤ totBuckets) (hcore : c.OnCore ncores) (hc : c.isRelease = false) :
    ¬ UsageExact (c.run m ncores (initCores m)).data := by
  have hper : 0 < bktsPerCore ncores := Nat.div_pos hle hpos
  have hsize : 0 < m.size ncores := by
    cases m with
    | allPerCoreRandom => exact hper
    | allPerCoreRoughInd => exact hper
    | _ => exact (by decide : 0 < totBuckets)
  have hnot : ∀ core, ¬ RangeFull (initCores m).data (m.base ncores core) (m.size ncores) :=
    fun core hfull => absurd (hfull _ (Nat.le_refl _) (Nat.lt_add_of_pos_right hsize))
      (by simp [initCores_unused])
  have hcounter : (initCores m).data.dbucketsInUse ≠ totBuckets := by
    change 0 ≠ totBuckets
    decide
  -- one bucket is in use, and the counter is still zero
  have hbad : ∀ core rand ix s', core < ncores →
      FirstFree (initCores m).data (m.base ncores core) (m.start ncores core rand (initCores m))
        (m.size ncores) ix → Marked (initCores m) s' ix → ¬ UsageExact s'.data := by
    intro core rand ix s' hcore hfirst hmark hexact
    have hlt : ix < totBuckets := by
      have := hfirst.bounds.2
      have := m.range_in_store hcore
      omega
    have hcount : inUseCount s'.data = inUseCount (initCores m).data + 1 :=
      inUseCount_mark hlt hfirst.free (by rw [hmark.bucket]; simp [DataShm.take])
        (fun b hb => by rw [hmark.bucket, DataShm.take, set_bucket_of_ne _ hb])
    have hzero := hexact.1
    rw [hmark.counter, hcount, inUseCount_init] at hzero
    exact absurd hzero (by simp [initCores, initData])
  cases c with
  | ix core rand =>
      obtain ⟨ix, s', hfirst, hmark, hrun⟩ := (getFreeDbucket_selects hm (Nat.ne_of_gt hper)
        (fun _ => rfl) hcounter core rand).1.returns (hnot core)
      rw [BucketCall.run, hrun]
      exact hbad core rand ix s' hcore hfirst hmark
  | ptr core rand =>
      obtain ⟨ix, s', hfirst, hmark, hrun⟩ := (getFreeDbucket_selects hm (Nat.ne_of_gt hper)
        (fun _ => rfl) hcounter core rand).2.returns (hnot core)
      rw [BucketCall.run, hrun]
      exact hbad core rand ix s' hcore hfirst hmark
  | release b => cases hc

/-- A sequence with an allocation has a first one. -/
theorem exists_firstAlloc (hsome : ∃ c ∈ calls, c.isRelease = false) :
    ∃ pre c, pre ++ [c] <+: calls ∧ (∀ a ∈ pre, a.isRelease = true) ∧ c.isRelease = false ∧
      c ∈ calls := by
  induction calls with
  | nil =>
      obtain ⟨c, hc, _⟩ := hsome
      cases hc
  | cons c calls ih =>
      cases hrel : c.isRelease with
      | false => exact ⟨[], c, ⟨calls, rfl⟩, by simp, hrel, by simp⟩
      | true =>
          obtain ⟨a, ha, halloc⟩ := hsome
          have hmem : a ∈ calls := by
            rcases List.mem_cons.mp ha with rfl | hmem
            · rw [hrel] at halloc
              cases halloc
            · exact hmem
          obtain ⟨pre, b, ⟨rest, hrest⟩, hpre, hb, hin⟩ := ih ⟨a, hmem, halloc⟩
          refine ⟨c :: pre, b, ⟨rest, by rw [← hrest]; rfl⟩, ?_, hb, List.mem_cons_of_mem _ hin⟩
          intro x hx
          rcases List.mem_cons.mp hx with rfl | hx
          · exact hrel
          · exact hpre x hx

/-- The counter is exact in every state of a run from the initial store exactly when
the allocation method is the one in steps or the run allocates nothing. -/
theorem usage_counter_exact_iff (m : AllocMethod) (calls : List BucketCall) (hpos : 1 ≤ ncores)
    (hle : ncores ≤ totBuckets) (hcores : ∀ c ∈ calls, c.OnCore ncores) :
    (∀ pre, pre <+: calls → UsageExact (bucketsAfter m ncores pre).data) ↔
      (m = .steps ∨ ∀ c ∈ calls, c.isRelease = true) := by
  constructor
  · intro hexact
    by_contra hno
    rw [not_or] at hno
    obtain ⟨hm, hall⟩ := hno
    have hsome : ∃ c ∈ calls, c.isRelease = false := by
      by_contra hnone
      refine hall (fun c hc => ?_)
      by_contra hrel
      exact hnone ⟨c, hc, by simpa using hrel⟩
    obtain ⟨pre, c, hpart, hpre, hc, hmem⟩ := exists_firstAlloc hsome
    have hbad := firstAlloc_not_exact hm hpos hle (hcores c hmem) hc
    have hstate : bucketsAfter m ncores (pre ++ [c]) = c.run m ncores (initCores m) := by
      rw [bucketsAfter, List.foldl_append]
      exact congrArg (fun s => c.run m ncores s) (bucketsAfter_releases m ncores hpre)
    exact hbad (hstate ▸ hexact _ hpart)
  · rintro (rfl | hrel) pre hpart
    · exact usageExact_of_count (bucketsAfter_counted ncores pre).counter
    · rw [bucketsAfter_releases m ncores (fun c hc => hrel c (hpart.subset hc))]
      exact usageExact_of_count (inUseCount_init m).symm

theorem stepsRun_counter_exact :
    UsageExact (bucketsAfter .steps 1 [.ix 0 0, .ptr 0 0, .release 0]).data :=
  (usage_counter_exact_iff .steps [.ix 0 0, .ptr 0 0, .release 0] (Nat.le_refl 1) (by decide)
    (by simp [BucketCall.OnCore])).mpr (Or.inl rfl) _ (List.prefix_refl _)

/-- One allocation with method 1 leaves a bucket in use and the counter at zero. -/
theorem oneAlloc_uncounted : ¬ UsageExact (bucketsAfter .allRandom 1 [.ix 0 0]).data :=
  firstAlloc_not_exact (c := .ix 0 0) (m := .allRandom) (by decide) (Nat.le_refl 1) (by decide)
    Nat.one_pos rfl

end Spacefish
