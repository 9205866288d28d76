import Spacefish.Allocators

/-!
What allocation methods 1 to 4 select. Each searches a range of the store in
cyclic order from some place in it; with the locks free it takes the first
bucket that is not in use, and fails only when the whole range is in use. The
usage counter, which `all_random` tests first, stays at zero as long as no bucket
is released.
-/

namespace Spacefish

open Program

/-- The first bucket of the range of method `m` on a core. -/
def AllocMethod.base (ncores core : Nat) : AllocMethod → Nat
  | .allPerCoreRandom => bktsPerCore ncores * core
  | .allPerCoreRoughInd => bktsPerCore ncores * core
  | _ => 0

/-- The number of buckets in the range. -/
def AllocMethod.size (ncores : Nat) : AllocMethod → Nat
  | .allPerCoreRandom => bktsPerCore ncores
  | .allPerCoreRoughInd => bktsPerCore ncores
  | _ => totBuckets

/-- Where the search starts, relative to the range. -/
def AllocMethod.start (ncores core rand : Nat) (s : DataCores) : AllocMethod → Nat
  | .allRandom => rand % totBuckets
  | .allRoughInd => s.data.dbucketRoughIndex % totBuckets
  | .allPerCoreRandom => rand % bktsPerCore ncores
  | .allPerCoreRoughInd => s.coreRoughInd core % bktsPerCore ncores
  | .steps => 0

/-- `ix` is the first free bucket of a range in cyclic order from `start`. -/
def FirstFree (d : DataShm) (base start size ix : Nat) : Prop :=
  ∃ k < size, ix = (start + k) % size + base ∧ (d.bucket ix).inUse = false ∧
    ∀ j < k, (d.bucket ((start + j) % size + base)).inUse = true

/-- All buckets of a range are in use. -/
def RangeFull (d : DataShm) (base size : Nat) : Prop :=
  ∀ b, base ≤ b → b < base + size → (d.bucket b).inUse = true

/-- `s'` is `s` with the bucket `ix` marked, up to the rough indices. -/
structure Marked (s s' : DataCores) (ix : Nat) : Prop where
  bucket : s'.data.bucket = (s.data.take ix).bucket
  steps : s'.data.dbucketSteps = s.data.dbucketSteps
  counter : s'.data.dbucketsInUse = s.data.dbucketsInUse

/-- `s'` is `s` up to the rough indices. -/
structure Unmarked (s s' : DataCores) : Prop where
  bucket : s'.data.bucket = s.data.bucket
  steps : s'.data.dbucketSteps = s.data.dbucketSteps
  counter : s'.data.dbucketsInUse = s.data.dbucketsInUse

variable {d : DataShm} {s s' : DataCores} {base start size ix ncores core rand : Nat}
  {m : AllocMethod}

theorem FirstFree.bounds (hf : FirstFree d base start size ix) : base ≤ ix ∧ ix < base + size := by
  obtain ⟨k, hk, rfl, _⟩ := hf
  have := Nat.mod_lt (start + k) (show size > 0 by omega)
  omega

theorem FirstFree.free (hf : FirstFree d base start size ix) : (d.bucket ix).inUse = false := by
  obtain ⟨_, _, _, hfree, _⟩ := hf
  exact hfree

theorem FirstFree.not_full (hf : FirstFree d base start size ix) : ¬ RangeFull d base size := by
  intro hfull
  have huse := hfull ix hf.bounds.1 hf.bounds.2
  rw [hf.free] at huse
  cases huse

/-- The loop takes the first free bucket, or fails in a range without one. -/
theorem takeFirstFree_cases (base start size : Nat) (hlocks : ∀ b, (d.bucket b).lock = false) :
    (∃ ix, FirstFree d base start size ix ∧
      takeFirstFree base start size d = .ok ix (d.take ix)) ∨
    (RangeFull d base size ∧
      takeFirstFree base start size d = .error (.exit .dataBucketOverUse) d) := by
  unfold takeFirstFree
  rw [run_get_bind]
  cases hscan : CyclicScan.scan
      (fun k => !(d.bucket (k + base)).inUse && !(d.bucket (k + base)).lock) start size size 0 with
  | some k =>
      obtain ⟨hfree, i, _, hi, hk, hbefore⟩ := CyclicScan.scan_some hscan
      simp only [hlocks, Bool.not_false, Bool.and_true, Bool.not_eq_true', Bool.not_eq_false']
        at hfree hbefore
      refine Or.inl ⟨k + base, ⟨i, by omega, by rw [hk], hfree, ?_⟩, rfl⟩
      exact fun j hj => hbefore j (Nat.zero_le j) hj
  | none =>
      refine Or.inr ⟨fun b hlow hhigh => ?_, rfl⟩
      have hbusy := CyclicScan.full_scan_none hscan (b - base) (by omega)
      rw [Nat.sub_add_cancel hlow] at hbusy
      simpa [hlocks] using hbusy

theorem onBuckets_of_ok {α : Type} {x : Op DataShm α} {a : α} {d' : DataShm}
    (h : x s.data = .ok a d') : onBuckets x s = .ok a { s with data := d' } :=
  zoom_of_ok h

theorem onBuckets_of_error {α : Type} {x : Op DataShm α} {e : Halt} {d' : DataShm}
    (h : x s.data = .error e d') : onBuckets x s = .error e { s with data := d' } :=
  zoom_of_error h

/-- The allocator of the default build is an instance of the family. -/
theorem bucketIxAllocAllRandom_eq (rand : Nat) :
    onBuckets (bucketIxAllocAllRandom rand) = allocAllRandom id rand := by
  funext s
  have hloop : ¬ s.data.dbucketsInUse = totBuckets → bucketIxAllocAllRandom rand s.data =
      takeFirstFree 0 (rand % totBuckets) totBuckets s.data := by
    intro hfull
    rw [bucketIxAllocAllRandom, run_get_bind, run_ite, if_neg hfull]
    rfl
  rw [allocAllRandom, run_get_bind, run_ite]
  by_cases hfull : s.data.dbucketsInUse = totBuckets
  · rw [if_pos hfull]
    refine onBuckets_of_error ?_
    rw [bucketIxAllocAllRandom, run_get_bind, run_ite, if_pos hfull]
    rfl
  · rw [if_neg hfull]
    cases hrun : takeFirstFree 0 (rand % totBuckets) totBuckets s.data with
    | ok ix d' =>
        rw [onBuckets_of_ok ((hloop hfull).trans hrun)]
        exact (bind_of_ok (onBuckets_of_ok hrun)).symm
    | error e d' =>
        rw [onBuckets_of_error ((hloop hfull).trans hrun)]
        exact (bind_of_error (onBuckets_of_error hrun)).symm

/-! One method after the other. -/

/-- What a method returns through `ret`: the first free bucket of its range, which
it marks, or nothing when the range is full. -/
def Selects {α : Type} (ret : Nat → α) (x : Op DataCores α) (base start size : Nat)
    (s : DataCores) : Prop :=
  (∃ ix s', FirstFree s.data base start size ix ∧ Marked s s' ix ∧ x s = .ok (ret ix) s') ∨
  (RangeFull s.data base size ∧ ∃ s', Unmarked s s' ∧
    x s = .error (.exit .dataBucketOverUse) s')

section

variable {α : Type} (ret : Nat → α) (hlocks : ∀ b, (s.data.bucket b).lock = false)

include hlocks

theorem allocAllRandom_selects (rand : Nat) (hcounter : s.data.dbucketsInUse ≠ totBuckets) :
    Selects ret (allocAllRandom ret rand) 0 (rand % totBuckets) totBuckets s := by
  unfold Selects allocAllRandom
  rw [run_get_bind, run_ite, if_neg hcounter]
  rcases takeFirstFree_cases 0 (rand % totBuckets) totBuckets hlocks with
    ⟨ix, hfirst, hrun⟩ | ⟨hfull, hrun⟩
  · refine Or.inl ⟨ix, _, hfirst, ?_, bind_of_ok (onBuckets_of_ok hrun)⟩
    exact ⟨rfl, rfl, rfl⟩
  · refine Or.inr ⟨hfull, _, ?_, bind_of_error (onBuckets_of_error hrun)⟩
    exact ⟨rfl, rfl, rfl⟩

theorem allocAllRoughInd_selects :
    Selects ret (allocAllRoughInd ret) 0 (s.data.dbucketRoughIndex % totBuckets) totBuckets s := by
  unfold Selects allocAllRoughInd
  rw [run_modify_bind, run_get_bind]
  have hstart : (if s.data.dbucketRoughIndex ≥ totBuckets then
      s.setRoughInd (s.data.dbucketRoughIndex % totBuckets) else s) =
        s.setRoughInd (s.data.dbucketRoughIndex % totBuckets) := by
    split
    · rfl
    · rw [Nat.mod_eq_of_lt (by omega)]
      rfl
  rw [hstart]
  change (∃ ix s', _ ∧ _ ∧ (onBuckets (takeFirstFree 0 _ totBuckets) >>= _) _ = _) ∨ _
  rcases takeFirstFree_cases (d := (s.setRoughInd (s.data.dbucketRoughIndex % totBuckets)).data) 0
      (s.data.dbucketRoughIndex % totBuckets) totBuckets hlocks with
    ⟨ix, hfirst, hrun⟩ | ⟨hfull, hrun⟩
  · refine Or.inl ⟨ix, _, hfirst, ?_, bind_of_ok (onBuckets_of_ok hrun)⟩
    exact ⟨rfl, rfl, rfl⟩
  · refine Or.inr ⟨hfull, _, ?_, bind_of_error (onBuckets_of_error hrun)⟩
    exact ⟨rfl, rfl, rfl⟩

theorem allocAllPerCoreRandom_selects (ncores core rand : Nat) (hpos : bktsPerCore ncores ≠ 0) :
    Selects ret (allocAllPerCoreRandom ret ncores core rand) (bktsPerCore ncores * core)
      (rand % bktsPerCore ncores) (bktsPerCore ncores) s := by
  unfold Selects allocAllPerCoreRandom
  rw [run_ite, if_neg hpos]
  rcases takeFirstFree_cases (bktsPerCore ncores * core) (rand % bktsPerCore ncores)
      (bktsPerCore ncores) hlocks with ⟨ix, hfirst, hrun⟩ | ⟨hfull, hrun⟩
  · refine Or.inl ⟨ix, _, hfirst, ?_, bind_of_ok (onBuckets_of_ok hrun)⟩
    exact ⟨rfl, rfl, rfl⟩
  · refine Or.inr ⟨hfull, _, ?_, bind_of_error (onBuckets_of_error hrun)⟩
    exact ⟨rfl, rfl, rfl⟩

theorem allocAllPerCoreRoughInd_selects (ncores core : Nat) (hpos : bktsPerCore ncores ≠ 0) :
    Selects ret (allocAllPerCoreRoughInd ret ncores core) (bktsPerCore ncores * core)
      (s.coreRoughInd core % bktsPerCore ncores) (bktsPerCore ncores) s := by
  unfold Selects allocAllPerCoreRoughInd
  rw [run_ite, if_neg hpos]
  dsimp only
  rw [run_modify_bind, run_get_bind]
  have hstart : (if s.coreRoughInd core ≥ bktsPerCore ncores then
      s.setCoreRoughInd core (s.coreRoughInd core % bktsPerCore ncores) else s) =
        s.setCoreRoughInd core (s.coreRoughInd core % bktsPerCore ncores) := by
    split
    · rfl
    · rw [Nat.mod_eq_of_lt (by omega), DataCores.setCoreRoughInd, Function.update_eq_self]
  have hcore : (s.setCoreRoughInd core (s.coreRoughInd core % bktsPerCore ncores)).coreRoughInd
      core = s.coreRoughInd core % bktsPerCore ncores := Function.update_self ..
  rw [hstart, hcore]
  rcases takeFirstFree_cases (bktsPerCore ncores * core) (s.coreRoughInd core % bktsPerCore ncores)
      (bktsPerCore ncores) hlocks with ⟨ix, hfirst, hrun⟩ | ⟨hfull, hrun⟩
  · refine Or.inl ⟨ix, _, hfirst, ?_, bind_of_ok (onBuckets_of_ok hrun)⟩
    exact ⟨rfl, rfl, rfl⟩
  · refine Or.inr ⟨hfull, _, ?_, bind_of_error (onBuckets_of_error hrun)⟩
    exact ⟨rfl, rfl, rfl⟩

end

/-! The store in which they run. -/

/-- The state that a program leaves, however it ends. -/
def leftBy {σ α : Type} : EStateM.Result Halt σ α → σ
  | .ok _ s => s
  | .error _ s => s

/-- The stores of method `m` that are reached without releases: allocations by index
and by pointer, on any core, and stores to fields other than `in_use`, among them
the rough indices and the locks. -/
inductive Reached (m : AllocMethod) (ncores : Nat) : DataCores → Prop where
  | init : Reached m ncores (initCores m)
  | ix {s : DataCores} (core rand : Nat) (hs : Reached m ncores s) (hcore : core < ncores) :
      Reached m ncores (leftBy (getFreeDbucketIx m ncores core rand s))
  | ptr {s : DataCores} (core rand : Nat) (hs : Reached m ncores s) (hcore : core < ncores) :
      Reached m ncores (leftBy (getFreeDbucketPtr m ncores core rand s))
  | write {s s' : DataCores} (hs : Reached m ncores s)
      (huse : ∀ b, (s'.data.bucket b).inUse = (s.data.bucket b).inUse)
      (hsteps : s'.data.dbucketSteps = s.data.dbucketSteps)
      (hcounter : s'.data.dbucketsInUse = s.data.dbucketsInUse) : Reached m ncores s'

/-- The fields that methods 1 to 4 leave alone. -/
def DataShm.counts (d : DataShm) : Nat × Nat := (d.dbucketsInUse, d.dbucketSteps)

theorem leftBy_of_frames {σ τ α : Type} {view : σ → τ} {x : EStateM Halt σ α}
    (hx : Frames view x) (s : σ) : view (leftBy (x s)) = view s := by
  have hends := hx s
  cases hrun : x s with
  | ok a s' =>
      rw [hrun] at hends
      exact hends
  | error e s' =>
      rw [hrun] at hends
      exact hends

theorem takeFirstFree_counts (base start size : Nat) :
    Frames DataShm.counts (takeFirstFree base start size) := by
  intro d
  unfold takeFirstFree
  rw [run_get_bind]
  cases CyclicScan.scan
      (fun k => !(d.bucket (k + base)).inUse && !(d.bucket (k + base)).lock) start size size 0 with
  | some k => exact rfl
  | none => exact rfl

theorem onBuckets_counts {α : Type} {x : Op DataShm α} (hx : Frames DataShm.counts x) :
    Frames (fun s : DataCores => s.data.counts) (onBuckets x) := by
  intro s
  rw [onBuckets, ends_zoom]
  exact hx s.data

section

variable {α : Type} (ret : Nat → α)

theorem allocAllRandom_counts (rand : Nat) :
    Frames (fun s : DataCores => s.data.counts) (allocAllRandom ret rand) := by
  have hrest : Frames (fun s : DataCores => s.data.counts) (do
      let ix ← onBuckets (takeFirstFree 0 (rand % totBuckets) totBuckets)
      return ret ix) :=
    (onBuckets_counts (takeFirstFree_counts _ _ _)).bind (fun _ => (Keeps.pure _).frames)
  exact Keeps.get.frames.bind (fun s =>
    .ite ((Keeps.throw _).frames.bind (fun _ => hrest)) hrest)

theorem allocAllRoughInd_counts :
    Frames (fun s : DataCores => s.data.counts) (allocAllRoughInd ret) := by
  refine Frames.bind (.modify (fun s => ?_)) (fun _ => Keeps.get.frames.bind (fun s => ?_))
  · split
    · rfl
    · rfl
  · exact (onBuckets_counts (takeFirstFree_counts _ _ _)).bind (fun j =>
      Frames.bind (.modify (fun _ => rfl)) (fun _ => (Keeps.pure _).frames))

theorem allocAllPerCoreRandom_counts (ncores core rand : Nat) :
    Frames (fun s : DataCores => s.data.counts)
      (allocAllPerCoreRandom ret ncores core rand) := by
  have hrest : Frames (fun s : DataCores => s.data.counts) (do
      let j ← onBuckets (takeFirstFree (bktsPerCore ncores * core) (rand % bktsPerCore ncores)
        (bktsPerCore ncores))
      return ret j) :=
    (onBuckets_counts (takeFirstFree_counts _ _ _)).bind (fun _ => (Keeps.pure _).frames)
  exact .ite ((Keeps.throw _).frames.bind (fun _ => hrest)) hrest

theorem allocAllPerCoreRoughInd_counts (ncores core : Nat) :
    Frames (fun s : DataCores => s.data.counts)
      (allocAllPerCoreRoughInd ret ncores core) := by
  have hrest : Frames (fun s : DataCores => s.data.counts) (do
      modify (fun s =>
        if s.coreRoughInd core ≥ bktsPerCore ncores then
          s.setCoreRoughInd core (s.coreRoughInd core % bktsPerCore ncores)
        else s)
      let s ← get
      let j ← onBuckets (takeFirstFree (bktsPerCore ncores * core) (s.coreRoughInd core)
        (bktsPerCore ncores))
      modify (·.setCoreRoughInd core (j - bktsPerCore ncores * core))
      return ret j) := by
    refine Frames.bind (.modify (fun s => ?_)) (fun _ => Keeps.get.frames.bind (fun s => ?_))
    · split
      · rfl
      · rfl
    · exact (onBuckets_counts (takeFirstFree_counts _ _ _)).bind (fun j =>
        Frames.bind (.modify (fun _ => rfl)) (fun _ => (Keeps.pure _).frames))
  exact .ite ((Keeps.throw _).frames.bind (fun _ => hrest)) hrest

end

/-- No allocation of methods 1 to 4 changes the usage counter or the steps. -/
theorem getFreeDbucket_counts (hm : m ≠ .steps) (ncores core rand : Nat) :
    Frames (fun s : DataCores => s.data.counts) (getFreeDbucketIx m ncores core rand) ∧
      Frames (fun s : DataCores => s.data.counts) (getFreeDbucketPtr m ncores core rand) := by
  cases m with
  | steps => exact absurd rfl hm
  | allRandom =>
      refine ⟨?_, allocAllRandom_counts _ _⟩
      change Frames _ (onBuckets (bucketIxAllocAllRandom rand))
      rw [bucketIxAllocAllRandom_eq]
      exact allocAllRandom_counts _ _
  | allRoughInd => exact ⟨allocAllRoughInd_counts _, allocAllRoughInd_counts _⟩
  | allPerCoreRandom =>
      exact ⟨allocAllPerCoreRandom_counts _ _ _ _, allocAllPerCoreRandom_counts _ _ _ _⟩
  | allPerCoreRoughInd =>
      exact ⟨allocAllPerCoreRoughInd_counts _ _ _, allocAllPerCoreRoughInd_counts _ _ _⟩

theorem Reached.counts (hs : Reached m ncores s) (hm : m ≠ .steps) :
    s.data.counts = (0, totalStepsAllowed) := by
  induction hs with
  | init => simp [initCores, initData, DataShm.counts, hm]
  | ix core rand _ _ ih => exact (leftBy_of_frames (getFreeDbucket_counts hm ncores core rand).1 _).trans ih
  | ptr core rand _ _ ih => exact (leftBy_of_frames (getFreeDbucket_counts hm ncores core rand).2 _).trans ih
  | write hs huse hsteps hcounter ih =>
      unfold DataShm.counts at ih ⊢
      rw [hsteps, hcounter]
      exact ih

/-! The claim of the four methods. -/

/-- The ranges lie in the store, and those of different cores are disjoint. -/
theorem AllocMethod.range_in_store (m : AllocMethod) (hcore : core < ncores) :
    m.base ncores core + m.size ncores ≤ totBuckets := by
  have hper : bktsPerCore ncores * core + bktsPerCore ncores ≤ totBuckets := by
    calc bktsPerCore ncores * core + bktsPerCore ncores
        = bktsPerCore ncores * (core + 1) := by rw [Nat.mul_add, Nat.mul_one]
      _ ≤ bktsPerCore ncores * ncores := Nat.mul_le_mul_left _ hcore
      _ ≤ totBuckets := Nat.div_mul_le_self _ _
  cases m with
  | allPerCoreRandom => exact hper
  | allPerCoreRoughInd => exact hper
  | _ => exact Nat.le_of_eq (Nat.zero_add _)

theorem coreRanges_disjoint {core' b : Nat} (hne : core ≠ core')
    (h₁ : bktsPerCore ncores * core ≤ b) (h₂ : b < bktsPerCore ncores * core + bktsPerCore ncores)
    (h₃ : bktsPerCore ncores * core' ≤ b) :
    ¬ b < bktsPerCore ncores * core' + bktsPerCore ncores := by
  intro h₄
  have hmul : ∀ a c, a < c → bktsPerCore ncores * a + bktsPerCore ncores ≤ bktsPerCore ncores * c := by
    intro a c hac
    have := Nat.mul_le_mul_left (bktsPerCore ncores) (Nat.succ_le_of_lt hac)
    rw [Nat.mul_succ] at this
    exact this
  rcases Nat.lt_or_gt_of_ne hne with hlt | hgt
  · have := hmul core core' hlt
    omega
  · have := hmul core' core hgt
    omega

theorem FirstFree.unique {ix' : Nat} (h : FirstFree d base start size ix)
    (h' : FirstFree d base start size ix') : ix = ix' := by
  obtain ⟨k, _, rfl, hfree, hbefore⟩ := h
  obtain ⟨k', _, rfl, hfree', hbefore'⟩ := h'
  rcases Nat.lt_trichotomy k k' with hlt | rfl | hgt
  · rw [hbefore' k hlt] at hfree
    cases hfree
  · rfl
  · rw [hbefore k' hgt] at hfree'
    cases hfree'

/-- What the two variants of a method select. -/
theorem getFreeDbucket_selects (hm : m ≠ .steps) (hpos : bktsPerCore ncores ≠ 0)
    (hlocks : ∀ b, (s.data.bucket b).lock = false) (hcounter : s.data.dbucketsInUse ≠ totBuckets)
    (core rand : Nat) :
    Selects id (getFreeDbucketIx m ncores core rand) (m.base ncores core)
        (m.start ncores core rand s) (m.size ncores) s ∧
      Selects dataStepsPtr (getFreeDbucketPtr m ncores core rand) (m.base ncores core)
        (m.start ncores core rand s) (m.size ncores) s := by
  cases m with
  | steps => exact absurd rfl hm
  | allRandom =>
      refine ⟨?_, allocAllRandom_selects _ hlocks _ hcounter⟩
      change Selects id (onBuckets (bucketIxAllocAllRandom rand)) _ _ _ s
      rw [bucketIxAllocAllRandom_eq]
      exact allocAllRandom_selects _ hlocks _ hcounter
  | allRoughInd => exact ⟨allocAllRoughInd_selects _ hlocks, allocAllRoughInd_selects _ hlocks⟩
  | allPerCoreRandom =>
      exact ⟨allocAllPerCoreRandom_selects _ hlocks _ _ _ hpos,
        allocAllPerCoreRandom_selects _ hlocks _ _ _ hpos⟩
  | allPerCoreRoughInd =>
      exact ⟨allocAllPerCoreRoughInd_selects _ hlocks _ _ hpos,
        allocAllPerCoreRoughInd_selects _ hlocks _ _ hpos⟩

/-- A program ends with the message of an exhausted store. -/
def ReportsOverUse {α : Type} (r : EStateM.Result Halt DataCores α) : Prop :=
  ∃ s', r = .error (.exit .dataBucketOverUse) s'

theorem Selects.overUse_iff {α : Type} {ret : Nat → α} {x : Op DataCores α}
    (h : Selects ret x base start size s) : ReportsOverUse (x s) ↔ RangeFull s.data base size := by
  rcases h with ⟨ix, s', hfirst, _, hrun⟩ | ⟨hfull, s', _, hrun⟩
  · refine ⟨?_, fun hfull => absurd hfull hfirst.not_full⟩
    rintro ⟨s'', hover⟩
    rw [hrun] at hover
    cases hover
  · exact ⟨fun _ => hfull, fun _ => ⟨s', hrun⟩⟩

theorem Selects.returns {α : Type} {ret : Nat → α} {x : Op DataCores α}
    (h : Selects ret x base start size s) (hnot : ¬ RangeFull s.data base size) :
    ∃ ix s', FirstFree s.data base start size ix ∧ Marked s s' ix ∧ x s = .ok (ret ix) s' := by
  rcases h with hret | ⟨hfull, _⟩
  · exact hret
  · exact absurd hfull hnot

/-- Methods 1 to 4 are sound and complete over their range: as long as a bucket of
the range is free, the call by index and the call by pointer mark the first free
one in cyclic order and return it, and they report over-use exactly when all of
the range is in use. -/
theorem allocators_sound_complete (hm : m ≠ .steps) (hpos : 1 ≤ ncores) (hle : ncores ≤ totBuckets)
    (hcore : core < ncores) (hs : Reached m ncores s)
    (hlocks : ∀ b, (s.data.bucket b).lock = false) (rand : Nat) :
    m.base ncores core + m.size ncores ≤ totBuckets ∧
    (m = .allPerCoreRandom ∨ m = .allPerCoreRoughInd → ∀ core' < ncores, core ≠ core' → ∀ b,
      m.base ncores core ≤ b → b < m.base ncores core + m.size ncores →
        ¬ (m.base ncores core' ≤ b ∧ b < m.base ncores core' + m.size ncores)) ∧
    ((∃ b, m.base ncores core ≤ b ∧ b < m.base ncores core + m.size ncores ∧
        (s.data.bucket b).inUse = false) →
      ∃ ix, FirstFree s.data (m.base ncores core) (m.start ncores core rand s) (m.size ncores) ix ∧
        (∃ s', getFreeDbucketIx m ncores core rand s = .ok ix s' ∧ Marked s s' ix ∧
          dbucketPtr ix s'.data = .ok (dataStepsPtr ix) s'.data) ∧
        ∃ s', getFreeDbucketPtr m ncores core rand s = .ok (dataStepsPtr ix) s' ∧ Marked s s' ix) ∧
    (ReportsOverUse (getFreeDbucketIx m ncores core rand s) ↔
      RangeFull s.data (m.base ncores core) (m.size ncores)) ∧
    (ReportsOverUse (getFreeDbucketPtr m ncores core rand s) ↔
      RangeFull s.data (m.base ncores core) (m.size ncores)) := by
  have hcounts := hs.counts hm
  have hper : bktsPerCore ncores ≠ 0 := Nat.ne_of_gt (Nat.div_pos hle hpos)
  have hcounter : s.data.dbucketsInUse ≠ totBuckets := by
    rw [show s.data.dbucketsInUse = 0 from congrArg Prod.fst hcounts]
    decide
  have hsteps : s.data.dbucketSteps = totalStepsAllowed := congrArg Prod.snd hcounts
  have hrange := m.range_in_store hcore
  obtain ⟨hix, hptr⟩ := getFreeDbucket_selects hm hper hlocks hcounter core rand
  refine ⟨hrange, ?_, ?_, hix.overUse_iff, hptr.overUse_iff⟩
  · rintro (rfl | rfl) core' _ hne b h₁ h₂ ⟨h₃, h₄⟩
    · exact coreRanges_disjoint hne h₁ h₂ h₃ h₄
    · exact coreRanges_disjoint hne h₁ h₂ h₃ h₄
  · rintro ⟨b, hlow, hhigh, hfree⟩
    have hnot : ¬ RangeFull s.data (m.base ncores core) (m.size ncores) := fun hfull => by
      rw [hfull b hlow hhigh] at hfree
      cases hfree
    obtain ⟨ix, s₁, hfirst, hmark, hrun⟩ := hix.returns hnot
    obtain ⟨ix', s₂, hfirst', hmark', hrun'⟩ := hptr.returns hnot
    obtain rfl := hfirst.unique hfirst'
    refine ⟨ix, hfirst, ⟨s₁, hrun, hmark, ?_⟩, s₂, hrun', hmark'⟩
    have hlt : ix < totBuckets := by
      have := hfirst.bounds.2
      omega
    rw [dbucketPtr, bind_of_ok (getDbucketPtr_eq (hmark.steps.trans hsteps) hlt)]
    rfl

/-- An allocation leaves the locks free. -/
theorem Selects.locks {α : Type} {ret : Nat → α} {x : Op DataCores α}
    (h : Selects ret x base start size s) (hlocks : ∀ b, (s.data.bucket b).lock = false) (b : Nat) :
    ((leftBy (x s)).data.bucket b).lock = false := by
  rcases h with ⟨ix, s', _, hmark, hrun⟩ | ⟨_, s', hsame, hrun⟩
  · rw [hrun, leftBy, hmark.bucket, DataShm.take]
    by_cases hb : b = ix
    · rw [hb, set_bucket_self]
      exact hlocks ix
    · rw [set_bucket_of_ne _ hb]
      exact hlocks b
  · rw [hrun, leftBy, hsame.bucket]
    exact hlocks b

/-- The bucket that core 3 of 8 draws is taken. -/
def drawnTaken : DataCores :=
  leftBy (getFreeDbucketIx .allPerCoreRandom 8 3 5 (initCores .allPerCoreRandom))

/-- When it draws the same bucket again, it gets another one of its range. -/
theorem drawnTaken_selects :
    (drawnTaken.data.bucket (bktsPerCore 8 * 3 + 5)).inUse = true ∧
      ∃ ix s', getFreeDbucketIx .allPerCoreRandom 8 3 5 drawnTaken = .ok ix s' ∧
        Marked drawnTaken s' ix ∧ ix ≠ bktsPerCore 8 * 3 + 5 := by
  have hused : (drawnTaken.data.bucket (bktsPerCore 8 * 3 + 5)).inUse = true := by decide +kernel
  have hlocks : ∀ b, (drawnTaken.data.bucket b).lock = false :=
    (getFreeDbucket_selects (m := .allPerCoreRandom) (by decide) (by decide) (fun _ => rfl)
      (by decide) 3 5).1.locks (fun _ => rfl)
  have hfree : (drawnTaken.data.bucket (bktsPerCore 8 * 3)).inUse = false := by decide +kernel
  obtain ⟨ix, hfirst, ⟨s', hrun, hmark, _⟩, _⟩ := (allocators_sound_complete
    (m := .allPerCoreRandom) (s := drawnTaken) (by decide) (show 1 ≤ 8 by decide) (by decide)
    (show 3 < 8 by decide) (.ix 3 5 .init (by decide)) hlocks 5).2.2.1
    ⟨bktsPerCore 8 * 3, Nat.le_refl _, Nat.lt_add_of_pos_right (by decide), hfree⟩
  refine ⟨hused, ix, s', hrun, hmark, ?_⟩
  rintro rfl
  rw [hfirst.free] at hused
  cases hused

end Spacefish
