import Spacefish.StepsAllocator

/-!
The builds with `O_TRUNC_FREE`, one for each allocation method. A truncating `open`
of such a build releases data buckets, which keep their link and their byte count,
and only the method in steps sets these fields again when it hands a bucket out.
What every method keeps are the buckets in use.
-/

namespace Spacefish

open Program

/-- Run an allocator on the data segment alone; `cri` is `rough_ind` of the cores. -/
def withoutCores {α : Type} (cri : Nat → Nat) (x : Op DataCores α) : Op DataShm α := fun d =>
  match x ⟨d, cri⟩ with
  | .ok a s => .ok a s.data
  | .error e s => .error e s.data

/-- `get_free_dbucket_ix` in a call. The number drawn holds what the call cannot know:
the core it runs on, and what `rand` returns or the core has remembered. -/
def drawnAlloc (m : AllocMethod) (ncores draw : Nat) : Op DataShm Nat :=
  withoutCores (fun _ => draw / ncores)
    (getFreeDbucketIx m ncores (draw % ncores) (draw / ncores))

/-- The build with `O_TRUNC_FREE` and allocation method `m`. -/
def truncFreeBuild (m : AllocMethod) (ncores : Nat) : Build :=
  { getFreeDbucketIx := drawnAlloc m ncores
    oTruncFree := true
    offsetProcessCache := true }

/-- A bucket in use of a step that has been created. -/
def DataShm.Held (d : DataShm) (b : Nat) : Prop := b < d.numBuckets ∧ (d.bucket b).inUse = true

/-- The buckets in use are in `d'` as they are in `d`. -/
structure KeepsUsed (d d' : DataShm) : Prop where
  steps : d.dbucketSteps ≤ d'.dbucketSteps
  steps_le : d.dbucketSteps ≤ maxDataBucketsSteps → d'.dbucketSteps ≤ maxDataBucketsSteps
  bucket : ∀ b, d.Held b → d'.bucket b = d.bucket b

/-- The allocator has returned `ix`. If it lies in a created step, it was free. -/
structure Picks (d d' : DataShm) (ix : Nat) : Prop extends KeepsUsed d d' where
  picked : ix < d'.numBuckets → ¬ d.Held ix ∧ d'.Held ix

/-- The allocator has handed out bucket `ix`. -/
structure Handed (d d' : DataShm) (ix : Nat) : Prop extends KeepsUsed d d' where
  free : ¬ d.Held ix
  held : d'.Held ix

/-- The allocator in steps has taken the bucket of round `q` of its search. -/
def TookStep (d d' : DataShm) (q : Traversal) : Prop :=
  ∃ d₁, KeepsUsed d d₁ ∧ q.stepsRead = d₁.dbucketSteps ∧ (d₁.bucket q.bucket).inUse = false ∧
    d' = d₁.takeStep q

/-- How an allocator ends. -/
def PickEnds (d : DataShm) (r : EStateM.Result Halt DataShm Nat) : Prop :=
  Ends r (fun ix d' => Picks d d' ix) (fun e d' => ∀ u, e = .exit u → KeepsUsed d d')

variable {d d₁ d' : DataShm} {s : DataCores} {m : AllocMethod} {ncores core rand b ix n : Nat}
  {q : Traversal} {α : Type}

theorem KeepsUsed.refl (d : DataShm) : KeepsUsed d d := ⟨Nat.le_refl _, id, fun _ _ => rfl⟩

theorem KeepsUsed.held (h : KeepsUsed d d') (hb : d.Held b) : d'.Held b := by
  refine ⟨Nat.lt_of_lt_of_le hb.1 (Nat.mul_le_mul_left _ h.steps), ?_⟩
  rw [h.bucket b hb]
  exact hb.2

theorem KeepsUsed.trans (h₁ : KeepsUsed d d₁) (h₂ : KeepsUsed d₁ d') : KeepsUsed d d' :=
  ⟨h₁.steps.trans h₂.steps, fun hle => h₂.steps_le (h₁.steps_le hle),
    fun b hb => (h₂.bucket b (h₁.held hb)).trans (h₁.bucket b hb)⟩

/-- The usage counter and the rough index do not matter. -/
theorem KeepsUsed.of_eq (hsteps : d'.dbucketSteps = d.dbucketSteps) (hbucket : d'.bucket = d.bucket) :
    KeepsUsed d d' :=
  ⟨Nat.le_of_eq hsteps.symm, fun hle => hsteps ▸ hle, fun b _ => congrFun hbucket b⟩

theorem Picks.after (h₁ : KeepsUsed d d₁) (h₂ : Picks d₁ d' ix) : Picks d d' ix :=
  ⟨h₁.trans h₂.toKeepsUsed, fun hlt => ⟨fun hb => (h₂.picked hlt).1 (h₁.held hb), (h₂.picked hlt).2⟩⟩

theorem Picks.of_eq (h : Picks d d₁ ix) (hsteps : d'.dbucketSteps = d₁.dbucketSteps)
    (hbucket : d'.bucket = d₁.bucket) : Picks d d' ix := by
  refine ⟨h.toKeepsUsed.trans (.of_eq hsteps hbucket), fun hlt => ?_⟩
  have hheld : d'.Held ix ↔ d₁.Held ix := by
    rw [DataShm.Held, DataShm.numBuckets, hsteps, hbucket]
    rfl
  rw [DataShm.numBuckets, hsteps] at hlt
  rw [hheld]
  exact h.picked hlt

/-! Methods 1 to 4. -/

theorem takeFirstFree_picks (base start size : Nat) (d : DataShm) :
    Ends (takeFirstFree base start size d) (fun ix d' => Picks d d' ix) (fun _ d' => d' = d) := by
  unfold takeFirstFree
  rw [run_get_bind]
  cases hscan : CyclicScan.scan
      (fun k => !(d.bucket (k + base)).inUse && !(d.bucket (k + base)).lock) start size size 0 with
  | none => exact rfl
  | some k =>
      have hfree : (d.bucket (k + base)).inUse = false := by
        have := (CyclicScan.scan_some hscan).1
        rw [Bool.and_eq_true] at this
        simpa using this.1
      have hnot : ¬ d.Held (k + base) := fun hb => by
        rw [hb.2] at hfree
        cases hfree
      refine ⟨⟨Nat.le_refl _, id, fun b hb => set_bucket_of_ne _ ?_⟩, fun hlt => ⟨hnot, hlt, ?_⟩⟩
      · rintro rfl
        exact hnot hb
      · dsimp only
        rw [set_bucket_self]

/-- The search of methods 1 to 4, in a store whose rough index has been reduced. -/
theorem onBuckets_picks (base start size : Nat) (h : KeepsUsed d s.data) :
    Ends (onBuckets (takeFirstFree base start size) s) (fun ix s' => Picks d s'.data ix)
      (fun e s' => ∀ u, e = .exit u → KeepsUsed d s'.data) := by
  rw [onBuckets, ends_zoom]
  refine (takeFirstFree_picks base start size s.data).mono (fun ix d' hp => hp.after h) ?_
  rintro e d' rfl u _
  exact h

theorem allocAllRandom_picks (rand : Nat) (s : DataCores) :
    Ends (allocAllRandom id rand s) (fun ix s' => Picks s.data s'.data ix)
      (fun e s' => ∀ u, e = .exit u → KeepsUsed s.data s'.data) := by
  rw [allocAllRandom, run_get_bind, run_ite]
  split
  · exact fun _ _ => .refl _
  · dsimp only
    rw [ends_bind]
    exact onBuckets_picks 0 _ _ (.refl _)

theorem allocAllRoughInd_picks (s : DataCores) :
    Ends (allocAllRoughInd id s) (fun ix s' => Picks s.data s'.data ix)
      (fun e s' => ∀ u, e = .exit u → KeepsUsed s.data s'.data) := by
  have hreduced : ∀ s₁ : DataCores, s₁.data.bucket = s.data.bucket →
      s₁.data.dbucketSteps = s.data.dbucketSteps →
      Ends ((do
        let j ← onBuckets (takeFirstFree 0 s₁.data.dbucketRoughIndex totBuckets)
        modify (·.setRoughInd j)
        return id j : Op DataCores Nat) s₁) (fun ix s' => Picks s.data s'.data ix)
        (fun e s' => ∀ u, e = .exit u → KeepsUsed s.data s'.data) := by
    intro s₁ hbucket hsteps
    rw [ends_bind]
    refine (onBuckets_picks 0 _ _ (.of_eq hsteps hbucket)).mono (fun j s' hp => ?_) (fun _ _ he => he)
    exact hp.of_eq rfl rfl
  rw [allocAllRoughInd, run_modify_bind, run_get_bind]
  split
  · exact hreduced _ rfl rfl
  · exact hreduced _ rfl rfl

theorem allocAllPerCoreRandom_picks (ncores core rand : Nat) (s : DataCores) :
    Ends (allocAllPerCoreRandom id ncores core rand s) (fun ix s' => Picks s.data s'.data ix)
      (fun e s' => ∀ u, e = .exit u → KeepsUsed s.data s'.data) := by
  rw [allocAllPerCoreRandom, run_ite]
  split
  · exact fun _ _ => .refl _
  · dsimp only
    rw [ends_bind]
    exact onBuckets_picks _ _ _ (.refl _)

theorem allocAllPerCoreRoughInd_picks (ncores core : Nat) (s : DataCores) :
    Ends (allocAllPerCoreRoughInd id ncores core s) (fun ix s' => Picks s.data s'.data ix)
      (fun e s' => ∀ u, e = .exit u → KeepsUsed s.data s'.data) := by
  have hreduced : ∀ s₁ : DataCores, s₁.data = s.data →
      Ends ((do
        let j ← onBuckets (takeFirstFree (bktsPerCore ncores * core) (s₁.coreRoughInd core)
          (bktsPerCore ncores))
        modify (·.setCoreRoughInd core (j - bktsPerCore ncores * core))
        return id j : Op DataCores Nat) s₁) (fun ix s' => Picks s.data s'.data ix)
        (fun e s' => ∀ u, e = .exit u → KeepsUsed s.data s'.data) := by
    intro s₁ hdata
    rw [ends_bind]
    refine (onBuckets_picks _ _ _ (hdata ▸ .refl _)).mono (fun j s' hp => ?_) (fun _ _ he => he)
    exact hp.of_eq rfl rfl
  rw [allocAllPerCoreRoughInd, run_ite]
  split
  · exact fun _ _ => .refl _
  · dsimp only
    rw [run_modify_bind, run_get_bind]
    split
    · exact hreduced _ rfl
    · exact hreduced _ rfl

/-! Method 0. -/

theorem traverseLoop_free (n : Nat) (q : Traversal) (d : DataShm) :
    Ends (traverseLoop n q d)
      (fun r d' => d' = d ∧ ∀ q', r = some q' →
        q'.stepsRead = q.stepsRead ∧ (d.bucket q'.bucket).inUse = false)
      (fun _ d' => d' = d) := by
  induction n generalizing q with
  | zero => exact ⟨rfl, fun q' h => by cases h⟩
  | succ n ih =>
      rw [traverseLoop, getDbucketPtr, bind_assoc, run_get_bind]
      by_cases hstep : q.bucket / dataBucketsStep ≥ d.dbucketSteps
      · rw [if_pos hstep]
        exact rfl
      · rw [if_neg hstep, run_pure_bind, run_ite]
        split
        · exact ih q.next
        · next hfree =>
          refine ⟨rfl, fun q' hq => ?_⟩
          obtain rfl := Option.some.inj hq
          rw [Bool.or_eq_true, not_or] at hfree
          exact ⟨rfl, by simpa using hfree.1⟩

/-- A new step lies behind the buckets in use. -/
theorem tryCreateStep_keepsUsed (d : DataShm) :
    Ends (tryCreateStep d.dbucketSteps d) (fun _ d' => KeepsUsed d d')
      (fun e d' => ∀ u, e = .exit u → KeepsUsed d d') := by
  rw [tryCreateStep, run_ite]
  split
  · exact fun _ _ => .refl _
  · next hmax =>
    dsimp only
    rw [run_get_bind, run_ite, if_neg (Nat.lt_irrefl _)]
    refine ⟨Nat.le_succ _, fun hle => Nat.lt_of_le_of_ne hle hmax, fun b hb => ?_⟩
    have hstep : b / dataBucketsStep ≠ d.dbucketSteps :=
      Nat.ne_of_lt (Nat.div_lt_of_lt_mul hb.1)
    simp [DataShm.initStep, hstep]

/-- The number that is returned is the bucket that was taken, if it lies in a created step. -/
theorem bucket_eq_localIx (hq : q.stepsRead = d.dbucketSteps) (hlt : q.localIx < d.numBuckets) :
    q.bucket = q.localIx := by
  rw [Traversal.bucket, Traversal.currentNumBuckets, hq]
  exact Nat.mod_eq_of_lt hlt

theorem TookStep.picks (h : TookStep d d' q) : Picks d d' q.localIx := by
  obtain ⟨d₁, hkeeps, hq, hfree, rfl⟩ := h
  have hnot : ¬ d₁.Held q.bucket := fun hb => by
    rw [hb.2] at hfree
    cases hfree
  refine Picks.after hkeeps ⟨⟨Nat.le_refl _, id, fun b hb => ?_⟩, fun hlt => ?_⟩
  · have hne : b ≠ q.bucket := by
      rintro rfl
      exact hnot hb
    simp [DataShm.takeStep, DataShm.set, hne]
  · have hbucket : q.bucket = q.localIx := bucket_eq_localIx hq hlt
    exact ⟨hbucket ▸ hnot, hlt, hbucket ▸ takeStep_inUse_self d₁ q⟩

/-- The bucket has no link and no bytes. -/
theorem TookStep.cleared (h : TookStep d d' q) (hlt : q.localIx < d'.numBuckets) :
    (d'.bucket q.localIx).nextIx = noIx ∧ (d'.bucket q.localIx).bytes = 0 := by
  obtain ⟨d₁, _, hq, _, rfl⟩ := h
  rw [← bucket_eq_localIx hq hlt]
  simp [DataShm.takeStep, DataShm.set]

theorem traverseCurrentBuckets_took (n : Nat) (h : KeepsUsed d d₁) :
    Ends (traverseCurrentBuckets n d₁) (fun q d' => TookStep d d' q)
      (fun e d' => ∀ u, e = .exit u → KeepsUsed d d') := by
  induction n generalizing d₁ with
  | zero => exact fun u hu => by cases hu
  | succ n ih =>
      rw [traverseCurrentBuckets, run_get_bind]
      dsimp only
      rw [ends_bind]
      refine (traverseLoop_free _ _ d₁).mono ?_ ?_
      · rintro r _ ⟨rfl, hr⟩
        cases r with
        | some q =>
            obtain ⟨hq, hfree⟩ := hr q rfl
            exact ⟨_, h, hq, hfree, rfl⟩
        | none =>
            dsimp only
            split
            · exact fun _ _ => h
            · rw [ends_bind]
              exact (tryCreateStep_keepsUsed _).mono (fun _ d' hs => ih (h.trans hs))
                (fun e d' he u hu => h.trans (he u hu))
      · rintro e _ rfl u _
        exact h

theorem bucketIxAllocSteps_took (d : DataShm) :
    Ends (bucketIxAllocSteps d) (fun ix d' => ∃ q, q.localIx = ix ∧ TookStep d d' q)
      (fun e d' => ∀ u, e = .exit u → KeepsUsed d d') := by
  have hsearch : ∀ d₁, KeepsUsed d d₁ → Ends ((do
      let q ← traverseCurrentBuckets (maxDataBucketsSteps + 1)
      return q.localIx : Op DataShm Nat) d₁)
        (fun ix d' => ∃ q, q.localIx = ix ∧ TookStep d d' q)
        (fun e d' => ∀ u, e = .exit u → KeepsUsed d d') := by
    intro d₁ h
    rw [ends_bind]
    exact (traverseCurrentBuckets_took _ h).mono (fun q d' ht => ⟨q, rfl, ht⟩) (fun _ _ he => he)
  have hreduced : ∀ d₁, d₁.bucket = d.bucket → d₁.dbucketSteps = d.dbucketSteps → Ends ((do
      if d.dbucketsInUse = dataBucketsStep * d.dbucketSteps then tryCreateStep d.dbucketSteps
      let q ← traverseCurrentBuckets (maxDataBucketsSteps + 1)
      return q.localIx : Op DataShm Nat) d₁)
        (fun ix d' => ∃ q, q.localIx = ix ∧ TookStep d d' q)
        (fun e d' => ∀ u, e = .exit u → KeepsUsed d d') := by
    intro d₁ hbucket hsteps
    have h : KeepsUsed d d₁ := .of_eq hsteps hbucket
    rw [run_ite]
    split
    · rw [ends_bind, ← hsteps]
      exact (tryCreateStep_keepsUsed d₁).mono (fun _ d' hs => hsearch d' (h.trans hs))
        (fun e d' he u hu => h.trans (he u hu))
    · exact hsearch d₁ h
  rw [bucketIxAllocSteps, allocSteps, run_get_bind, run_ite]
  split
  · exact fun _ _ => .refl _
  · dsimp only
    rw [run_modify_bind]
    refine hreduced _ ?_ ?_
    · split
      · rfl
      · rfl
    · split
      · rfl
      · rfl

/-! All methods. -/

theorem getFreeDbucketIx_picks (m : AllocMethod) (ncores core rand : Nat) (s : DataCores) :
    Ends (getFreeDbucketIx m ncores core rand s) (fun ix s' => Picks s.data s'.data ix)
      (fun e s' => ∀ u, e = .exit u → KeepsUsed s.data s'.data) := by
  cases m with
  | steps =>
      change Ends (onBuckets bucketIxAllocSteps s) _ _
      rw [onBuckets, ends_zoom]
      refine (bucketIxAllocSteps_took s.data).mono ?_ (fun _ _ he => he)
      rintro _ d' ⟨q, rfl, ht⟩
      exact ht.picks
  | allRandom =>
      change Ends (onBuckets (bucketIxAllocAllRandom rand) s) _ _
      rw [bucketIxAllocAllRandom_eq]
      exact allocAllRandom_picks rand s
  | allRoughInd => exact allocAllRoughInd_picks s
  | allPerCoreRandom => exact allocAllPerCoreRandom_picks ncores core rand s
  | allPerCoreRoughInd => exact allocAllPerCoreRoughInd_picks ncores core s

theorem ends_withoutCores {cri : Nat → Nat} {x : Op DataCores α} {Q : α → DataShm → Prop}
    {E : Halt → DataShm → Prop} :
    Ends (withoutCores cri x d) Q E ↔
      Ends (x ⟨d, cri⟩) (fun a s => Q a s.data) (fun e s => E e s.data) := by
  unfold withoutCores
  cases x ⟨d, cri⟩ with
  | ok a s => exact Iff.rfl
  | error e s => exact Iff.rfl

theorem drawnAlloc_picks (m : AllocMethod) (ncores draw : Nat) (d : DataShm) :
    PickEnds d (drawnAlloc m ncores draw d) :=
  ends_withoutCores.mpr (getFreeDbucketIx_picks m ncores _ _ ⟨d, _⟩)

/-- The result and the data segment that an allocator leaves. -/
def dataResult : EStateM.Result Halt DataCores α → EStateM.Result Halt DataShm α
  | .ok a s => .ok a s.data
  | .error e s => .error e s.data

theorem dataResult_onBuckets {x : Op DataShm α} {k : α → Op DataCores α} {s s' : DataCores}
    (hdata : s'.data = s.data)
    (hk : ∀ a d', dataResult (k a { s' with data := d' }) = dataResult (k a { s with data := d' })) :
    dataResult ((onBuckets x >>= k) s') = dataResult ((onBuckets x >>= k) s) := by
  cases hrun : x s.data with
  | ok a d' =>
      rw [bind_of_ok (onBuckets_of_ok hrun), bind_of_ok (onBuckets_of_ok (hdata ▸ hrun))]
      exact hk a d'
  | error e d' =>
      rw [bind_of_error (onBuckets_of_error hrun), bind_of_error (onBuckets_of_error (hdata ▸ hrun))]
      rfl

/-- What the cores have remembered matters to the last method only, and there only the
place of the core in question. -/
theorem getFreeDbucketIx_cores (m : AllocMethod) (d : DataShm) {cri cri' : Nat → Nat}
    (hcore : m = .allPerCoreRoughInd → cri' core = cri core) :
    dataResult (getFreeDbucketIx m ncores core rand ⟨d, cri'⟩) =
      dataResult (getFreeDbucketIx m ncores core rand ⟨d, cri⟩) := by
  have hbuckets : ∀ x : Op DataShm Nat, dataResult (onBuckets x ⟨d, cri'⟩) =
      dataResult (onBuckets x ⟨d, cri⟩) := by
    intro x
    have hpure : dataResult ((onBuckets x >>= pure) ⟨d, cri'⟩) =
        dataResult ((onBuckets x >>= pure) ⟨d, cri⟩) :=
      dataResult_onBuckets rfl (fun _ _ => rfl)
    rwa [bind_pure] at hpure
  cases m with
  | steps => exact hbuckets _
  | allRandom => exact hbuckets _
  | allRoughInd =>
      change dataResult (allocAllRoughInd id _) = dataResult (allocAllRoughInd id _)
      rw [allocAllRoughInd, run_modify_bind, run_modify_bind, run_get_bind, run_get_bind]
      by_cases hover : d.dbucketRoughIndex ≥ totBuckets
      · rw [if_pos hover, if_pos hover]
        exact dataResult_onBuckets rfl (fun _ _ => rfl)
      · rw [if_neg hover, if_neg hover]
        exact dataResult_onBuckets rfl (fun _ _ => rfl)
  | allPerCoreRandom =>
      change dataResult (allocAllPerCoreRandom id _ _ _ _) =
        dataResult (allocAllPerCoreRandom id _ _ _ _)
      rw [allocAllPerCoreRandom, run_ite, run_ite]
      split
      · rfl
      · exact dataResult_onBuckets rfl (fun _ _ => rfl)
  | allPerCoreRoughInd =>
      have hsame := hcore rfl
      change dataResult (allocAllPerCoreRoughInd id _ _ _) =
        dataResult (allocAllPerCoreRoughInd id _ _ _)
      rw [allocAllPerCoreRoughInd, run_ite, run_ite]
      split
      · rfl
      · dsimp only
        rw [run_modify_bind, run_modify_bind, run_get_bind, run_get_bind]
        dsimp only
        by_cases hover : cri core ≥ bktsPerCore ncores
        · rw [if_pos hover, if_pos (hsame ▸ hover), DataCores.setCoreRoughInd,
            DataCores.setCoreRoughInd]
          dsimp only
          rw [hsame, Function.update_self, Function.update_self]
          exact dataResult_onBuckets rfl (fun _ _ => rfl)
        · rw [if_neg hover, if_neg (hsame ▸ hover)]
          dsimp only
          rw [hsame]
          exact dataResult_onBuckets rfl (fun _ _ => rfl)

/-- Every allocation, on any core and whatever has been drawn or remembered, is one of
the build. -/
theorem exists_draw (m : AllocMethod) (hcore : core < ncores) (rand : Nat) (s : DataCores) :
    ∃ draw, drawnAlloc m ncores draw s.data =
      dataResult (getFreeDbucketIx m ncores core rand s) := by
  have hdraw : ∀ x : Nat, (x * ncores + core) % ncores = core ∧ (x * ncores + core) / ncores = x := by
    intro x
    rw [Nat.mul_comm]
    exact ⟨by rw [Nat.mul_add_mod, Nat.mod_eq_of_lt hcore],
      by rw [Nat.mul_add_div (by omega), Nat.div_eq_of_lt hcore, Nat.add_zero]⟩
  have hdrawn : ∀ x, drawnAlloc m ncores (x * ncores + core) s.data =
      dataResult (getFreeDbucketIx m ncores core x ⟨s.data, fun _ => x⟩) := by
    intro x
    obtain ⟨hmod, hdiv⟩ := hdraw x
    rw [drawnAlloc, hmod, hdiv]
    rfl
  by_cases hm : m = .allPerCoreRoughInd
  · subst hm
    refine ⟨_, (hdrawn (s.coreRoughInd core)).trans ?_⟩
    exact getFreeDbucketIx_cores _ s.data (fun _ => rfl)
  · refine ⟨_, (hdrawn rand).trans ?_⟩
    exact getFreeDbucketIx_cores m s.data (fun h => absurd h hm)

/-! Allocation under a test. -/

/-- The build whose calls stop when the allocator returns a bucket that does not pass a
test, or lies in no step. -/
def Build.refusing (b : Build) (fit : DataBucket → Bool) : Build :=
  { b with getFreeDbucketIx := fun draw => do
      let ix ← b.getFreeDbucketIx draw
      let d ← get
      if ix < d.numBuckets ∧ fit (d.bucket ix) then return ix else throw .undefined }

theorem drawnAlloc_steps (ncores draw : Nat) (d : DataShm) :
    Ends (drawnAlloc .steps ncores draw d)
      (fun ix d' => ix < d'.numBuckets → (d'.bucket ix).nextIx = noIx ∧ (d'.bucket ix).bytes = 0)
      (fun _ _ => True) := by
  rw [drawnAlloc, ends_withoutCores]
  change Ends (onBuckets bucketIxAllocSteps _) _ _
  rw [onBuckets, ends_zoom]
  refine (bucketIxAllocSteps_took d).mono ?_ (fun _ _ _ => trivial)
  rintro _ d' ⟨q, rfl, ht⟩ hlt
  exact ht.cleared hlt

/-- The method in steps passes every test that a bucket without link and bytes passes, but for
the numbers that lie in no step. -/
theorem steps_refusing {fit : DataBucket → Bool} (ncores : Nat)
    (hfit : ∀ db, db.nextIx = noIx → db.bytes = 0 → fit db = true) :
    (truncFreeBuild .steps ncores).refusing fit =
      (truncFreeBuild .steps ncores).refusing (fun _ => true) := by
  unfold Build.refusing
  congr 1
  funext draw d
  change (drawnAlloc .steps ncores draw >>= fun ix => get >>= fun d => _) d =
    (drawnAlloc .steps ncores draw >>= fun ix => get >>= fun d => _) d
  have hends := drawnAlloc_steps ncores draw d
  cases hrun : drawnAlloc .steps ncores draw d with
  | error e d' => rw [bind_of_error hrun, bind_of_error hrun]
  | ok ix d' =>
      rw [hrun] at hends
      rw [bind_of_ok hrun, bind_of_ok hrun, run_get_bind, run_get_bind]
      by_cases hlt : ix < d'.numBuckets
      · obtain ⟨hnext, hbytes⟩ := hends hlt
        rw [hfit _ hnext hbytes]
      · rw [if_neg (fun h => hlt h.1), if_neg (fun h => hlt h.1)]

theorem refusing_handed {fit : DataBucket → Bool} (m : AllocMethod) (ncores draw : Nat)
    (d : DataShm) :
    Ends (((truncFreeBuild m ncores).refusing fit).getFreeDbucketIx draw d)
      (fun ix d' => Handed d d' ix ∧ fit (d'.bucket ix) = true)
      (fun e d' => ∀ u, e = .exit u → KeepsUsed d d') := by
  change Ends ((drawnAlloc m ncores draw >>= fun ix => get >>= fun d => _) d) _ _
  rw [ends_bind]
  refine (drawnAlloc_picks m ncores draw d).mono (fun ix d' hp => ?_) (fun _ _ he => he)
  rw [run_get_bind, run_ite]
  split
  · next hfit => exact ⟨⟨hp.toKeepsUsed, (hp.picked hfit.1).1, (hp.picked hfit.1).2⟩, hfit.2⟩
  · exact fun u hu => by cases hu

end Spacefish
