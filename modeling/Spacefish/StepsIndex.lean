import Spacefish.StepsAllocator

/-!
The index that allocation in steps returns. The search runs from the rough index
through the numbers above it and reduces them to buckets; the call by index
returns the number itself. It names the bucket that was marked as long as the
search does not pass the last bucket.
-/

namespace Spacefish

open Program

variable {d : DataShm} {k n : Nat}

/-- The call by index returns the bucket it has marked, which is the one that the
call by pointer returns; it fails in a full store only. -/
def ReturnsMarked (d : DataShm) : Prop :=
  match bucketIxAllocSteps d with
  | .ok ix d' =>
      ix < d'.numBuckets ∧ dbucketPtr ix d' = .ok (dataStepsPtr ix) d' ∧
        (d.bucket ix).inUse = false ∧ (d'.bucket ix).inUse = true ∧
        (∀ b, b ≠ ix → (d'.bucket b).inUse = (d.bucket b).inUse) ∧
        ∃ d'', bucketPtrAllocSteps d = .ok (dataStepsPtr ix) d''
  | .error e _ => e = .exit .dataBucketOverUse ∧ DataFull d

/-- The search does not pass the last bucket: some bucket from the rough index on is
free, or all are in use and the rough index lies before the end of the step that is
created. -/
def NoWrap (d : DataShm) : Prop :=
  (∃ b, hint d ≤ b ∧ b < d.numBuckets ∧ (d.bucket b).inUse = false) ∨
  ((∀ b < d.numBuckets, (d.bucket b).inUse = true) ∧
    (d.dbucketSteps = maxDataBucketsSteps ∨ hint d < d.numBuckets + dataBucketsStep))

theorem searched_num_of_all (hall : d.dbucketsInUse = d.numBuckets) :
    d.searched.numBuckets = d.numBuckets + dataBucketsStep := by
  rw [DataShm.numBuckets, searched_steps, if_pos hall, Nat.mul_succ]
  rfl

theorem searched_num_of_some (hnot : d.dbucketsInUse ≠ d.numBuckets) :
    d.searched.numBuckets = d.numBuckets := by
  rw [DataShm.numBuckets, searched_steps, if_neg hnot]
  rfl

/-- Where the first free round lies. -/
theorem CountedSteps.noWrap_iff (hd : CountedSteps d) (hnot : ¬ DataFull d)
    (hk : k < d.searched.numBuckets) (hfree : (d.bucket (d.round k).bucket).inUse = false)
    (hbefore : ∀ j < k, (d.bucket (d.round j).bucket).inUse = true) :
    NoWrap d ↔ hint d + k < d.searched.numBuckets := by
  have hd' := hd.searched hnot
  -- a free bucket at or behind the hint is not passed
  have hstop : ∀ b, hint d ≤ b → b < d.searched.numBuckets → (d.bucket b).inUse = false →
      hint d + k ≤ b := by
    intro b hlow hhigh hb
    by_contra hgt
    have hround := hbefore (b - hint d) (by omega)
    rw [hd'.round_bucket (by omega), Nat.add_sub_cancel' hlow, Nat.mod_eq_of_lt hhigh, hb] at hround
    cases hround
  constructor
  · rintro (⟨b, hlow, hhigh, hb⟩ | ⟨hall, hmax | hlt⟩)
    · have hnum : d.searched.numBuckets = d.numBuckets := searched_num_of_some (fun heq => by
        rw [hd.all_inUse_iff.mp heq b hhigh] at hb
        cases hb)
      have := hstop b hlow (by omega) hb
      omega
    · refine absurd (hd.full_iff.mp ?_) hnot
      rw [hd.all_inUse_iff.mpr hall, DataShm.numBuckets, hmax]
      rfl
    · have hnum := searched_num_of_all (hd.all_inUse_iff.mpr hall)
      have hpos : 0 < dataBucketsStep := by decide
      by_cases hin : hint d < d.numBuckets
      · have := hstop d.numBuckets (by omega) (by omega) (hd.outside _ (Nat.le_refl _))
        omega
      · have := hstop (hint d) (Nat.le_refl _) (by omega) (hd.outside _ (by omega))
        omega
  · intro hlt
    rw [hd'.round_bucket hk, Nat.mod_eq_of_lt hlt] at hfree
    by_cases hall : d.dbucketsInUse = d.numBuckets
    · rw [searched_num_of_all hall] at hlt
      exact Or.inr ⟨hd.all_inUse_iff.mp hall, Or.inr (by omega)⟩
    · rw [searched_num_of_some hall] at hlt
      exact Or.inl ⟨hint d + k, by omega, hlt, hfree⟩

theorem CountedSteps.noWrap_of_full (hd : CountedSteps d) (hfull : DataFull d) : NoWrap d := by
  refine Or.inr ⟨fun b hb => hfull b (Nat.lt_of_lt_of_le hb hd.numBuckets_le), Or.inl ?_⟩
  by_contra hne
  have hlt : d.numBuckets < totBuckets :=
    Nat.mul_lt_mul_of_pos_left (Nat.lt_of_le_of_ne hd.le hne) (by decide)
  have huse := hfull d.numBuckets hlt
  rw [hd.outside _ (Nat.le_refl _)] at huse
  cases huse

theorem CountedSteps.returnsMarked_iff (hd : CountedSteps d) : ReturnsMarked d ↔ NoWrap d := by
  by_cases hfull : DataFull d
  · unfold ReturnsMarked
    rw [bucketIxAllocSteps, allocSteps_full hd hfull]
    exact ⟨fun _ => hd.noWrap_of_full hfull, fun _ => ⟨rfl, hfull⟩⟩
  · obtain ⟨k, hk, hfree, hbefore, hrun⟩ := allocSteps_eq hd hfull
    have hd' := hd.searched hfull
    have hix := hd'.round_localIx hk
    rw [hd.noWrap_iff hfull hk hfree hbefore]
    unfold ReturnsMarked
    rw [bucketIxAllocSteps, hrun, hix]
    refine ⟨fun h => h.1, fun hlt => ⟨hlt, ?_, ?_, ?_, ?_, ?_⟩⟩
    · have hstep : ¬ (hint d + k) / dataBucketsStep ≥
          (d.searched.takeStep (d.round k)).dbucketSteps :=
        Nat.not_le.mpr (Nat.div_lt_of_lt_mul hlt)
      rw [dbucketPtr, getDbucketPtr, bind_assoc, run_get_bind, if_neg hstep]
      rfl
    all_goals rw [hd'.round_bucket hk, Nat.mod_eq_of_lt hlt] at hfree
    · exact hfree
    · have hself := takeStep_inUse_self d.searched (d.round k)
      rw [hd'.round_bucket hk, Nat.mod_eq_of_lt hlt] at hself
      exact hself
    · intro b hb
      rw [takeStep_inUse_of_ne (by rw [hd'.round_bucket hk, Nat.mod_eq_of_lt hlt]; exact hb)]
      exact hd.searched_inUse b
    · refine ⟨d.searched.takeStep (d.round k), ?_⟩
      rw [bucketPtrAllocSteps, hrun, hd'.round_bucket hk, Nat.mod_eq_of_lt hlt]

/-- In every state that the calls reach, the index that the call by index returns is
the bucket it has marked exactly when its search does not pass the last bucket. -/
theorem alloc_steps_returns_marked (calls : List StepsCall) :
    ReturnsMarked (stepsAfter calls) ↔ NoWrap (stepsAfter calls) :=
  (stepsAfter_counted calls).returnsMarked_iff

/-! A run that passes it: fill the first step, release its first bucket. -/

/-- The first `n` buckets are in use and the search was last at the last of them. -/
structure FilledTo (d : DataShm) (n : Nat) : Prop extends CountedSteps d where
  oneStep : d.dbucketSteps = 1
  inUse_iff : ∀ b, (d.bucket b).inUse = true ↔ b < n
  roughIndex : d.dbucketRoughIndex = n - 1

theorem FilledTo.next (h : FilledTo d n) (hn : n < dataBucketsStep) :
    FilledTo (StepsCall.ix.run d) (n + 1) := by
  have hd := h.toCountedSteps
  have hnum : d.numBuckets = dataBucketsStep := by rw [DataShm.numBuckets, h.oneStep, Nat.mul_one]
  have hfreen : (d.bucket n).inUse = false := by
    have := mt (h.inUse_iff n).mp (Nat.lt_irrefl n)
    simpa using this
  have hhint : hint d = n - 1 := by
    unfold hint
    rw [h.roughIndex, if_neg]
    unfold totBuckets
    unfold dataBucketsStep at hn
    omega
  have hsome : d.dbucketsInUse ≠ d.numBuckets := fun heq => by
    rw [hd.all_inUse_iff.mp heq n (by omega)] at hfreen
    cases hfreen
  have hnot : ¬ DataFull d := fun hfull => by
    rw [hfull n (by unfold totBuckets; unfold dataBucketsStep at hn; omega)] at hfreen
    cases hfreen
  have hsnum := searched_num_of_some hsome
  have hd' := hd.searched hnot
  obtain ⟨k, hk, hfree, hbefore, hrun⟩ := allocSteps_eq hd hnot
  have hwrap := (hd.noWrap_iff hnot hk hfree hbefore).mp
    (Or.inl ⟨n, by omega, by omega, hfreen⟩)
  rw [hd'.round_bucket hk, Nat.mod_eq_of_lt hwrap] at hfree
  have hge : n ≤ hint d + k := by
    by_contra hlt
    rw [(h.inUse_iff _).mpr (by omega)] at hfree
    cases hfree
  have hplace : hint d + k = n := by
    by_contra hne
    have hround := hbefore (n - hint d) (by omega)
    rw [hd'.round_bucket (by omega), Nat.add_sub_cancel' (by omega),
      Nat.mod_eq_of_lt (by omega), hfreen] at hround
    cases hround
  have hbucket : (d.round k).bucket = n := by
    rw [hd'.round_bucket hk, hplace, Nat.mod_eq_of_lt (by omega)]
  have hafter : StepsCall.ix.run d = d.searched.takeStep (d.round k) := by
    rw [StepsCall.run, bucketIxAllocSteps, hrun]
    rfl
  refine ⟨hd.call .ix, ?_, ?_, ?_⟩
  · rw [hafter]
    change d.searched.dbucketSteps = 1
    rw [searched_steps, if_neg hsome, h.oneStep]
  · intro b
    rw [hafter]
    by_cases hb : b = n
    · subst hb
      have hself := takeStep_inUse_self d.searched (d.round k)
      rw [hbucket] at hself
      simp [hself]
    · rw [takeStep_inUse_of_ne (by rw [hbucket]; exact hb), hd.searched_inUse, h.inUse_iff]
      omega
  · rw [hafter]
    change (d.round k).localIx = n + 1 - 1
    rw [hd'.round_localIx hk, hplace]
    rfl

theorem filledTo (n : Nat) (hn : n ≤ dataBucketsStep) :
    FilledTo (stepsAfter (List.replicate n .ix)) n := by
  induction n with
  | zero =>
      refine ⟨initCores_counted, rfl, fun b => ?_, rfl⟩
      simp [stepsAfter, initCores, initData]
  | succ n ih =>
      have hrep : stepsAfter (List.replicate (n + 1) .ix) =
          StepsCall.ix.run (stepsAfter (List.replicate n .ix)) := by
        rw [List.replicate_succ', stepsAfter, List.foldl_append]
        rfl
      rw [hrep]
      exact (ih (by omega)).next hn

/-- What a release changes. -/
theorem release_left (d : DataShm) (b : Nat) :
    (leftBy (releaseDbucket b d)).dbucketSteps = d.dbucketSteps ∧
      (leftBy (releaseDbucket b d)).dbucketRoughIndex = d.dbucketRoughIndex ∧
      ((leftBy (releaseDbucket b d)).bucket b).inUse = false ∧
      ∀ c, c ≠ b → ((leftBy (releaseDbucket b d)).bucket c).inUse = (d.bucket c).inUse := by
  cases huse : (d.bucket b).inUse with
  | false =>
      rw [release_unused huse]
      exact ⟨rfl, rfl, huse, fun _ _ => rfl⟩
  | true =>
      rw [release_used huse]
      refine ⟨rfl, rfl, ?_, fun c hc => ?_⟩
      · simp [leftBy]
      · simp [leftBy, set_bucket_of_ne _ hc]

theorem FilledTo.release_wraps (h : FilledTo d dataBucketsStep) :
    ¬ NoWrap (StepsCall.run d (.release 0)) := by
  obtain ⟨hsteps, hrough, hzero, hother⟩ := release_left d 0
  have hpos : 1 < dataBucketsStep := by decide
  have hnum : (StepsCall.run d (.release 0)).numBuckets = dataBucketsStep := by
    rw [DataShm.numBuckets, StepsCall.run, hsteps, h.oneStep, Nat.mul_one]
  have hhint : hint (StepsCall.run d (.release 0)) = dataBucketsStep - 1 := by
    rw [hint, StepsCall.run, hrough, h.roughIndex, if_neg (by decide)]
  rintro (⟨b, hlow, hhigh, hb⟩ | ⟨hall, _⟩)
  · rw [hhint] at hlow
    rw [hnum] at hhigh
    rw [StepsCall.run, hother b (by omega), (h.inUse_iff b).mpr hhigh] at hb
    cases hb
  · have huse := hall 0 (by omega)
    rw [StepsCall.run, hzero] at huse
    cases huse

theorem FilledTo.not_returnsMarked {calls : List StepsCall}
    (h : FilledTo (stepsAfter calls) dataBucketsStep) :
    ¬ ReturnsMarked (stepsAfter (calls ++ [.release 0])) := by
  rw [(stepsAfter_counted _).returnsMarked_iff, stepsAfter, List.foldl_append]
  exact h.release_wraps

/-- With the first step full and its first bucket released, the call by index
returns `DATA_BUCKETS_STEP`, which is no bucket of the store. -/
theorem released_behind_hint_wraps :
    ¬ ReturnsMarked (stepsAfter (List.replicate dataBucketsStep .ix ++ [.release 0])) :=
  (filledTo dataBucketsStep (Nat.le_refl _)).not_returnsMarked

end Spacefish
