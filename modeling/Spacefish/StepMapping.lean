import Spacefish.Data
import Spacefish.Lib.Ends

/-!
The steps that a process has mapped, and `get_dbucket_ptr` of `data_shm.c` with its
search for the first unmapped one. A bucket is found in the shared segment of its step
whatever the process has mapped before, so that the access by index of the data
segment is what every process computes.
-/

namespace Spacefish

open Program

/-- The message with which the process ends, or a pointer without an object behind it. -/
inductive MapStop where
  | shmOpen
  | stepNotYetCreated
  | undefined
  deriving DecidableEq, Repr

/-- A pointer to an entry of a shared segment. -/
structure DbucketPtr where
  segment : Nat
  entry : Nat
  deriving DecidableEq, Repr

/-- What `get_dbucket_ptr` works on: the shm objects of the steps, `dbucket_steps`, and
the array `data_steps` of the process, an entry of which is NULL or a mapping of a
segment. `opened` records the arguments of `open_map_datastep`. -/
structure StepMap where
  shm : Int → Option Nat
  dbucketSteps : Nat
  dataSteps : Nat → Option Nat
  opened : List Int

section

variable (maxSteps : Nat)

/-- `open_map_datastep`, with an array of `maxSteps` entries. -/
def openMapDatastep (index : Int) : EStateM MapStop StepMap Unit := do
  modify (fun s => { s with opened := s.opened ++ [index] })
  let s ← get
  match s.shm index with
  | none => throw .shmOpen
  | some g =>
      if 0 ≤ index ∧ index < maxSteps then
        modify (fun s => { s with dataSteps := Function.update s.dataSteps index.toNat (some g) })
      else throw .undefined

/-- The loop that looks for the first entry that is NULL: `n` entries from `i` on are left. -/
def firstNull (dataSteps : Nat → Option Nat) : Nat → Nat → Nat
  | 0, i => i
  | n + 1, i => if dataSteps i = none then i else firstNull dataSteps n (i + 1)

/-- The loop that maps `n` steps from `i` on. -/
def mapSteps : Nat → Int → EStateM MapStop StepMap Unit
  | 0, _ => return ()
  | n + 1, i => do
      openMapDatastep maxSteps i
      mapSteps n (i + 1)

/-- `get_dbucket_ptr`, for `MAX_DATA_BUCKETS_STEPS` equal to `maxSteps`. -/
def mappedDbucketPtr (ix : Nat) : EStateM MapStop StepMap DbucketPtr := do
  let s ← get
  let stepNum := ix / dataBucketsStep
  if (stepNum : Int) > s.dbucketSteps - 1 then throw .stepNotYetCreated
  match s.dataSteps stepNum with
  | some g => return ⟨g, ix % dataBucketsStep⟩
  | none =>
      let i : Int := firstNull s.dataSteps maxSteps 0 - 1
      mapSteps maxSteps (s.dbucketSteps - i).toNat i
      let s ← get
      match s.dataSteps stepNum with
      | some g => return ⟨g, ix % dataBucketsStep⟩
      | none => throw .undefined

end

/-- Every created step has its shm object, and the process has mapped the objects of
some steps, among them the first. -/
structure StepMapWf (maxSteps : Nat) (s : StepMap) : Prop where
  pos : 0 < s.dbucketSteps
  le : s.dbucketSteps ≤ maxSteps
  created : ∀ i < s.dbucketSteps, ∃ g, s.shm i = some g
  mapped : ∀ i g, s.dataSteps i = some g → s.shm i = some g
  first : s.dataSteps 0 ≠ none

/-- What a part of the call does to the process: it maps created steps, and what was mapped
stays mapped to the same segment. -/
structure Remapped (s s' : StepMap) : Prop where
  shm : s'.shm = s.shm
  steps : s'.dbucketSteps = s.dbucketSteps
  mapped : ∀ i g, s'.dataSteps i = some g → s.shm i = some g
  keeps : ∀ i, s.dataSteps i ≠ none → s'.dataSteps i = s.dataSteps i
  opened : ∃ l, s'.opened = s.opened ++ l ∧ ∀ k ∈ l, 0 ≤ k ∧ k < s.dbucketSteps

variable {maxSteps : Nat} {s s' s'' : StepMap}

theorem Remapped.refl (wf : StepMapWf maxSteps s) : Remapped s s :=
  ⟨rfl, rfl, wf.mapped, fun _ _ => rfl, [], by simp, fun _ hk => by cases hk⟩

theorem Remapped.trans (h : Remapped s s') (h' : Remapped s' s'') : Remapped s s'' := by
  obtain ⟨l, hl, hin⟩ := h.opened
  obtain ⟨l', hl', hin'⟩ := h'.opened
  refine ⟨h'.shm.trans h.shm, h'.steps.trans h.steps, fun i g hg => ?_, fun i hi => ?_,
    l ++ l', by rw [hl', hl, List.append_assoc], fun k hk => ?_⟩
  · rw [← h.shm]
    exact h'.mapped i g hg
  · have hkeep := h.keeps i hi
    exact (h'.keeps i (by rwa [hkeep])).trans hkeep
  · rcases List.mem_append.mp hk with hk | hk
    · exact hin k hk
    · rw [← h.steps]
      exact hin' k hk

theorem StepMapWf.remapped (wf : StepMapWf maxSteps s) (h : Remapped s s') :
    StepMapWf maxSteps s' := by
  refine ⟨h.steps ▸ wf.pos, h.steps ▸ wf.le, fun i hi => ?_, fun i g hg => ?_, ?_⟩
  · rw [h.shm]
    exact wf.created i (h.steps ▸ hi)
  · rw [h.shm]
    exact h.mapped i g hg
  · rw [h.keeps 0 wf.first]
    exact wf.first

/-- The process after it has mapped the segment `g` as step `i`. -/
def StepMap.mapStep (s : StepMap) (i g : Nat) : StepMap :=
  { s with dataSteps := Function.update s.dataSteps i (some g), opened := s.opened ++ [(i : Int)] }

theorem openMapDatastep_eq {i g : Nat} (hi : i < maxSteps) (hg : s.shm i = some g) :
    openMapDatastep maxSteps i s = .ok () (s.mapStep i g) := by
  have hin : (0 : Int) ≤ i ∧ (i : Int) < maxSteps := by omega
  rw [openMapDatastep, run_modify_bind, run_get_bind]
  simp only [hg]
  rw [run_ite, if_pos hin]
  rfl

/-- One step is mapped, perhaps once more. -/
theorem openMapDatastep_ends (wf : StepMapWf maxSteps s) {i : Nat} (hi : i < s.dbucketSteps) :
    Ends (openMapDatastep maxSteps i s) (fun _ s' => Remapped s s' ∧ s'.dataSteps i ≠ none)
      (fun _ _ => False) := by
  obtain ⟨g, hg⟩ := wf.created i hi
  have hself : (s.mapStep i g).dataSteps i = some g := Function.update_self ..
  have hother : ∀ j, j ≠ i → (s.mapStep i g).dataSteps j = s.dataSteps j :=
    fun j hj => Function.update_of_ne hj ..
  rw [openMapDatastep_eq (Nat.lt_of_lt_of_le hi wf.le) hg, ends_ok]
  refine ⟨⟨rfl, rfl, fun j a ha => ?_, fun j hj => ?_, [(i : Int)], rfl, fun k hk => ?_⟩, ?_⟩
  · by_cases hji : j = i
    · subst hji
      rw [hself] at ha
      exact hg.trans ha
    · rw [hother j hji] at ha
      exact wf.mapped j a ha
  · by_cases hji : j = i
    · subst hji
      obtain ⟨a, ha⟩ := Option.ne_none_iff_exists'.mp hj
      rw [hself, ha, ← hg]
      exact wf.mapped j a ha
    · exact hother j hji
  · obtain rfl : k = i := by simpa using hk
    omega
  · rw [hself]
    simp

/-- The loop maps every step from `i` on. -/
theorem mapSteps_ends (wf : StepMapWf maxSteps s) {n i : Nat} (hn : i + n ≤ s.dbucketSteps) :
    Ends (mapSteps maxSteps n i s)
      (fun _ s' => Remapped s s' ∧ ∀ k, i ≤ k → k < i + n → s'.dataSteps k ≠ none)
      (fun _ _ => False) := by
  induction n generalizing i s with
  | zero => exact ⟨.refl wf, fun k h₁ h₂ => by omega⟩
  | succ n ih =>
      rw [mapSteps, ends_bind]
      refine (openMapDatastep_ends wf (i := i) (by omega)).mono ?_ (fun _ _ he => he)
      rintro u s₁ ⟨hmap, hi⟩
      have hrest := ih (wf.remapped hmap) (i := i + 1) (by rw [hmap.steps]; omega)
      rw [show ((i : Int) + 1) = ((i + 1 : Nat) : Int) from rfl]
      refine hrest.mono ?_ (fun _ _ he => he)
      rintro u s₂ ⟨hmap', hall⟩
      refine ⟨hmap.trans hmap', fun k h₁ h₂ => ?_⟩
      by_cases hki : k = i
      · subst hki
        rw [hmap'.keeps k hi]
        exact hi
      · exact hall k (by omega) (by omega)

/-- The search ends at or before every entry that is NULL. -/
theorem firstNull_spec {steps : Nat → Option Nat} {n i k : Nat} (hik : i ≤ k) (hk : k < i + n)
    (hnull : steps k = none) : i ≤ firstNull steps n i ∧ firstNull steps n i ≤ k := by
  induction n generalizing i with
  | zero => omega
  | succ n ih =>
      rw [firstNull]
      split
      · exact ⟨Nat.le_refl i, hik⟩
      · next hi =>
          have hne : i ≠ k := by
            rintro rfl
            exact hi hnull
          have hrest := ih (i := i + 1) (by omega) (by omega)
          omega

theorem firstNull_pos {steps : Nat → Option Nat} {k : Nat} (hk : k < maxSteps)
    (hfirst : steps 0 ≠ none) (hnull : steps k = none) :
    1 ≤ firstNull steps maxSteps 0 ∧ firstNull steps maxSteps 0 ≤ k := by
  cases maxSteps with
  | zero => omega
  | succ n =>
      rw [firstNull, if_neg hfirst]
      have hne : k ≠ 0 := by
        rintro rfl
        exact hfirst hnull
      exact firstNull_spec (i := 0 + 1) (by omega) (by omega) hnull

/-- An index in a created step gives the entry of the shared segment of that step. -/
theorem mappedDbucketPtr_created (wf : StepMapWf maxSteps s) {ix : Nat}
    (hix : ix / dataBucketsStep < s.dbucketSteps) :
    ∃ g s', mappedDbucketPtr maxSteps ix s = .ok ⟨g, ix % dataBucketsStep⟩ s' ∧ Remapped s s' ∧
      s'.dataSteps (ix / dataBucketsStep) = some g := by
  have hpass : ¬ ((ix / dataBucketsStep : Nat) : Int) > (s.dbucketSteps : Int) - 1 := by omega
  rw [mappedDbucketPtr, run_get_bind]
  simp only [if_neg hpass]
  cases hstep : s.dataSteps (ix / dataBucketsStep) with
  | some g => exact ⟨g, s, rfl, .refl wf, hstep⟩
  | none =>
      have hlt : ix / dataBucketsStep < maxSteps := Nat.lt_of_lt_of_le hix wf.le
      obtain ⟨hpos, hnull⟩ := firstNull_pos hlt wf.first hstep
      generalize firstNull s.dataSteps maxSteps 0 = i at hpos hnull
      obtain ⟨j, rfl⟩ : ∃ j, i = j + 1 := ⟨i - 1, by omega⟩
      have hends := mapSteps_ends wf (n := s.dbucketSteps - j) (i := j) (by omega)
      have hfrom : ((j + 1 : Nat) : Int) - 1 = j := by omega
      have hcount : ((s.dbucketSteps : Int) - j).toNat = s.dbucketSteps - j := by omega
      rw [hfrom, hcount]
      cases hrun : mapSteps maxSteps (s.dbucketSteps - j) j s with
      | error e s' =>
          rw [hrun] at hends
          exact hends.elim
      | ok u s' =>
          rw [hrun] at hends
          obtain ⟨hmap, hall⟩ := hends
          obtain ⟨g, hg⟩ := Option.ne_none_iff_exists'.mp
            (hall (ix / dataBucketsStep) (by omega) (by omega))
          refine ⟨g, s', ?_, hmap, hg⟩
          change (mapSteps maxSteps (s.dbucketSteps - j) j >>= _) s = _
          rw [bind_of_ok hrun, run_get_bind, hg]
          rfl

theorem mappedDbucketPtr_beyond {ix : Nat} (hix : s.dbucketSteps ≤ ix / dataBucketsStep) :
    mappedDbucketPtr maxSteps ix s = .error .stepNotYetCreated s := by
  have hstop : ((ix / dataBucketsStep : Nat) : Int) > (s.dbucketSteps : Int) - 1 := by omega
  rw [mappedDbucketPtr, run_get_bind]
  simp only [if_pos hstop]
  rfl

/-- Whatever the process has mapped besides the first step, an index of a created bucket
gives the entry of the shared segment of its step, which is mapped then; only created
steps are opened, and no mapped one goes to another segment. Any larger index ends the
process and leaves `data_steps` alone. -/
theorem dbucketPtr_resolves (wf : StepMapWf maxSteps s) (ix : Nat) :
    (ix < dataBucketsStep * s.dbucketSteps →
      ∃ g s', mappedDbucketPtr maxSteps ix s = .ok ⟨g, ix % dataBucketsStep⟩ s' ∧
        s.shm (ix / dataBucketsStep : Nat) = some g ∧
        s'.dataSteps (ix / dataBucketsStep) = some g ∧
        (∃ l, s'.opened = s.opened ++ l ∧ ∀ k ∈ l, 0 ≤ k ∧ k < s.dbucketSteps) ∧
        ∀ i g, s.dataSteps i = some g → s'.dataSteps i = some g) ∧
      (dataBucketsStep * s.dbucketSteps ≤ ix →
        mappedDbucketPtr maxSteps ix s = .error .stepNotYetCreated s) := by
  have hstep : 0 < dataBucketsStep := by decide
  refine ⟨fun hix => ?_, fun hix => ?_⟩
  · obtain ⟨g, s', hrun, hmap, hg⟩ := mappedDbucketPtr_created wf (Nat.div_lt_of_lt_mul hix)
    refine ⟨g, s', hrun, hmap.mapped _ g hg, hg, hmap.opened, fun i a ha => ?_⟩
    rw [hmap.keeps i (by simp [ha]), ha]
  · exact mappedDbucketPtr_beyond ((Nat.le_div_iff_mul_le hstep).mpr (by rwa [Nat.mul_comm]))

/-- Four created steps, of which a process has mapped the first and the third. -/
def holeMap : StepMap :=
  { shm := fun i => if 0 ≤ i ∧ i < 4 then some (i.toNat + 10) else none
    dbucketSteps := 4
    dataSteps := fun i => if i = 0 ∨ i = 2 then some (i + 10) else none
    opened := [] }

theorem holeMap_wf : StepMapWf 4 holeMap := by
  refine ⟨by decide, by decide, fun i hi => ?_, fun i g hg => ?_, by decide⟩
  · have hin : (0 : Int) ≤ i ∧ (i : Int) < 4 := by
      have : i < 4 := hi
      omega
    exact ⟨_, if_pos hin⟩
  · simp only [holeMap] at hg ⊢
    split at hg
    · next hi =>
        rw [if_pos (by omega), Int.toNat_natCast]
        exact hg
    · cases hg

theorem holeMap_resolves :
    ∃ g s', mappedDbucketPtr 4 (3 * dataBucketsStep + 5) holeMap =
        .ok ⟨g, (3 * dataBucketsStep + 5) % dataBucketsStep⟩ s' ∧
      holeMap.shm ((3 * dataBucketsStep + 5) / dataBucketsStep : Nat) = some g ∧
      s'.dataSteps ((3 * dataBucketsStep + 5) / dataBucketsStep) = some g ∧
      (∃ l, s'.opened = holeMap.opened ++ l ∧ ∀ k ∈ l, 0 ≤ k ∧ k < holeMap.dbucketSteps) ∧
      ∀ i g, holeMap.dataSteps i = some g → s'.dataSteps i = some g :=
  (dbucketPtr_resolves holeMap_wf (3 * dataBucketsStep + 5)).1 (by decide)

/-! The data segment that all processes share. -/

/-- The buckets of the data segment `d` are the entries of the segments of the steps. -/
structure SharedAs (s : StepMap) (entries : Nat → Nat → DataBucket) (d : DataShm) : Prop where
  steps : d.dbucketSteps = s.dbucketSteps
  bucket : ∀ k g j, s.shm (k : Nat) = some g → j < dataBucketsStep →
    d.bucket (dataBucketsStep * k + j) = entries g j

/-- The pointer that a process gets stands at the bucket that the access by index
returns, and both end the process at the same indices. -/
theorem getDbucketPtr_mapped (wf : StepMapWf maxSteps s) {entries : Nat → Nat → DataBucket}
    {d : DataShm} (hd : SharedAs s entries d) (ix : Nat) :
    (∃ p s', mappedDbucketPtr maxSteps ix s = .ok p s' ∧
        getDbucketPtr ix d = .ok (entries p.segment p.entry) d) ∨
      mappedDbucketPtr maxSteps ix s = .error .stepNotYetCreated s ∧
        getDbucketPtr ix d = .error (.exit .stepNotYetCreated) d := by
  by_cases hix : ix / dataBucketsStep < s.dbucketSteps
  · obtain ⟨g, s', hrun, hmap, hg⟩ := mappedDbucketPtr_created wf hix
    refine Or.inl ⟨_, s', hrun, ?_⟩
    have hbucket := hd.bucket _ g (ix % dataBucketsStep) (hmap.mapped _ g hg)
      (Nat.mod_lt _ (by decide))
    rw [Nat.div_add_mod] at hbucket
    rw [getDbucketPtr, run_get_bind, if_neg (by rw [hd.steps]; omega)]
    exact congrArg (EStateM.Result.ok · d) hbucket
  · refine Or.inr ⟨mappedDbucketPtr_beyond (by omega), ?_⟩
    rw [getDbucketPtr, run_get_bind, if_pos (by rw [hd.steps]; omega)]
    rfl

end Spacefish
