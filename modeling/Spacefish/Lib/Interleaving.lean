import Mathlib.Data.Finset.Card
import Mathlib.Logic.Relation

/-!
Processes that share a state and run in any interleaving of their atomic steps.
A process has a local state, and one function says what its next step does to
the local and the shared state; the label of a step is what the outside chooses
in it. Runs may be restricted by a condition on the step that is taken next.
-/

namespace Interleaving

variable {ι α σ ε : Type*}

structure Config (ι α σ : Type*) where
  proc : ι → α
  shared : σ

/-- The processes for which `P` holds are finitely many, `n` of them. -/
def Counts (P : ι → Prop) (n : Int) : Prop :=
  ∃ R : Finset ι, (∀ i, i ∈ R ↔ P i) ∧ n = R.card

theorem Counts.zero {P : ι → Prop} (h : Counts P 0) (i : ι) : ¬ P i := by
  obtain ⟨R, hR, hcard⟩ := h
  have hnil : R = ∅ := Finset.card_eq_zero.mp (by omega)
  intro hP
  have hmem := (hR i).mpr hP
  rw [hnil] at hmem
  exact absurd hmem (Finset.notMem_empty i)

theorem Counts.empty {P : ι → Prop} (h : ∀ i, ¬ P i) : Counts P 0 :=
  ⟨∅, fun i => ⟨fun hmem => absurd hmem (Finset.notMem_empty i), fun hP => absurd hP (h i)⟩, rfl⟩

theorem Counts.congr {P Q : ι → Prop} {n : Int} (h : Counts P n) (hPQ : ∀ i, Q i ↔ P i) :
    Counts Q n := by
  obtain ⟨R, hR, hcard⟩ := h
  exact ⟨R, fun i => (hR i).trans (hPQ i).symm, hcard⟩

variable [DecidableEq ι]

theorem Counts.enter {P Q : ι → Prop} {n : Int} {i : ι} (h : Counts P n) (hi : ¬ P i) (hQ : Q i)
    (hother : ∀ j ≠ i, (Q j ↔ P j)) : Counts Q (n + 1) := by
  obtain ⟨R, hR, hcard⟩ := h
  have hmem : i ∉ R := fun hmem => hi ((hR i).mp hmem)
  refine ⟨insert i R, fun j => ?_, by rw [Finset.card_insert_of_notMem hmem]; omega⟩
  rw [Finset.mem_insert]
  by_cases hj : j = i
  · subst hj
    exact ⟨fun _ => hQ, fun _ => Or.inl rfl⟩
  · rw [hother j hj, hR j]
    exact ⟨fun h => h.resolve_left hj, Or.inr⟩

theorem Counts.leave {P Q : ι → Prop} {n : Int} {i : ι} (h : Counts P n) (hi : P i) (hQ : ¬ Q i)
    (hother : ∀ j ≠ i, (Q j ↔ P j)) : Counts Q (n - 1) := by
  obtain ⟨R, hR, hcard⟩ := h
  have hmem : i ∈ R := (hR i).mpr hi
  have hpos := Finset.card_pos.mpr ⟨i, hmem⟩
  refine ⟨R.erase i, fun j => ?_, by rw [Finset.card_erase_of_mem hmem]; omega⟩
  rw [Finset.mem_erase]
  by_cases hj : j = i
  · subst hj
    exact ⟨fun h => absurd rfl h.1, fun h => absurd h hQ⟩
  · rw [hother j hj, hR j]
    exact ⟨And.right, fun h => ⟨hj, h⟩⟩

/-- The configuration after process `i` has taken a step. -/
def Config.move (c : Config ι α σ) (i : ι) (x : α × σ) : Config ι α σ :=
  ⟨Function.update c.proc i x.1, x.2⟩

@[simp] theorem Config.move_self (c : Config ι α σ) (i : ι) (x : α × σ) :
    (c.move i x).proc i = x.1 := Function.update_self ..

theorem Config.move_other (c : Config ι α σ) {i j : ι} (x : α × σ) (hj : j ≠ i) :
    (c.move i x).proc j = c.proc j := Function.update_of_ne hj ..

@[simp] theorem Config.move_shared (c : Config ι α σ) (i : ι) (x : α × σ) :
    (c.move i x).shared = x.2 := rfl

theorem Config.move_move (c : Config ι α σ) (i : ι) (x y : α × σ) :
    (c.move i x).move i y = c.move i y := by
  simp [Config.move]

/-- A property of every process after one of them has moved. -/
theorem Config.forall_move (c : Config ι α σ) {i : ι} {x : α × σ} (P : ι → α → Prop)
    (hself : P i x.1) (hother : ∀ j ≠ i, P j (c.proc j)) : ∀ j, P j ((c.move i x).proc j) := by
  intro j
  by_cases hj : j = i
  · subst hj
    rw [Config.move_self]
    exact hself
  · rw [c.move_other _ hj]
    exact hother j hj

/-- What holds of one process at most still does after a step, when the process that
moves has it for itself. -/
theorem Config.unique_move (c : Config ι α σ) {i : ι} {x : α × σ} (P : α → Prop)
    (hunique : ∀ j j', P (c.proc j) → P (c.proc j') → j = j')
    (hself : P x.1 → ∀ j ≠ i, ¬ P (c.proc j)) :
    ∀ j j', P ((c.move i x).proc j) → P ((c.move i x).proc j') → j = j' := by
  intro j j' hj hj'
  by_cases hji : j = i
  · subst hji
    by_cases hji' : j' = j
    · exact hji'.symm
    · rw [Config.move_self] at hj
      rw [c.move_other _ hji'] at hj'
      exact absurd hj' (hself hj j' hji')
  · rw [c.move_other _ hji] at hj
    by_cases hji' : j' = i
    · subst hji'
      rw [Config.move_self] at hj'
      exact absurd hj (hself hj' j hji)
    · rw [c.move_other _ hji'] at hj'
      exact hunique j j' hj hj'

variable {next : ε → α → σ → Option (α × σ)} {allow : Config ι α σ → ι → ε → Prop}
  {c c' : Config ι α σ}

/-- One admitted step of one process. -/
def Step (next : ε → α → σ → Option (α × σ)) (allow : Config ι α σ → ι → ε → Prop)
    (c c' : Config ι α σ) : Prop :=
  ∃ i e x, allow c i e ∧ next e (c.proc i) c.shared = some x ∧ c' = c.move i x

/-- Any number of admitted steps. -/
def Reach (next : ε → α → σ → Option (α × σ)) (allow : Config ι α σ → ι → ε → Prop) :
    Config ι α σ → Config ι α σ → Prop :=
  Relation.ReflTransGen (Step next allow)

/-- What holds at the start and survives every admitted step holds in every
configuration that is reached. -/
theorem Reach.invariant {P : Config ι α σ → Prop} (hreach : Reach next allow c c') (hinit : P c)
    (hstep : ∀ c i e x, P c → allow c i e → next e (c.proc i) c.shared = some x → P (c.move i x)) :
    P c' := by
  induction hreach with
  | refl => exact hinit
  | tail _ hlast ih =>
      obtain ⟨i, e, x, hallow, hnext, rfl⟩ := hlast
      exact hstep _ i e x ih hallow hnext

/-- The configuration after the given steps, if all of them can be taken and
pass the test. -/
def play (next : ε → α → σ → Option (α × σ)) (test : Config ι α σ → ι → ε → Bool) :
    Config ι α σ → List (ι × ε) → Option (Config ι α σ)
  | c, [] => some c
  | c, (i, e) :: steps =>
      if test c i e then
        match next e (c.proc i) c.shared with
        | none => none
        | some x => play next test (c.move i x) steps
      else none

theorem reach_of_play {test : Config ι α σ → ι → ε → Bool} {steps : List (ι × ε)}
    (htest : ∀ c i e, test c i e = true → allow c i e) (hplay : play next test c steps = some c') :
    Reach next allow c c' := by
  induction steps generalizing c with
  | nil =>
      obtain rfl := Option.some.inj hplay
      exact .refl
  | cons step steps ih =>
      obtain ⟨i, e⟩ := step
      rw [play] at hplay
      split at hplay
      next hok =>
        cases hnext : next e (c.proc i) c.shared with
        | none =>
            rw [hnext] at hplay
            cases hplay
        | some x =>
            rw [hnext] at hplay
            exact .head ⟨i, e, x, htest c i e hok, hnext, rfl⟩ (ih hplay)
      next => cases hplay

/-- A run that ends in a configuration with a decidable property. -/
theorem exists_reach (next : ε → α → σ → Option (α × σ)) (c : Config ι α σ)
    (steps : List (ι × ε)) (test : Config ι α σ → ι → ε → Bool) (final : Config ι α σ → Bool)
    (htest : ∀ c i e, test c i e = true → allow c i e)
    (hfinal : (play next test c steps).any final = true) :
    ∃ c', Reach next allow c c' ∧ final c' = true := by
  cases hplay : play next test c steps with
  | none =>
      rw [hplay] at hfinal
      cases hfinal
  | some c' =>
      rw [hplay] at hfinal
      exact ⟨c', reach_of_play htest hplay, hfinal⟩

end Interleaving
