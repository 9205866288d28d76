import Spacefish.Lib.Interleaving
import Mathlib.Algebra.Order.BigOperators.Group.Finset

/-!
Counting processes by their local states, and systems that drain: when some active
process can always come closer to its end, the active processes can all end without the
help of others.
-/

namespace Interleaving

variable {ι α σ ε : Type*} {P : ι → Prop} {n : Int} {i j : ι}

theorem Counts.pos (h : Counts P n) (hi : P i) : 0 < n := by
  obtain ⟨R, hR, rfl⟩ := h
  exact_mod_cast Finset.card_pos.mpr ⟨i, (hR i).mpr hi⟩

theorem Counts.unique (h : Counts P n) (hn : n ≤ 1) (hi : P i) (hj : P j) : i = j := by
  obtain ⟨R, hR, rfl⟩ := h
  exact Finset.card_le_one.mp (by exact_mod_cast hn) i ((hR i).mpr hi) j ((hR j).mpr hj)

theorem Counts.eq_zero (h : Counts P n) (hno : ∀ i, ¬ P i) : n = 0 := by
  obtain ⟨R, hR, rfl⟩ := h
  rw [Finset.eq_empty_of_forall_notMem (fun i hi => hno i ((hR i).mp hi))]
  rfl

variable [DecidableEq ι] {c : Config ι α σ} {x : α × σ}

/-- A count follows the step of one process. -/
theorem Counts.move {Q : α → Bool} (h : Counts (fun j => Q (c.proc j) = true) n) (i : ι)
    (x : α × σ) :
    Counts (fun j => Q ((c.move i x).proc j) = true)
      (n + ((Q x.1).toNat : Int) - ((Q (c.proc i)).toNat : Int)) := by
  have hother : ∀ j ≠ i, (Q ((c.move i x).proc j) = true ↔ Q (c.proc j) = true) :=
    fun j hj => by rw [c.move_other x hj]
  cases hold : Q (c.proc i) <;> cases hnew : Q x.1
  · simp only [Bool.toNat_false, Int.natCast_zero, Int.add_zero, Int.sub_zero]
    refine h.congr (fun j => ?_)
    by_cases hj : j = i
    · rw [hj, Config.move_self, hold, hnew]
    · exact hother j hj
  · simp only [Bool.toNat_false, Bool.toNat_true, Int.natCast_zero, Int.natCast_one, Int.sub_zero]
    exact h.enter (by rw [hold]; simp) (by rw [Config.move_self]; exact hnew) hother
  · simp only [Bool.toNat_false, Bool.toNat_true, Int.natCast_zero, Int.natCast_one, Int.add_zero]
    exact h.leave hold (by rw [Config.move_self, hnew]; simp) hother
  · simp only [Bool.toNat_true, Int.natCast_one, Int.add_sub_cancel]
    refine h.congr (fun j => ?_)
    by_cases hj : j = i
    · rw [hj, Config.move_self, hold, hnew]
    · exact hother j hj

variable {next : ε → α → σ → Option (α × σ)}

/-- The processes of positive rank can all come to rank 0, by their own steps. -/
theorem drains {I : Config ι α σ → Prop} (rank : α → Nat) (R : Finset ι)
    (hkeep : ∀ c i e x, I c → next e (c.proc i) c.shared = some x → I (c.move i x))
    (hprogress : ∀ c, I c → (∃ i, rank (c.proc i) ≠ 0) →
      ∃ i e x, next e (c.proc i) c.shared = some x ∧ rank x.1 < rank (c.proc i))
    (hinit : I c) (hR : ∀ i, rank (c.proc i) ≠ 0 → i ∈ R) :
    ∃ c', Reach next (fun c i _ => rank (c.proc i) ≠ 0) c c' ∧ I c' ∧
      ∀ i, rank (c'.proc i) = 0 := by
  generalize hsum : ∑ i ∈ R, rank (c.proc i) = total
  induction total using Nat.strongRecOn generalizing c with
  | ind total ih =>
      by_cases hactive : ∃ i, rank (c.proc i) ≠ 0
      · obtain ⟨i, e, x, hnext, hlt⟩ := hprogress c hinit hactive
        have hi : rank (c.proc i) ≠ 0 := by omega
        have hless : ∑ j ∈ R, rank ((c.move i x).proc j) < total := by
          rw [← hsum]
          refine Finset.sum_lt_sum (fun j _ => ?_) ⟨i, hR i hi, by rwa [Config.move_self]⟩
          by_cases hj : j = i
          · rw [hj, Config.move_self]
            exact Nat.le_of_lt hlt
          · rw [c.move_other x hj]
        have hcover : ∀ j, rank ((c.move i x).proc j) ≠ 0 → j ∈ R := by
          intro j hj
          by_cases hji : j = i
          · exact hji ▸ hR i hi
          · rw [c.move_other x hji] at hj
            exact hR j hj
        obtain ⟨c', hreach, hend, hzero⟩ :=
          ih _ hless (hkeep c i e x hinit hnext) hcover rfl
        exact ⟨c', .head ⟨i, e, x, hi, hnext, rfl⟩ hreach, hend, hzero⟩
      · exact ⟨c, .refl, hinit, fun i => by_contra (fun hi => hactive ⟨i, hi⟩)⟩

end Interleaving
