import Mathlib.Data.Nat.ModEq
import Mathlib.Tactic.Common

/-!
First-fit search in cyclic order over the indices `0 .. tot - 1`, from an
arbitrary starting point. The walk visits every index once, so it finds a
free one whenever there is one.
-/

namespace CyclicScan

/-- Probe `(start + i) % tot`, then the following indices, at most `n` of
them, and return the first free one. -/
def scan (free : Nat → Bool) (start tot : Nat) : Nat → Nat → Option Nat
  | 0, _ => none
  | n + 1, i =>
      if free ((start + i) % tot) then some ((start + i) % tot)
      else scan free start tot n (i + 1)

variable {free : Nat → Bool} {start tot n i ix : Nat}

theorem scan_some (h : scan free start tot n i = some ix) :
    free ix = true ∧ ∃ k, i ≤ k ∧ k < i + n ∧ ix = (start + k) % tot ∧
      ∀ j, i ≤ j → j < k → free ((start + j) % tot) = false := by
  induction n generalizing i with
  | zero => cases h
  | succ n ih =>
      unfold scan at h
      split at h
      · next hfree =>
        obtain rfl := Option.some.inj h
        exact ⟨hfree, i, by omega, by omega, rfl, fun j h₁ h₂ => by omega⟩
      · next hbusy =>
        obtain ⟨hfree, k, h₁, h₂, h₃, h₄⟩ := ih h
        refine ⟨hfree, k, by omega, by omega, h₃, ?_⟩
        intro j hj hjk
        by_cases hij : j = i
        · subst hij
          simpa using hbusy
        · exact h₄ j (by omega) hjk

theorem scan_none (h : scan free start tot n i = none) :
    ∀ j, i ≤ j → j < i + n → free ((start + j) % tot) = false := by
  induction n generalizing i with
  | zero => intro j h₁ h₂; omega
  | succ n ih =>
      unfold scan at h
      split at h
      · cases h
      · next hbusy =>
        intro j h₁ h₂
        by_cases hij : j = i
        · subst hij
          simpa using hbusy
        · exact ih h j (by omega) (by omega)

/-- Every index is probed in one turn of the walk. -/
theorem exists_probe (start : Nat) {b : Nat} (hb : b < tot) :
    ∃ k, k < tot ∧ (start + k) % tot = b := by
  refine ⟨(b + (tot - start % tot)) % tot, Nat.mod_lt _ (by omega), ?_⟩
  have hs : start % tot < tot := Nat.mod_lt _ (by omega)
  rw [Nat.add_mod, Nat.mod_mod, ← Nat.add_mod]
  have hsplit : start + (b + (tot - start % tot)) = b + tot * (start / tot + 1) := by
    have := Nat.div_add_mod start tot
    rw [Nat.mul_add, Nat.mul_one]
    omega
  rw [hsplit, Nat.add_mul_mod_self_left, Nat.mod_eq_of_lt hb]

/-- A full turn returns a free index of the range. -/
theorem full_scan_some (h : scan free start tot tot 0 = some ix) :
    ix < tot ∧ free ix = true := by
  obtain ⟨hfree, k, _, hk, rfl, _⟩ := scan_some h
  exact ⟨Nat.mod_lt _ (by omega), hfree⟩

/-- A full turn fails only when nothing in the range is free. -/
theorem full_scan_none (h : scan free start tot tot 0 = none) :
    ∀ b, b < tot → free b = false := by
  intro b hb
  obtain ⟨k, hk, rfl⟩ := exists_probe start hb
  exact scan_none h k (by omega) (by omega)

end CyclicScan
