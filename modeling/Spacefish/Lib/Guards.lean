import Spacefish.Lib.Ends

/-!
A program with checks added to it. `Guards stop x y` says that `x` runs as `y` does
unless one of its checks fails, which ends it for the reason `stop`. So a run of `x` that
ends otherwise is a run of `y`.
-/

namespace Program

universe u

variable {ε σ τ α β : Type u} {stop : ε}

def Guards (stop : ε) (x y : EStateM ε σ α) : Prop :=
  ∀ s, x s = y s ∨ ∃ t, x s = .error stop t

theorem Guards.refl (x : EStateM ε σ α) : Guards stop x x := fun _ => Or.inl rfl

theorem Guards.bind {x y : EStateM ε σ α} {f g : α → EStateM ε σ β} (hx : Guards stop x y)
    (hf : ∀ a, Guards stop (f a) (g a)) : Guards stop (x >>= f) (y >>= g) := by
  intro s
  rcases hx s with heq | ⟨t, hstop⟩
  · cases hrun : y s with
    | ok a t =>
        rw [bind_of_ok (heq.trans hrun), bind_of_ok hrun]
        exact hf a t
    | error e t =>
        rw [bind_of_error (heq.trans hrun), bind_of_error hrun]
        exact Or.inl rfl
  · exact Or.inr ⟨t, bind_of_error hstop⟩

/-- The rest of the program is guarded. -/
theorem Guards.then {f g : α → EStateM ε σ β} (x : EStateM ε σ α)
    (hf : ∀ a, Guards stop (f a) (g a)) : Guards stop (x >>= f) (x >>= g) :=
  (Guards.refl x).bind hf

theorem Guards.ite {c : Prop} [Decidable c] {x y x' y' : EStateM ε σ α} (hx : Guards stop x x')
    (hy : Guards stop y y') : Guards stop (if c then x else y) (if c then x' else y') := by
  split
  · exact hx
  · exact hy

theorem Guards.zoom {view : σ → τ} {put : τ → σ → σ} {x y : EStateM ε τ α}
    (hx : Guards stop x y) : Guards stop (zoom view put x) (zoom view put y) := by
  intro s
  rcases hx (view s) with heq | ⟨t, hstop⟩
  · left
    simp only [Program.zoom, heq]
  · exact Or.inr ⟨put t s, zoom_of_error hstop⟩

/-- A check on what a program has returned. -/
theorem Guards.check (x : EStateM ε σ α) (test : α → σ → Prop) [∀ a s, Decidable (test a s)] :
    Guards stop (do
      let a ← x
      let s ← get
      if test a s then return a else throw stop) x := by
  intro s
  cases hrun : x s with
  | error e t =>
      rw [bind_of_error hrun]
      exact Or.inl rfl
  | ok a t =>
      rw [bind_of_ok hrun, run_get_bind, run_ite]
      split
      · exact Or.inl rfl
      · exact Or.inr ⟨t, rfl⟩

end Program
