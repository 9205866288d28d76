import Spacefish.Lib.Ends

/-!
One program run from two states. `Matches R r₁ r₂` says that two results agree:
both return the same value or both stop for the same reason, and `R` relates
the states they leave. The rules push `Matches` through the monad's operations.
-/

namespace Program

universe u

variable {ε σ τ α β : Type u}

def Matches (R : σ → σ → Prop) : EStateM.Result ε σ α → EStateM.Result ε σ α → Prop
  | .ok a s, .ok b t => a = b ∧ R s t
  | .error e s, .error f t => e = f ∧ R s t
  | _, _ => False

variable {R S : σ → σ → Prop} {s t : σ}

theorem Matches.pure (a : α) (h : R s t) :
    Matches R ((Pure.pure a : EStateM ε σ α) s) ((Pure.pure a : EStateM ε σ α) t) := ⟨rfl, h⟩

theorem Matches.throw (e : ε) (h : R s t) :
    Matches R ((throw e : EStateM ε σ α) s) ((throw e : EStateM ε σ α) t) := ⟨rfl, h⟩

theorem Matches.modify {f g : σ → σ} (h : R (f s) (g t)) :
    Matches R ((modify f : EStateM ε σ PUnit) s) ((modify g : EStateM ε σ PUnit) t) := ⟨rfl, h⟩

/-- The second part of a program only runs from where the first one returns. -/
theorem Matches.bind_ok {x y : EStateM ε σ α} {f g : α → EStateM ε σ β}
    (hx : Matches R (x s) (y t)) (hRS : ∀ s t, R s t → S s t)
    (hf : ∀ a s' t', x s = .ok a s' → R s' t' → Matches S (f a s') (g a t')) :
    Matches S ((x >>= f) s) ((y >>= g) t) := by
  cases hxs : x s with
  | ok a s' =>
      cases hyt : y t with
      | ok b t' =>
          rw [hxs, hyt] at hx
          obtain ⟨rfl, hst⟩ := hx
          rw [bind_of_ok hxs, bind_of_ok hyt]
          exact hf a s' t' hxs hst
      | error e t' =>
          rw [hxs, hyt] at hx
          exact hx.elim
  | error e s' =>
      cases hyt : y t with
      | ok b t' =>
          rw [hxs, hyt] at hx
          exact hx.elim
      | error e' t' =>
          rw [hxs, hyt] at hx
          rw [bind_of_error hxs, bind_of_error hyt]
          exact ⟨hx.1, hRS _ _ hx.2⟩

theorem Matches.bind {x y : EStateM ε σ α} {f g : α → EStateM ε σ β}
    (hx : Matches R (x s) (y t)) (hf : ∀ a s' t', R s' t' → Matches R (f a s') (g a t')) :
    Matches R ((x >>= f) s) ((y >>= g) t) :=
  hx.bind_ok (fun _ _ h => h) (fun a s' t' _ h => hf a s' t' h)

theorem Matches.ite {c : Prop} [Decidable c] {x y x' y' : EStateM ε σ α}
    (hx : c → Matches R (x s) (x' t)) (hy : ¬ c → Matches R (y s) (y' t)) :
    Matches R ((if c then x else y) s) ((if c then x' else y') t) := by
  by_cases hc : c
  · rw [if_pos hc, if_pos hc]
    exact hx hc
  · rw [if_neg hc, if_neg hc]
    exact hy hc

theorem Matches.zoom {Q : τ → τ → Prop} {view : σ → τ} {put : τ → σ → σ}
    {x y : EStateM ε τ α} (hx : Matches Q (x (view s)) (y (view t)))
    (hput : ∀ a b, Q a b → R (put a s) (put b t)) :
    Matches R (zoom view put x s) (zoom view put y t) := by
  unfold Program.zoom
  revert hx
  cases x (view s) <;> cases y (view t) <;> intro hx <;>
    first | exact hx.elim | exact ⟨hx.1, hput _ _ hx.2⟩

end Program
