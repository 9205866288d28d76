import Mathlib.Logic.Basic
import Mathlib.Logic.Function.Basic

/-!
Two-sided postconditions for programs in `EStateM`. Such a program either
returns a value or stops with a reason, and in both cases leaves a state
behind: `Ends r Q E` says that a returned value and state satisfy `Q` and a
stop reason and state satisfy `E`. The rules push `Ends` through the monad's
operations, so that a program is verified by rewriting with them.
-/

namespace Program

universe u

variable {ε σ τ α β : Type u}

def Ends (r : EStateM.Result ε σ α) (Q : α → σ → Prop) (E : ε → σ → Prop) : Prop :=
  match r with
  | .ok a s => Q a s
  | .error e s => E e s

variable {Q Q' : α → σ → Prop} {E E' : ε → σ → Prop}

instance [∀ a s, Decidable (Q a s)] [∀ e s, Decidable (E e s)] :
    (r : EStateM.Result ε σ α) → Decidable (Ends r Q E)
  | .ok a s => inferInstanceAs (Decidable (Q a s))
  | .error e s => inferInstanceAs (Decidable (E e s))

@[simp] theorem ends_ok (a : α) (s : σ) :
    Ends (.ok a s : EStateM.Result ε σ α) Q E ↔ Q a s := Iff.rfl

@[simp] theorem ends_error (e : ε) (s : σ) :
    Ends (.error e s : EStateM.Result ε σ α) Q E ↔ E e s := Iff.rfl

@[simp] theorem ends_pure (a : α) (s : σ) :
    Ends ((pure a : EStateM ε σ α) s) Q E ↔ Q a s := Iff.rfl

@[simp] theorem ends_throw (e : ε) (s : σ) :
    Ends ((throw e : EStateM ε σ α) s) Q E ↔ E e s := Iff.rfl

@[simp] theorem ends_get (s : σ) {Q : σ → σ → Prop} :
    Ends ((get : EStateM ε σ σ) s) Q E ↔ Q s s := Iff.rfl

@[simp] theorem ends_modify (f : σ → σ) (s : σ) {Q : PUnit → σ → Prop} :
    Ends ((modify f : EStateM ε σ PUnit) s) Q E ↔ Q ⟨⟩ (f s) := Iff.rfl

@[simp] theorem ends_bind (x : EStateM ε σ α) (f : α → EStateM ε σ β) (s : σ)
    {R : β → σ → Prop} :
    Ends ((x >>= f) s) R E ↔ Ends (x s) (fun a s' => Ends (f a s') R E) E := by
  change Ends (EStateM.bind x f s) R E ↔ _
  unfold EStateM.bind
  cases x s <;> rfl

theorem Ends.mono {r : EStateM.Result ε σ α} (h : Ends r Q E)
    (hQ : ∀ a s, Q a s → Q' a s) (hE : ∀ e s, E e s → E' e s) : Ends r Q' E' := by
  cases r with
  | ok a s => exact hQ a s h
  | error e s => exact hE e s h

theorem Ends.and {r : EStateM.Result ε σ α} (h : Ends r Q E) (h' : Ends r Q' E') :
    Ends r (fun a s => Q a s ∧ Q' a s) (fun e s => E e s ∧ E' e s) := by
  cases r with
  | ok a s => exact ⟨h, h'⟩
  | error e s => exact ⟨h, h'⟩

theorem Ends.of_forall (r : EStateM.Result ε σ α) (hQ : ∀ a s, Q a s) :
    Ends r Q (fun _ _ => True) := by
  cases r with
  | ok a s => exact hQ a s
  | error e s => trivial

/-- Run a program on one component of a larger state. -/
def zoom (view : σ → τ) (put : τ → σ → σ) (x : EStateM ε τ α) : EStateM ε σ α := fun s =>
  match x (view s) with
  | .ok a t => .ok a (put t s)
  | .error e t => .error e (put t s)

@[simp] theorem ends_zoom (view : σ → τ) (put : τ → σ → σ) (x : EStateM ε τ α) (s : σ) :
    Ends (zoom view put x s) Q E ↔
      Ends (x (view s)) (fun a t => Q a (put t s)) (fun e t => E e (put t s)) := by
  unfold zoom
  cases x (view s) <;> rfl

/-! Running a program symbolically: the result of a sequence is the result of
its second part in the state the first part leaves. -/

theorem bind_of_ok {x : EStateM ε σ α} {f : α → EStateM ε σ β} {a : α} {s s' : σ}
    (h : x s = .ok a s') : (x >>= f) s = f a s' := by
  change EStateM.bind x f s = _
  simp [EStateM.bind, h]

theorem bind_of_error {x : EStateM ε σ α} {f : α → EStateM ε σ β} {e : ε} {s s' : σ}
    (h : x s = .error e s') : (x >>= f) s = .error e s' := by
  change EStateM.bind x f s = _
  simp [EStateM.bind, h]

@[simp] theorem run_pure_bind (a : α) (f : α → EStateM ε σ β) (s : σ) :
    ((pure a : EStateM ε σ α) >>= f) s = f a s := rfl

@[simp] theorem run_get_bind (f : σ → EStateM ε σ β) (s : σ) :
    ((get : EStateM ε σ σ) >>= f) s = f s s := rfl

@[simp] theorem run_modify_bind (g : σ → σ) (f : PUnit → EStateM ε σ β) (s : σ) :
    ((modify g : EStateM ε σ PUnit) >>= f) s = f ⟨⟩ (g s) := rfl

@[simp] theorem run_throw_bind (e : ε) (f : α → EStateM ε σ β) (s : σ) :
    ((throw e : EStateM ε σ α) >>= f) s = .error e s := rfl

@[simp] theorem run_pure (a : α) (s : σ) : (pure a : EStateM ε σ α) s = .ok a s := rfl

@[simp] theorem run_throw (e : ε) (s : σ) : (throw e : EStateM ε σ α) s = .error e s := rfl

@[simp] theorem run_modify (g : σ → σ) (s : σ) :
    (modify g : EStateM ε σ PUnit) s = .ok ⟨⟩ (g s) := rfl

@[simp] theorem run_ite (c : Prop) [Decidable c] (x y : EStateM ε σ α) (s : σ) :
    (if c then x else y) s = if c then x s else y s := by
  split <;> rfl

theorem zoom_of_ok {view : σ → τ} {put : τ → σ → σ} {x : EStateM ε τ α} {s : σ} {a : α} {t : τ}
    (h : x (view s) = .ok a t) : zoom view put x s = .ok a (put t s) := by
  simp [zoom, h]

theorem zoom_of_error {view : σ → τ} {put : τ → σ → σ} {x : EStateM ε τ α} {s : σ} {e : ε}
    {t : τ} (h : x (view s) = .error e t) : zoom view put x s = .error e (put t s) := by
  simp [zoom, h]

theorem ends_ite (c : Prop) [Decidable c] (x y : EStateM ε σ α) (s : σ) :
    Ends ((if c then x else y) s) Q E ↔
      (c → Ends (x s) Q E) ∧ (¬ c → Ends (y s) Q E) := by
  by_cases h : c <;> simp [h]

/-- What the last part of a program returns does not depend on where the first part ends. -/
theorem Ends.seq {x : EStateM ε σ α} {f : α → EStateM ε σ β} {s : σ} {R : β → σ → Prop}
    (hf : ∀ a s', Ends (f a s') R (fun _ _ => True)) : Ends ((x >>= f) s) R (fun _ _ => True) := by
  rw [ends_bind]
  exact (Ends.of_forall (x s) (fun _ _ => trivial)).mono (fun a s' _ => hf a s') (fun _ _ h => h)

/-! Programs that leave the state alone, however they end. -/

def Keeps (x : EStateM ε σ α) : Prop :=
  ∀ s, Ends (x s) (fun _ s' => s' = s) (fun _ s' => s' = s)

theorem Keeps.pure (a : α) : Keeps (pure a : EStateM ε σ α) := fun _ => rfl

theorem Keeps.throw (e : ε) : Keeps (throw e : EStateM ε σ α) := fun _ => rfl

theorem Keeps.get : Keeps (get : EStateM ε σ σ) := fun _ => rfl

theorem Keeps.bind {x : EStateM ε σ α} {f : α → EStateM ε σ β} (hx : Keeps x)
    (hf : ∀ a, Keeps (f a)) : Keeps (x >>= f) := by
  intro s
  rw [ends_bind]
  refine (hx s).mono ?_ (fun _ _ h => h)
  rintro a s' rfl
  exact hf a s'

theorem Keeps.ite {c : Prop} [Decidable c] {x y : EStateM ε σ α} (hx : Keeps x) (hy : Keeps y) :
    Keeps (if c then x else y) := by
  split
  · exact hx
  · exact hy

theorem Keeps.zoom {view : σ → τ} {put : τ → σ → σ} {x : EStateM ε τ α} (hx : Keeps x)
    (hput : ∀ s, put (view s) s = s) : Keeps (zoom view put x) := by
  intro s
  rw [ends_zoom]
  refine (hx (view s)).mono ?_ ?_
  · rintro a t rfl
    exact hput s
  · rintro e t rfl
    exact hput s

/-! Programs that leave one view of the state alone when they return. -/

def Fixes (view : σ → τ) (x : EStateM ε σ α) : Prop :=
  ∀ s, Ends (x s) (fun _ s' => view s' = view s) (fun _ _ => True)

variable {view : σ → τ}

theorem Keeps.fixes {x : EStateM ε σ α} (hx : Keeps x) : Fixes view x := by
  intro s
  refine (hx s).mono ?_ (fun _ _ _ => trivial)
  rintro a s' rfl
  rfl

theorem Fixes.modify {f : σ → σ} (hf : ∀ s, view (f s) = view s) :
    Fixes view (modify f : EStateM ε σ PUnit) := hf

/-- The rest of a program runs in a state with the view of the first one. -/
theorem Fixes.then {x : EStateM ε σ α} {f : α → EStateM ε σ β} {s s₀ : σ} {R : β → σ → Prop}
    (hx : Fixes view x) (hs : view s = view s₀)
    (hf : ∀ a s', view s' = view s₀ → Ends (f a s') R (fun _ _ => True)) :
    Ends ((x >>= f) s) R (fun _ _ => True) := by
  rw [ends_bind]
  refine (hx s).mono ?_ (fun _ _ _ => trivial)
  intro a s' hs'
  exact hf a s' (hs'.trans hs)

theorem Fixes.bind {x : EStateM ε σ α} {f : α → EStateM ε σ β} (hx : Fixes view x)
    (hf : ∀ a, Fixes view (f a)) : Fixes view (x >>= f) := by
  intro s
  refine hx.then rfl (fun a s' hs' => ?_)
  rw [← hs']
  exact hf a s'

/-! Programs that leave one view of the state alone, however they end. -/

def Frames (view : σ → τ) (x : EStateM ε σ α) : Prop :=
  ∀ s, Ends (x s) (fun _ s' => view s' = view s) (fun _ s' => view s' = view s)

theorem Keeps.frames {x : EStateM ε σ α} (hx : Keeps x) : Frames view x := by
  intro s
  refine (hx s).mono ?_ ?_
  · rintro a s' rfl
    rfl
  · rintro e s' rfl
    rfl

/-- What is read off the view is left alone too. -/
theorem Frames.map {ρ : Type u} {x : EStateM ε σ α} (hx : Frames view x) (g : τ → ρ) :
    Frames (fun s => g (view s)) x :=
  fun s => (hx s).mono (fun _ _ h => congrArg g h) (fun _ _ h => congrArg g h)

theorem Frames.modify {f : σ → σ} (hf : ∀ s, view (f s) = view s) :
    Frames view (modify f : EStateM ε σ PUnit) := hf

/-- The rest of a program runs in a state with the same view. -/
theorem Frames.then {x : EStateM ε σ α} {f : α → EStateM ε σ β} {s : σ} {R : β → σ → Prop}
    (hx : Frames view x) (hf : ∀ a s', view s' = view s → Ends (f a s') R E)
    (hE : ∀ e s', view s' = view s → E e s') : Ends ((x >>= f) s) R E := by
  rw [ends_bind]
  exact (hx s).mono hf hE

theorem Frames.bind {x : EStateM ε σ α} {f : α → EStateM ε σ β} (hx : Frames view x)
    (hf : ∀ a, Frames view (f a)) : Frames view (x >>= f) := by
  intro s
  refine hx.then (fun a s' hs' => ?_) (fun _ _ hs' => hs')
  rw [← hs']
  exact hf a s'

theorem Frames.ite {c : Prop} [Decidable c] {x y : EStateM ε σ α} (hx : Frames view x)
    (hy : Frames view y) : Frames view (if c then x else y) := by
  split
  · exact hx
  · exact hy

theorem Frames.zoom {ρ : Type u} {part : σ → ρ} {put : ρ → σ → σ} (x : EStateM ε ρ α)
    (hput : ∀ t s, view (put t s) = view s) : Frames view (zoom part put x) := by
  intro s
  rw [ends_zoom]
  cases x (part s) with
  | ok a t => exact hput t s
  | error e t => exact hput t s

/-! Programs that do not look at the state: they give the same answer in every
state and leave it alone. `P` says which reasons to stop are possible. -/

def Answers (P : ε → Prop) (x : EStateM ε σ α) : Prop :=
  (∃ a, ∀ s, x s = .ok a s) ∨ ∃ e, P e ∧ ∀ s, x s = .error e s

variable {P : ε → Prop}

theorem Answers.pure (a : α) : Answers P (pure a : EStateM ε σ α) := Or.inl ⟨a, fun _ => rfl⟩

theorem Answers.throw {e : ε} (he : P e) : Answers P (throw e : EStateM ε σ α) :=
  Or.inr ⟨e, he, fun _ => rfl⟩

theorem Answers.bind {x : EStateM ε σ α} {f : α → EStateM ε σ β} (hx : Answers P x)
    (hf : ∀ a, Answers P (f a)) : Answers P (x >>= f) := by
  rcases hx with ⟨a, hx⟩ | ⟨e, he, hx⟩
  · rcases hf a with ⟨b, hf⟩ | ⟨e, he, hf⟩
    · exact Or.inl ⟨b, fun s => (bind_of_ok (hx s)).trans (hf s)⟩
    · exact Or.inr ⟨e, he, fun s => (bind_of_ok (hx s)).trans (hf s)⟩
  · exact Or.inr ⟨e, he, fun s => bind_of_error (hx s)⟩

theorem Answers.ite {c : Prop} [Decidable c] {x y : EStateM ε σ α} (hx : Answers P x)
    (hy : Answers P y) : Answers P (if c then x else y) := by
  split
  · exact hx
  · exact hy

end Program
