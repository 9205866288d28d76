import Spacefish.Lib.Interleaving

/-!
One process among the others: where it comes when it runs alone, and how many steps of its
own a call takes it while the others move as they like.
-/

namespace Interleaving

variable {ι α σ ε : Type*}

section

variable {next : α → σ → Option (α × σ)} {x y z : α × σ}

/-- `n` steps of one process with no other one active. -/
def alone (next : α → σ → Option (α × σ)) : Nat → α × σ → Option (α × σ)
  | 0, x => some x
  | n + 1, x => (next x.1 x.2).bind (alone next n)

/-- A process that is alone comes from `x` to `y`. -/
def Leads (next : α → σ → Option (α × σ)) (x y : α × σ) : Prop := ∃ n, alone next n x = some y

theorem Leads.refl : Leads next x x := ⟨0, rfl⟩

theorem Leads.of_eq (heq : x = y) : Leads next x y := heq ▸ .refl

theorem Leads.trans (hxy : Leads next x y) (hyz : Leads next y z) : Leads next x z := by
  obtain ⟨n, hn⟩ := hxy
  induction n generalizing x with
  | zero =>
      obtain rfl := Option.some.inj hn
      exact hyz
  | succ n ih =>
      obtain ⟨x₁, hstep, hrest⟩ := Option.bind_eq_some_iff.mp hn
      obtain ⟨k, hk⟩ := ih hrest
      exact ⟨k + 1, by rw [alone, hstep, Option.bind_some, hk]⟩

theorem Leads.step (hstep : next x.1 x.2 = some y) (hrest : Leads next y z) : Leads next x z := by
  obtain ⟨n, hn⟩ := hrest
  exact ⟨n + 1, by rw [alone, hstep, Option.bind_some, hn]⟩

end

variable [DecidableEq ι] {next : ε → α → σ → Option (α × σ)} {c c' : Config ι α σ} {i : ι} {e : ε}
  {y : α × σ}

/-- What a process does alone in one call is a run in which no other one moves and nothing
else is called. -/
theorem Leads.reach (hlead : Leads (next e) (c.proc i, c.shared) y) :
    Reach next (fun _ j e' => j = i ∧ e' = e) c (c.move i y) := by
  obtain ⟨n, hn⟩ := hlead
  induction n generalizing c with
  | zero =>
      obtain rfl := Option.some.inj hn
      have hsame : c.move i (c.proc i, c.shared) = c := by simp [Config.move]
      rw [hsame]
      exact .refl
  | succ n ih =>
      obtain ⟨x, hstep, hrest⟩ := Option.bind_eq_some_iff.mp hn
      have hmoved : Reach next (fun _ j e' => j = i ∧ e' = e) (c.move i x)
          ((c.move i x).move i y) := ih (by rw [Config.move_self]; exact hrest)
      rw [Config.move_move] at hmoved
      exact .head ⟨i, e, x, ⟨rfl, rfl⟩, hstep, rfl⟩ hmoved

/-- The steps of process `i` in a run. -/
def ownSteps (i : ι) (steps : List (ι × ε)) : Nat := steps.countP (fun st => decide (st.1 = i))

/-- The test of a run in which process `i` moves only while it is in a call. -/
def inCall (calling : α → Bool) (i : ι) (c : Config ι α σ) (j : ι) (_ : ε) : Bool :=
  decide (j ≠ i) || calling (c.proc i)

/-- A process whose own steps all bring it closer to the end of its call takes no more of
them than its rank, whatever the others do in between. -/
theorem ownSteps_le {calling : α → Bool} {rank : α → Nat} {steps : List (ι × ε)}
    (hcloser : ∀ e p s x, calling p = true → next e p s = some x → rank x.1 < rank p)
    (hplay : play next (inCall calling i) c steps = some c') :
    ownSteps i steps + rank (c'.proc i) ≤ rank (c.proc i) := by
  induction steps generalizing c with
  | nil =>
      obtain rfl := Option.some.inj hplay
      exact Nat.le_of_eq (Nat.zero_add _)
  | cons st steps ih =>
      obtain ⟨j, e⟩ := st
      rw [play] at hplay
      split at hplay
      next htest =>
        cases hnext : next e (c.proc j) c.shared with
        | none =>
            rw [hnext] at hplay
            cases hplay
        | some x =>
            rw [hnext] at hplay
            have hrest := ih hplay
            rw [ownSteps, List.countP_cons]
            by_cases hj : j = i
            · subst hj
              have hcalling : calling (c.proc j) = true := by simpa [inCall] using htest
              have hless := hcloser e _ _ _ hcalling hnext
              rw [Config.move_self] at hrest
              rw [if_pos (decide_eq_true rfl)]
              unfold ownSteps at hrest
              omega
            · rw [c.move_other x (fun h => hj h.symm)] at hrest
              rw [if_neg (by simp [hj])]
              exact hrest
      next => cases hplay

/-- Whatever the other processes do in between, a call ends after at most `bound` steps of
its own process, each of which can be taken at once. -/
def WaitFree (ι : Type*) [DecidableEq ι] (next : ε → α → σ → Option (α × σ)) (calling : α → Bool)
    (bound : ε → Nat) : Prop :=
  ∀ (c c' : Config ι α σ) (i : ι) (e : ε) (x : α × σ) (steps : List (ι × ε)),
    calling (c.proc i) = false → next e (c.proc i) c.shared = some x →
    play next (inCall calling i) (c.move i x) steps = some c' →
      ownSteps i steps ≤ bound e ∧
        (calling (c'.proc i) = true → ownSteps i steps < bound e ∧
          ∀ e', (next e' (c'.proc i) c'.shared).isSome = true)

theorem waitFree_of_rank {calling : α → Bool} (rank : α → Nat) {bound : ε → Nat}
    (hfirst : ∀ e p s x, calling p = false → next e p s = some x → rank x.1 ≤ bound e)
    (hcloser : ∀ e p s x, calling p = true → next e p s = some x → rank x.1 < rank p)
    (henabled : ∀ e p s, calling p = true → (next e p s).isSome = true) :
    WaitFree ι next calling bound := by
  intro c c' i e x steps hidle hstart hplay
  have hown := ownSteps_le hcloser hplay
  have hbound := hfirst e _ _ x hidle hstart
  rw [Config.move_self] at hown
  refine ⟨by omega, fun hcalling => ⟨?_, fun e' => henabled e' _ _ hcalling⟩⟩
  -- the step that comes next has a rank below
  obtain ⟨y, hnext⟩ := Option.isSome_iff_exists.mp (henabled e _ c'.shared hcalling)
  have hless := hcloser e _ _ y hcalling hnext
  omega

end Interleaving
