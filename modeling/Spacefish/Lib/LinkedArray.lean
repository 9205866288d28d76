import Mathlib.Data.List.Nodup
import Mathlib.Logic.Function.Basic

/-!
Singly linked lists threaded through an array. A node is an array index, its
successor is given by a function `next`, and one index `nil` marks the end.
`Seg` describes a stretch of such a list and `Linked` a whole one. The edits
are the ones a program makes with one store to `next`: extend a list at its
tail, or redirect the last link of a stretch.
-/

namespace LinkedArray

variable {ι : Type*} {next next' : ι → ι} {nil i j k a b : ι} {l l₁ l₂ : List ι}

/-- Following `next` from `i` visits exactly the nodes of `l`, none of them
`nil`, and then stands at `j`. -/
def Seg (next : ι → ι) (nil : ι) : ι → List ι → ι → Prop
  | i, [], j => i = j
  | i, b :: l, j => i = b ∧ b ≠ nil ∧ Seg next nil (next b) l j

/-- A whole list: the walk from `i` visits `l` and ends at `nil`. -/
abbrev Linked (next : ι → ι) (nil i : ι) (l : List ι) : Prop :=
  Seg next nil i l nil

@[simp] theorem seg_nil : Seg next nil i [] j ↔ i = j := Iff.rfl

theorem seg_cons :
    Seg next nil i (b :: l) j ↔ i = b ∧ b ≠ nil ∧ Seg next nil (next b) l j := Iff.rfl

theorem seg_append :
    Seg next nil i (l₁ ++ l₂) k ↔ ∃ j, Seg next nil i l₁ j ∧ Seg next nil j l₂ k := by
  induction l₁ generalizing i with
  | nil => simp
  | cons b l ih =>
      simp only [List.cons_append, seg_cons, ih]
      constructor
      · rintro ⟨hi, hb, j, h₁, h₂⟩
        exact ⟨j, ⟨hi, hb, h₁⟩, h₂⟩
      · rintro ⟨j, ⟨hi, hb, h₁⟩, h₂⟩
        exact ⟨hi, hb, j, h₁, h₂⟩

theorem Seg.ne_nil (h : Seg next nil i l j) (hb : b ∈ l) : b ≠ nil := by
  induction l generalizing i with
  | nil => cases hb
  | cons c l ih =>
      obtain ⟨_, hc, htail⟩ := h
      rcases List.mem_cons.mp hb with rfl | hb
      · exact hc
      · exact ih htail hb

/-- A segment only reads the links of its own nodes. -/
theorem Seg.congr (h : Seg next nil i l j) (hagree : ∀ b ∈ l, next' b = next b) :
    Seg next' nil i l j := by
  induction l generalizing i with
  | nil => exact h
  | cons c l ih =>
      obtain ⟨hi, hc, htail⟩ := h
      refine ⟨hi, hc, ?_⟩
      rw [hagree c (by simp)]
      exact ih htail (fun b hb => hagree b (by simp [hb]))

theorem Linked.unique (h₁ : Linked next nil i l₁) (h₂ : Linked next nil i l₂) :
    l₁ = l₂ := by
  induction l₁ generalizing i l₂ with
  | nil =>
      cases l₂ with
      | nil => rfl
      | cons c l =>
          obtain ⟨hi, hc, _⟩ := h₂
          exact absurd (hi.symm.trans h₁) hc
  | cons b l ih =>
      obtain ⟨hi, hb, htail⟩ := h₁
      cases l₂ with
      | nil => exact absurd (hi.symm.trans h₂) hb
      | cons c l' =>
          obtain ⟨hi', _, htail'⟩ := h₂
          obtain rfl : b = c := hi.symm.trans hi'
          rw [ih htail htail']

/-- The part of a list from one of its nodes on is itself a list. -/
theorem Linked.suffix (h : Linked next nil i (l₁ ++ b :: l₂)) :
    Linked next nil b (b :: l₂) := by
  obtain ⟨j, _, h₂⟩ := seg_append.mp h
  obtain ⟨_, hb, htail⟩ := h₂
  exact ⟨rfl, hb, htail⟩

theorem Linked.suffix_cons (h : Linked next nil i (a :: b :: l₂)) :
    Linked next nil b (b :: l₂) :=
  Linked.suffix (show Linked next nil i ([a] ++ b :: l₂) from h)

theorem Linked.next_eq (h : Linked next nil i (l₁ ++ b :: l₂)) :
    next b = l₂.head?.getD nil := by
  obtain ⟨_, _, htail⟩ := h.suffix
  cases l₂ with
  | nil => exact htail
  | cons c l => exact htail.1

theorem Linked.head_eq (h : Linked next nil i l) : i = l.head?.getD nil := by
  cases l with
  | nil => exact h
  | cons c l => exact h.1

/-- A walk that ends never meets a node twice: both visits would have the
same remaining walk. -/
theorem Linked.nodup (h : Linked next nil i l) : l.Nodup := by
  induction l generalizing i with
  | nil => exact List.nodup_nil
  | cons b l ih =>
      obtain ⟨hi, hb, htail⟩ := h
      refine List.nodup_cons.mpr ⟨?_, ih htail⟩
      intro hmem
      obtain ⟨l₁, l₂, rfl⟩ := List.append_of_mem hmem
      have hlater : Linked next nil (next b) l₂ := (Linked.suffix htail).2.2
      have heq := Linked.unique htail hlater
      have hlen := congrArg List.length heq
      simp at hlen
      omega

/-- No node of a list that ends is its own successor. -/
theorem Linked.next_ne_self (h : Linked next nil i l) (hb : b ∈ l) : next b ≠ b := by
  intro hself
  obtain ⟨pre, post, rfl⟩ := List.append_of_mem hb
  have hnext := Linked.next_eq h
  cases post with
  | nil => exact Seg.ne_nil h hb (hself.symm.trans hnext)
  | cons c post =>
      obtain rfl : c = b := hnext.symm.trans hself
      have hnodup := Linked.nodup h
      simp [List.nodup_append] at hnodup

/-- Redirecting the last link of a stretch moves its end. -/
theorem Seg.redirect [DecidableEq ι] (h : Seg next nil i (l ++ [a]) j) (ha : a ∉ l) :
    Seg (Function.update next a k) nil i (l ++ [a]) k := by
  obtain ⟨m, hl, hlast⟩ := seg_append.mp h
  refine seg_append.mpr ⟨m, ?_, hlast.1, hlast.2.1, ?_⟩
  · refine hl.congr (fun b hb => Function.update_of_ne ?_ _ _)
    rintro rfl
    exact ha hb
  · simp

/-- A stretch whose last link is redirected to the head of a list that avoids
it becomes a list itself. -/
theorem Seg.splice [DecidableEq ι] (h : Seg next nil i (l₁ ++ [a]) j) (ha : a ∉ l₁)
    (hk : Linked next nil k l₂) (ha₂ : a ∉ l₂) :
    Linked (Function.update next a k) nil i (l₁ ++ [a] ++ l₂) := by
  refine seg_append.mpr ⟨k, h.redirect ha, hk.congr (fun b hb => Function.update_of_ne ?_ _ _)⟩
  rintro rfl
  exact ha₂ hb

/-- `n` hops along `next`, stopping at `nil`. -/
def hop (next : ι → ι) (nil : ι) [DecidableEq ι] : Nat → ι → ι
  | 0, i => i
  | n + 1, i => if i = nil then nil else hop next nil n (next i)

end LinkedArray
