import Mathlib.Data.List.Infix
import Mathlib.Tactic.Common

/-!
Strings of parts that a separator stands in front of, as the path of a file is one of
directory names. The split of a string at the separators gives the parts back, and a
part between two separators shows as a factor of the string.
-/

namespace Separated

variable {α : Type*} {sep : α} {d p x : List α} {ds : List (List α)}

/-- Every part with the separator in front of it. -/
def joined (sep : α) (ds : List (List α)) : List α := ds.flatMap (fun d => sep :: d)

@[simp] theorem joined_nil : joined sep [] = [] := rfl

@[simp] theorem joined_cons : joined sep (d :: ds) = sep :: d ++ joined sep ds := rfl

@[simp] theorem joined_append (ds es : List (List α)) :
    joined sep (ds ++ es) = joined sep ds ++ joined sep es := by
  simp [joined]

theorem joined_concat : joined sep (ds ++ [d]) = joined sep ds ++ sep :: d := by
  simp [joined]

/-- A string of parts starts with the separator. -/
theorem exists_joined (hne : ds ≠ []) : ∃ y, joined sep ds = sep :: y := by
  obtain ⟨d, ds, rfl⟩ := List.exists_cons_of_ne_nil hne
  exact ⟨_, rfl⟩

variable [DecidableEq α]

/-- The string in front of its last separator. -/
theorem beforeLast_joined (hd : sep ∉ d) :
    ((joined sep (ds ++ [d])).reverse.dropWhile (fun c => c != sep)).tail.reverse =
      joined sep ds := by
  have hall : ∀ c ∈ d.reverse, (c != sep) = true := by
    intro c hc
    have hcd : c ∈ d := List.mem_reverse.mp hc
    exact bne_iff_ne.mpr (fun heq => hd (heq ▸ hcd))
  rw [joined_concat, List.reverse_append, List.reverse_cons, List.append_assoc,
    List.dropWhile_append_of_pos hall]
  simp

/-- The split is the part in front of the first separator and the parts behind one. -/
theorem splitOn_joined (hds : ∀ d ∈ ds, sep ∉ d) :
    (joined sep ds ++ sep :: x).splitOn sep = [] :: ds ++ x.splitOn sep := by
  induction ds using List.reverseRecOn generalizing x with
  | nil => exact List.splitOn_append_cons_self [] x
  | append_singleton ds d ih =>
      have hd : sep ∉ d := hds d (by simp)
      have hassoc : joined sep (ds ++ [d]) ++ sep :: x =
          joined sep ds ++ sep :: (d ++ sep :: x) := by
        simp
      rw [hassoc, ih (fun e he => hds e (by simp [he])),
        List.splitOn_append_cons_self_of_not_mem hd]
      simp

/-- A string is its first part and the others with the separator in front of them. -/
theorem exists_split (sep : α) (p : List α) :
    ∃ d ds, p.splitOn sep = d :: ds ∧ p = d ++ joined sep ds := by
  obtain ⟨d, ds, hsplit⟩ := List.exists_cons_of_ne_nil (List.splitOn_ne_nil sep p)
  have hjoin : ∀ (d : List α) ds, [sep].intercalate (d :: ds) = d ++ joined sep ds := by
    intro d ds
    induction ds generalizing d with
    | nil => simp
    | cons e ds ih => rw [List.intercalate_cons_cons, ih e, joined_cons]; simp
  refine ⟨d, ds, hsplit, ?_⟩
  rw [← hjoin, ← hsplit, List.intercalate_splitOn]

/-- A part stands between two separators when it is neither the first nor the last. -/
theorem infix_iff (hd : sep ∉ d) :
    sep :: d ++ [sep] <:+: p ↔ d ∈ (p.splitOn sep).tail.dropLast := by
  constructor
  · rintro ⟨a, b, rfl⟩
    have hassoc : a ++ (sep :: d ++ [sep]) ++ b = a ++ sep :: (d ++ sep :: b) := by simp
    rw [hassoc, List.splitOn_append_cons_self, List.splitOn_append_cons_self_of_not_mem hd]
    obtain ⟨u, us, hu⟩ := List.exists_cons_of_ne_nil (List.splitOn_ne_nil sep a)
    rw [hu, List.cons_append, List.tail_cons,
      List.dropLast_append_of_ne_nil (List.cons_ne_nil _ _),
      List.dropLast_cons_of_ne_nil (List.splitOn_ne_nil sep b)]
    simp
  · intro hmem
    obtain ⟨f, ds, hsplit, hp⟩ := exists_split sep p
    rw [hsplit, List.tail_cons] at hmem
    have hne : ds ≠ [] := by
      rintro rfl
      cases hmem
    obtain ⟨u, v, huv⟩ := List.append_of_mem hmem
    have hds : ds = u ++ d :: (v ++ [ds.getLast hne]) := by
      conv_lhs => rw [← List.dropLast_append_getLast hne, huv]
      simp
    obtain ⟨y, hy⟩ : ∃ y, joined sep (v ++ [ds.getLast hne]) = sep :: y :=
      exists_joined (by simp)
    refine ⟨f ++ joined sep u, y, ?_⟩
    rw [hp, hds, joined_append, joined_cons, hy]
    simp

/-- A string starts with a part between two separators when that is the second one of its
split, after an empty one. -/
theorem prefix_iff (hd : sep ∉ d) :
    sep :: d ++ [sep] <+: p ↔ ∃ e es, p.splitOn sep = [] :: d :: e :: es := by
  constructor
  · rintro ⟨b, rfl⟩
    have hassoc : sep :: d ++ [sep] ++ b = [] ++ sep :: (d ++ sep :: b) := by simp
    obtain ⟨e, es, he⟩ := List.exists_cons_of_ne_nil (List.splitOn_ne_nil sep b)
    refine ⟨e, es, ?_⟩
    rw [hassoc, List.splitOn_append_cons_self, List.splitOn_append_cons_self_of_not_mem hd, he]
    rfl
  · rintro ⟨e, es, hes⟩
    obtain ⟨f, ds, hsplit, hp⟩ := exists_split sep p
    obtain ⟨rfl, rfl⟩ := List.cons.inj (hsplit.symm.trans hes)
    exact ⟨e ++ joined sep es, by rw [hp]; simp⟩

end Separated
