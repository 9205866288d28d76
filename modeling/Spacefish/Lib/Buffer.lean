import Mathlib.Data.List.Basic
import Mathlib.Tactic.Ring

/-!
Byte buffers and the two list operations a copy loop implements: reading a
slice of a buffer and overwriting a list from a position on. A buffer is a
total function of the position, so that a slice may be taken anywhere; the
lists are the part of it that counts as content.
-/

namespace Buffer

variable {α : Type*}

/-- `n` cells of the buffer from position `off` on. -/
def slice (buf : Nat → α) (off n : Nat) : List α :=
  (List.range n).map (fun i => buf (off + i))

/-- The buffer after copying `src` to position `off`. -/
def memcpy (buf : Nat → α) (off : Nat) (src : List α) : Nat → α := fun i =>
  if off ≤ i then (src[i - off]?).getD (buf i) else buf i

/-- `content` with `d` written at position `pos`, extended when `d` reaches
past the end. -/
def overwrite (content : List α) (pos : Nat) (d : List α) : List α :=
  content.take pos ++ d ++ content.drop (pos + d.length)

@[simp] theorem slice_length (buf : Nat → α) (off n : Nat) :
    (slice buf off n).length = n := by
  simp [slice]

@[simp] theorem slice_zero (buf : Nat → α) (off : Nat) : slice buf off 0 = [] := rfl

theorem slice_getElem? (buf : Nat → α) (off n i : Nat) :
    (slice buf off n)[i]? = if i < n then some (buf (off + i)) else none := by
  by_cases h : i < n
  · simp [slice, h]
  · simp [slice, h]

theorem slice_take (buf : Nat → α) (off n k : Nat) :
    (slice buf off n).take k = slice buf off (min k n) := by
  apply List.ext_getElem?
  intro i
  simp only [List.getElem?_take, slice_getElem?, Nat.lt_min]
  by_cases hk : i < k <;> simp [hk]

theorem slice_drop (buf : Nat → α) (off n k : Nat) :
    (slice buf off n).drop k = slice buf (off + k) (n - k) := by
  apply List.ext_getElem?
  intro i
  simp only [List.getElem?_drop, slice_getElem?]
  split <;> split <;> first | omega | rfl | (congr 2; omega)

theorem slice_congr {buf buf' : Nat → α} {off n : Nat}
    (h : ∀ i, off ≤ i → i < off + n → buf i = buf' i) :
    slice buf off n = slice buf' off n := by
  apply List.map_congr_left
  intro i hi
  have hlt := List.mem_range.mp hi
  exact h _ (by omega) (by omega)

/-- Copying into a buffer overwrites the content that lies in it, provided the
copy starts no later than the content ends. -/
theorem slice_memcpy (buf : Nat → α) (off n : Nat) (src : List α) (h : off ≤ n) :
    slice (memcpy buf off src) 0 (max n (off + src.length)) =
      overwrite (slice buf 0 n) off src := by
  apply List.ext_getElem?
  intro i
  simp only [overwrite, slice_take, slice_drop, List.append_assoc,
    List.getElem?_append, slice_getElem?, slice_length, memcpy, Nat.zero_add]
  by_cases h₁ : i < min off n
  · have h₂ : i < max n (off + src.length) := by omega
    have h₃ : ¬ off ≤ i := by omega
    simp [h₁, h₂, h₃]
  · by_cases h₄ : i - min off n < src.length
    · have h₂ : i < max n (off + src.length) := by omega
      have h₃ : off ≤ i := by omega
      have h₅ : i - min off n = i - off := by omega
      rw [h₅] at h₄
      simp [h₁, h₂, h₃, h₅, h₄]
    · by_cases h₂ : i < max n (off + src.length)
      · have h₃ : off ≤ i := by omega
        have h₅ : src[i - off]? = none := List.getElem?_eq_none (by omega)
        have h₆ : i - min off n - src.length < n - (off + src.length) := by omega
        have h₇ : off + src.length + (i - min off n - src.length) = i := by omega
        simp [h₁, h₂, h₃, h₄, h₅, h₆, h₇]
      · have h₆ : ¬ i - min off n - src.length < n - (off + src.length) := by omega
        simp [h₁, h₂, h₄, h₆]

@[simp] theorem memcpy_nil (buf : Nat → α) (off : Nat) : memcpy buf off [] = buf := by
  funext i
  simp [memcpy]

/-- Two copies, the second right behind the first, are one. -/
theorem memcpy_append (buf : Nat → α) (off : Nat) (src₁ src₂ : List α) :
    memcpy (memcpy buf off src₁) (off + src₁.length) src₂ = memcpy buf off (src₁ ++ src₂) := by
  funext i
  simp only [memcpy, List.getElem?_append]
  by_cases h₁ : off ≤ i
  · by_cases h₂ : i - off < src₁.length
    · have h₃ : ¬ off + src₁.length ≤ i := by omega
      simp [h₁, h₂, h₃]
    · have h₃ : off + src₁.length ≤ i := by omega
      have h₄ : src₁[i - off]? = none := List.getElem?_eq_none (by omega)
      rw [if_pos h₃, if_pos h₁, if_pos h₁, if_neg h₂, h₄, Option.getD_none, Nat.sub_sub]
  · have h₃ : ¬ off + src₁.length ≤ i := by omega
    simp [h₁, h₃]

/-- The part of the buffer that a copy to its start has filled. -/
theorem slice_memcpy_zero (buf : Nat → α) (src : List α) :
    slice (memcpy buf 0 src) 0 src.length = src := by
  have h := slice_memcpy buf 0 0 src (Nat.le_refl 0)
  simpa [overwrite] using h

/-- A position outside the copied range. -/
theorem memcpy_of_le (buf : Nat → α) {off i : Nat} {src : List α} (h : off + src.length ≤ i) :
    memcpy buf off src i = buf i := by
  rw [memcpy, List.getElem?_eq_none (by omega)]
  simp

@[simp] theorem overwrite_nil_data (content : List α) (pos : Nat) :
    overwrite content pos [] = content := by
  simp [overwrite]

/-- Overwriting past a first part leaves that part alone. -/
theorem overwrite_append_right (l₁ l₂ : List α) (pos : Nat) (d : List α) :
    overwrite (l₁ ++ l₂) (l₁.length + pos) d = l₁ ++ overwrite l₂ pos d := by
  simp only [overwrite, Nat.add_assoc, List.append_assoc, List.take_length_add_append,
    List.drop_length_add_append]

/-- A write that stays inside the first part leaves the rest alone. -/
theorem overwrite_append_left (l₁ l₂ : List α) (pos : Nat) (d : List α)
    (h : pos + d.length ≤ l₁.length) :
    overwrite (l₁ ++ l₂) pos d = overwrite l₁ pos d ++ l₂ := by
  have h₁ : pos ≤ l₁.length := by omega
  simp only [overwrite, List.take_append_of_le_length h₁, List.drop_append_of_le_length h,
    List.append_assoc]

/-- A write that fills the first part exactly to its end and runs on continues
at the start of the rest. -/
theorem overwrite_append_across (l₁ l₂ : List α) (pos : Nat) (d₁ d₂ : List α)
    (h : pos + d₁.length = l₁.length) :
    overwrite (l₁ ++ l₂) pos (d₁ ++ d₂) = overwrite l₁ pos d₁ ++ overwrite l₂ 0 d₂ := by
  have h₁ : pos ≤ l₁.length := by omega
  have h₂ : pos + (d₁.length + d₂.length) = l₁.length + d₂.length := by omega
  simp only [overwrite, List.take_append_of_le_length h₁, List.length_append, h₂,
    List.drop_length_add_append, List.append_assoc, List.take_zero, List.nil_append,
    Nat.zero_add]
  rw [h, List.drop_length, List.nil_append]

/-- A write that reaches the end of the content replaces everything after its
start. -/
theorem overwrite_of_le (content : List α) (pos : Nat) (d : List α)
    (h : content.length ≤ pos + d.length) :
    overwrite content pos d = content.take pos ++ d := by
  simp [overwrite, List.drop_eq_nil_of_le h]

end Buffer
