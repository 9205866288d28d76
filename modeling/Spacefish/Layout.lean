import Spacefish.Representation

/-!
Where the bytes of a file lie. On a dense chain the byte at offset `k` is stored
in the `k / 4096`-th bucket at position `k % 4096`: this is the rule by which
`pread`, `pwrite` and `write_to_disk` translate offsets.
-/

namespace Spacefish

open LinkedArray Program Buffer

/-- Byte `k` of the content of a chain is stored in its bucket `k / 4096`, at
position `k % 4096`. -/
def LaidOut (d : DataShm) (l : List Nat) : Prop :=
  ∀ k v, (content d l)[k]? = some v →
    ∃ b, l[k / dbucketBufSize]? = some b ∧ k % dbucketBufSize < (d.bucket b).bytes ∧
      (d.bucket b).buf (k % dbucketBufSize) = v

variable {d d' : DataShm} {b c ix off n i : Nat} {l new pre : List Nat} {buf : List Byte}
  {r : Option WriteOut}

theorem dbucketBufSize_pos : 0 < dbucketBufSize := by decide

theorem bucketData_getElem? {k : Nat} : (bucketData d b)[k]? =
    if k < (d.bucket b).bytes then some ((d.bucket b).buf k) else none := by
  rw [bucketData, slice_getElem?, Nat.zero_add]

theorem dense_cons : Dense d (b :: l) ↔
    ((d.bucket b).bytes < dbucketBufSize → content d l = []) ∧ Dense d l := by
  unfold Dense
  rw [List.pairwise_cons]
  refine and_congr_left (fun _ => ⟨?_, ?_⟩)
  · intro h hlt
    exact content_eq_nil (fun c hc => h c hc hlt)
  · intro h c hc hlt
    have hlen : (bucketData d c).length = 0 := by
      have hnil := List.flatMap_eq_nil_iff.mp (h hlt) c hc
      rw [hnil]
      rfl
    rwa [bucketData_length] at hlen

theorem Dense.laidOut (hl : Dense d l) (hle : ∀ b, (d.bucket b).bytes ≤ dbucketBufSize) :
    LaidOut d l := by
  induction l with
  | nil =>
      intro k v hv
      cases hv
  | cons b l ih =>
      obtain ⟨hb, htail⟩ := dense_cons.mp hl
      intro k v hv
      rw [content_cons, List.getElem?_append, bucketData_length] at hv
      split at hv
      next hlt =>
        have hkb : k < dbucketBufSize := hlt.trans_le (hle b)
        rw [bucketData_getElem?, if_pos hlt] at hv
        refine ⟨b, ?_, ?_, ?_⟩
        · rw [Nat.div_eq_of_lt hkb]
          rfl
        · rwa [Nat.mod_eq_of_lt hkb]
        · rw [Nat.mod_eq_of_lt hkb]
          exact Option.some.inj hv
      next hge =>
        have hfull : (d.bucket b).bytes = dbucketBufSize := by
          by_contra hne
          have := hle b
          rw [hb (by omega)] at hv
          cases hv
        rw [hfull] at hv hge
        obtain ⟨c, hc, hmod, hbyte⟩ := ih htail _ v hv
        have hk : k = k - dbucketBufSize + dbucketBufSize := by omega
        refine ⟨c, ?_, ?_, ?_⟩
        · rw [hk, Nat.add_div_right _ dbucketBufSize_pos, List.getElem?_cons_succ]
          exact hc
        · rwa [hk, Nat.add_mod_right]
        · rwa [hk, Nat.add_mod_right]

/-- The full buckets at the start of a dense chain, and the rest, whose content
lies in its first bucket. -/
theorem Dense.split (hl : Dense d l) (hle : ∀ b, (d.bucket b).bytes ≤ dbucketBufSize) :
    ∃ l₁ l₂, l = l₁ ++ l₂ ∧ (∀ b ∈ l₁, (d.bucket b).bytes = dbucketBufSize) ∧
      total d l₂ < dbucketBufSize ∧ ∀ b ∈ l₂.head?, content d l₂ = bucketData d b := by
  induction l with
  | nil => exact ⟨[], [], rfl, by simp, dbucketBufSize_pos, by simp⟩
  | cons b l ih =>
      obtain ⟨hb, htail⟩ := dense_cons.mp hl
      by_cases hfull : (d.bucket b).bytes = dbucketBufSize
      · obtain ⟨l₁, l₂, rfl, h₁, h₂, h₃⟩ := ih htail
        refine ⟨b :: l₁, l₂, rfl, ?_, h₂, h₃⟩
        intro c hc
        rcases List.mem_cons.mp hc with rfl | hc
        · exact hfull
        · exact h₁ c hc
      · have hlt : (d.bucket b).bytes < dbucketBufSize := by
          have := hle b
          omega
        have hcontent : content d (b :: l) = bucketData d b := by
          rw [content_cons, hb hlt, List.append_nil]
        refine ⟨[], b :: l, rfl, by simp, ?_, ?_⟩
        · rw [← content_length, hcontent, bucketData_length]
          exact hlt
        · rintro c ⟨⟩
          exact hcontent

theorem total_of_full (hl : ∀ b ∈ l, (d.bucket b).bytes = dbucketBufSize) :
    total d l = l.length * dbucketBufSize := by
  induction l with
  | nil => simp
  | cons b l ih =>
      rw [total_cons, hl b (by simp), ih (fun c hc => hl c (by simp [hc])), List.length_cons,
        Nat.succ_mul, Nat.add_comm]

end Spacefish
