import Spacefish.CopySize

/-!
Chains filled in order. A chain is dense when every bucket behind one that is
not full is empty, and tight when every bucket but the last is full. A copy
keeps both, and on a dense chain it overwrites the content.
-/

namespace Spacefish

open LinkedArray Buffer

variable {d d' : DataShm} {b c ix off : Nat} {l new pre : List Nat} {buf chunk : List Byte}
  {r : Option WriteOut} {out : WriteOut}

/-- Once a bucket is not full, the buckets behind it are empty. -/
def Dense (d : DataShm) (l : List Nat) : Prop :=
  l.Pairwise (fun b c => (d.bucket b).bytes < dbucketBufSize → (d.bucket c).bytes = 0)

/-- Every bucket with another one behind it is full. -/
def Tight (d : DataShm) (l : List Nat) : Prop :=
  l.Pairwise (fun b _ => (d.bucket b).bytes = dbucketBufSize)

theorem Tight.dense (h : Tight d l) : Dense d l :=
  h.imp (fun hfull hlt => by omega)

/-- A copy keeps every relation between the sizes of a bucket and a later one
that a full bucket satisfies and that survives a growing first bucket. -/
theorem Copy.pairwise {P : Nat → Nat → Prop} (hcopy : Copy d l off buf d' r new)
    (hP : ∀ y, P dbucketBufSize y)
    (hmax : ∀ x y k, x ≤ dbucketBufSize → k ≤ dbucketBufSize → P x y → P (max x k) y)
    (hd : DataWf d) (hnodup : l.Nodup) (hown : ∀ a ∈ l, d.Owned a)
    (hl : l.Pairwise (fun b c => P (d.bucket b).bytes (d.bucket c).bytes)) :
    (l ++ new).Pairwise (fun b c => P (d'.bucket b).bytes (d'.bucket c).bytes) := by
  induction hcopy with
  | @last d b l off buf hfit =>
      obtain ⟨hb, _⟩ := List.nodup_cons.mp hnodup
      obtain ⟨hhead, htail⟩ := List.pairwise_cons.mp hl
      have hsame : ∀ a ∈ l, (d.put b off buf).bucket a = d.bucket a := by
        intro a ha
        refine put_bucket_of_ne ?_
        rintro rfl
        exact hb ha
      rw [List.append_nil]
      refine List.pairwise_cons.mpr ⟨?_, ?_⟩
      · intro a ha
        rw [put_bytes_self hfit, hsame a ha]
        exact hmax _ _ _ (hd.bytes_le b) hfit (hhead a ha)
      · refine htail.imp_of_mem ?_
        intro a a' ha ha' hPa
        rw [hsame a ha, hsame a' ha']
        exact hPa
  | @next d b c l off chunk buf d' r new hfull hmore hrest ih =>
      obtain ⟨hb, htail⟩ := List.nodup_cons.mp hnodup
      have huse := (hown b (by simp)).2
      have hsame : ∀ a ∈ c :: l, (d.put b off chunk).bucket a = d.bucket a := by
        intro a ha
        refine put_bucket_of_ne ?_
        rintro rfl
        exact hb ha
      refine List.pairwise_cons.mpr ⟨?_, ?_⟩
      · intro a _
        have := hd.bytes_le b
        rw [hrest.bucket_done hb (by rw [put_inUse]; exact huse), put_bytes_self (by omega), hfull,
          Nat.max_eq_right this]
        exact hP _
      · refine ih (hd.put huse (by omega)) htail
          (owned_put (fun a ha => hown a (List.mem_cons_of_mem _ ha))) ?_
        refine (List.pairwise_cons.mp hl).2.imp_of_mem ?_
        intro a a' ha ha' hPa
        rw [hsame a ha, hsame a' ha']
        exact hPa
  | @grow d b ix off chunk buf d' r new hfull hmore hix hfree hrest ih =>
      have huse := (hown b (by simp)).2
      have hb := grow_not_mem huse hfree
      have hne : ix ≠ b := fun heq => hb (by simp [heq])
      refine List.pairwise_cons.mpr ⟨?_, ?_⟩
      · intro a _
        have := hd.bytes_le b
        rw [hrest.bucket_done hb (by rw [grow_inUse, if_neg hne.symm, put_inUse]; exact huse),
          grow_bytes, put_bytes_self (by omega), hfull, Nat.max_eq_right this]
        exact hP _
      · exact ih ((hd.put huse (by omega)).grow (by rw [put_inUse]; exact huse) hix
          (by rw [put_inUse]; exact hfree)) (List.nodup_singleton ix) (owned_grow hix)
          (List.pairwise_singleton _ _)
  | full hfull hmore hover => exact List.pairwise_singleton _ _

theorem Copy.dense (hcopy : Copy d l off buf d' r new) (hd : DataWf d) (hnodup : l.Nodup)
    (hown : ∀ a ∈ l, d.Owned a) (hl : Dense d l) : Dense d' (l ++ new) := by
  refine hcopy.pairwise (P := fun x y => x < dbucketBufSize → y = 0) ?_ ?_ hd hnodup hown hl
  · intro y hlt
    omega
  · intro x y k _ _ hxy hlt
    exact hxy (by omega)

theorem Copy.tight (hcopy : Copy d l off buf d' r new) (hd : DataWf d) (hnodup : l.Nodup)
    (hown : ∀ a ∈ l, d.Owned a) (hl : Tight d l) : Tight d' (l ++ new) := by
  refine hcopy.pairwise (P := fun x _ => x = dbucketBufSize) (fun _ => rfl) ?_ hd hnodup hown hl
  intro x _ k hx hk hxy
  omega

theorem put_bucketData (hfit : off + chunk.length ≤ dbucketBufSize)
    (hoff : off ≤ (d.bucket b).bytes) :
    bucketData (d.put b off chunk) b = overwrite (bucketData d b) off chunk := by
  rw [bucketData, put_bytes_self hfit]
  simp only [DataShm.put, set_bucket_self, DataBucket.put]
  exact slice_memcpy _ _ _ _ hoff

theorem content_put_of_not_mem (hb : b ∉ l) : content (d.put b off chunk) l = content d l := by
  refine content_congr (fun c hc => put_bucket_of_ne ?_)
  rintro rfl
  exact hb hc

/-- The content of empty buckets. -/
theorem content_eq_nil (h : ∀ a ∈ l, (d.bucket a).bytes = 0) : content d l = [] := by
  induction l with
  | nil => rfl
  | cons a l ih =>
      rw [content_cons, ih (fun c hc => h c (by simp [hc]))]
      simp [bucketData, h a (by simp)]

/-- A bucket that is filled up to its end and whatever was copied behind it. -/
theorem overwrite_filled {data rest : List Byte}
    (hdata : data.length ≤ off + chunk.length)
    (hdense : data.length < off + chunk.length → rest = []) :
    overwrite data off chunk ++ overwrite rest 0 buf =
      overwrite (data ++ rest) off (chunk ++ buf) := by
  by_cases hlt : data.length < off + chunk.length
  · rw [hdense hlt, List.append_nil, overwrite_of_le data off chunk hdata,
      overwrite_of_le data off (chunk ++ buf) (by rw [List.length_append]; omega)]
    simp [overwrite]
  · exact (overwrite_append_across data rest off chunk buf (by omega)).symm

/-- On a dense chain a copy overwrites the content. -/
theorem Copy.content_eq (hcopy : Copy d l off buf d' r new) (hr : r = some out) (hd : DataWf d)
    (hnodup : l.Nodup) (hown : ∀ a ∈ l, d.Owned a) (hl : Dense d l)
    (hoff : ∀ b ∈ l.head?, off ≤ (d.bucket b).bytes) :
    content d' (l ++ new) = overwrite (content d l) off buf := by
  induction hcopy generalizing out with
  | @last d b l off buf hfit =>
      have hb := (List.nodup_cons.mp hnodup).1
      have hoffb := hoff b (by simp)
      rw [List.append_nil, content_cons, content_cons, put_bucketData hfit hoffb,
        content_put_of_not_mem hb]
      by_cases hin : off + buf.length ≤ (bucketData d b).length
      · exact (overwrite_append_left _ _ _ _ hin).symm
      · have hnil : content d l = [] := by
          refine content_eq_nil (fun a ha => (List.pairwise_cons.mp hl).1 a ha ?_)
          rw [bucketData_length] at hin
          omega
        rw [hnil, List.append_nil, List.append_nil]
  | @next d b c l off chunk buf d' r new hfull hmore hrest ih =>
      obtain ⟨out', rfl, _⟩ := Option.map_eq_some_iff.mp hr
      obtain ⟨hb, htail⟩ := List.nodup_cons.mp hnodup
      have huse := (hown b (by simp)).2
      have hoffb := hoff b (by simp)
      have hle := hd.bytes_le b
      have hsame : ∀ a ∈ c :: l, (d.put b off chunk).bucket a = d.bucket a := by
        intro a ha
        refine put_bucket_of_ne ?_
        rintro rfl
        exact hb ha
      have hdense : Dense (d.put b off chunk) (c :: l) := by
        refine (List.pairwise_cons.mp hl).2.imp_of_mem ?_
        intro a a' ha ha' hP
        rw [hsame a ha, hsame a' ha']
        exact hP
      have hlater := ih rfl (hd.put huse (by omega)) htail
        (owned_put (fun a ha => hown a (List.mem_cons_of_mem _ ha))) hdense
        (fun _ _ => Nat.zero_le _)
      have hbd : bucketData d' b = overwrite (bucketData d b) off chunk := by
        rw [← put_bucketData (by omega) hoffb, bucketData, bucketData,
          hrest.bucket_done hb (by rw [put_inUse]; exact huse)]
      rw [List.cons_append, content_cons, hlater, hbd, content_put_of_not_mem hb,
        content_cons (b := b)]
      refine overwrite_filled (by simp; omega) (fun hlt => ?_)
      refine content_eq_nil (fun a ha => (List.pairwise_cons.mp hl).1 a ha ?_)
      rw [bucketData_length] at hlt
      omega
  | @grow d b ix off chunk buf d' r new hfull hmore hix hfree hrest ih =>
      obtain ⟨out', rfl, _⟩ := Option.map_eq_some_iff.mp hr
      have huse := (hown b (by simp)).2
      have hb := grow_not_mem huse hfree
      have hne : ix ≠ b := fun heq => hb (by simp [heq])
      have hoffb := hoff b (by simp)
      have hle := hd.bytes_le b
      have hlater := ih rfl ((hd.put huse (by omega)).grow (by rw [put_inUse]; exact huse) hix
          (by rw [put_inUse]; exact hfree)) (List.nodup_singleton ix) (owned_grow hix)
          (List.pairwise_singleton _ _) (fun _ _ => Nat.zero_le _)
      have hnew : content ((d.put b off chunk).grow b ix) [ix] = [] := by
        refine content_eq_nil (fun a ha => ?_)
        obtain rfl : a = ix := by simpa using ha
        rw [grow_bytes, put_bucket_of_ne hne]
        exact hd.empty a hfree
      have hbd : bucketData d' b = overwrite (bucketData d b) off chunk := by
        rw [← put_bucketData (by omega) hoffb, bucketData,
          hrest.bucket_done hb (by rw [grow_inUse, if_neg hne.symm, put_inUse]; exact huse)]
        exact grow_bucketData
      rw [List.singleton_append] at hlater
      rw [List.singleton_append, content_cons, hlater, hbd, hnew, content_cons, content_nil]
      exact overwrite_filled (by simp; omega) (fun _ => rfl)
  | full hfull hmore hover => cases hr

end Spacefish
