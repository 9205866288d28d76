import Spacefish.Copy

/-!
Consequences of a copy: which buckets it changes, that the chain stays linked
and grows only at its end, that the store stays well formed, by how much the
chain grows, and where the cursor ends up.
-/

namespace Spacefish

open LinkedArray Buffer

variable {d d' : DataShm} {b c ix off : Nat} {l new pre : List Nat} {buf chunk : List Byte}
  {r : Option WriteOut} {out : WriteOut}

theorem DataWf.put (hd : DataWf d) (hb : (d.bucket b).inUse = true)
    (hfit : off + chunk.length ≤ dbucketBufSize) : DataWf (d.put b off chunk) := by
  refine ⟨hd.toLinksOk.put b off chunk, ?_, ?_⟩
  · intro c
    by_cases hne : c = b
    · subst hne
      have := hd.bytes_le c
      rw [DataShm.put, set_bucket_self, put_bytes hfit]
      omega
    · rw [put_bucket_of_ne hne]
      exact hd.bytes_le c
  · intro c hc
    rw [put_inUse] at hc
    have hne : c ≠ b := by
      rintro rfl
      rw [hb] at hc
      cases hc
    rw [put_bucket_of_ne hne]
    exact hd.empty c hc

theorem DataWf.grow (hd : DataWf d) (hb : (d.bucket b).inUse = true) (hix : ix < totBuckets)
    (hfree : (d.bucket ix).inUse = false) : DataWf (d.grow b ix) := by
  refine ⟨hd.toLinksOk.grow hb hix hfree, ?_, ?_⟩
  · intro c
    rw [grow_bytes]
    exact hd.bytes_le c
  · intro c hc
    rw [grow_inUse] at hc
    rw [grow_bytes]
    by_cases hcix : c = ix
    · simp [hcix] at hc
    · rw [if_neg hcix] at hc
      exact hd.empty c hc

/-- Only the buckets of the chain and the appended ones change. -/
theorem Copy.frame (hcopy : Copy d l off buf d' r new) (hc : c ∉ l) (hnew : c ∉ new) :
    d'.bucket c = d.bucket c := by
  induction hcopy with
  | last hfit => exact put_bucket_of_ne (fun heq => hc (by simp [heq]))
  | next hfull hmore hrest ih =>
      rw [ih (fun hmem => hc (by simp [List.mem_cons.mp hmem])) hnew]
      exact put_bucket_of_ne (fun heq => hc (by simp [heq]))
  | grow hfull hmore hix hfree hrest ih =>
      rw [ih (by simp_all) (by simp_all), grow_bucket_of_ne (by simp_all) (by simp_all)]
      exact put_bucket_of_ne (fun heq => hc (by simp [heq]))
  | full hfull hmore hover => exact put_bucket_of_ne (fun heq => hc (by simp [heq]))

/-- The appended buckets were free. -/
theorem Copy.fresh (hcopy : Copy d l off buf d' r new) (hc : c ∈ new) :
    c < totBuckets ∧ (d.bucket c).inUse = false := by
  induction hcopy with
  | last hfit => cases hc
  | next hfull hmore hrest ih => simpa using ih hc
  | grow hfull hmore hix hfree hrest ih =>
      rcases List.mem_cons.mp hc with rfl | hc
      · exact ⟨hix, hfree⟩
      · obtain ⟨hlt, huse⟩ := ih hc
        rw [grow_inUse] at huse
        split at huse
        · cases huse
        · exact ⟨hlt, by simpa using huse⟩
  | full hfull hmore hover => cases hc

/-- Nothing but the appended buckets becomes used, and nothing is freed. -/
theorem Copy.inUse (hcopy : Copy d l off buf d' r new) :
    (d'.bucket c).inUse = true ↔ (d.bucket c).inUse = true ∨ c ∈ new := by
  induction hcopy with
  | last hfit => simp
  | next hfull hmore hrest ih => rw [ih, put_inUse]
  | @grow d b ix off chunk buf d' r new hfull hmore hix hfree hrest ih =>
      rw [ih, grow_inUse, List.mem_cons]
      by_cases hcix : c = ix
      · simp [hcix]
      · simp [hcix]
  | full hfull hmore hover => simp

theorem Copy.dataWf (hcopy : Copy d l off buf d' r new) (hd : DataWf d)
    (hown : ∀ c ∈ l, d.Owned c) : DataWf d' := by
  induction hcopy with
  | @last d b l off buf hfit => exact hd.put (hown b (by simp)).2 hfit
  | @next d b c l off chunk buf d' r new hfull hmore hrest ih =>
      refine ih (hd.put (hown b (by simp)).2 (by omega)) ?_
      intro a ha
      have := hown a (by simp [List.mem_cons.mp ha])
      exact ⟨this.1, by rw [put_inUse]; exact this.2⟩
  | @grow d b ix off chunk buf d' r new hfull hmore hix hfree hrest ih =>
      have hb := (hown b (by simp)).2
      refine ih ((hd.put hb (by omega)).grow (by rw [put_inUse]; exact hb) hix
        (by rw [put_inUse]; exact hfree)) ?_
      intro a ha
      obtain rfl : a = ix := by simpa using ha
      exact ⟨hix, by rw [grow_inUse, if_pos rfl]⟩
  | @full d b off chunk buf hfull hmore hover => exact hd.put (hown b (by simp)).2 (by omega)

/-- The chain stays linked and is extended at its end. -/
theorem Copy.linked (hcopy : Copy d (b :: l) off buf d' r new) (hd : LinksOk d)
    (hl : Linked d.next noIx b (b :: l)) (hown : ∀ c ∈ b :: l, d.Owned c) :
    Linked d'.next noIx b (b :: l ++ new) := by
  generalize hchain : b :: l = chain at hcopy
  induction hcopy generalizing b l with
  | last hfit =>
      rw [List.append_nil]
      refine Seg.congr (hchain ▸ hl) (fun a _ => ?_)
      rw [put_next]
  | @next d b' c l' off chunk buf d' r new hfull hmore hrest ih =>
      obtain ⟨rfl, rfl⟩ : b = b' ∧ l = c :: l' := by simpa using hchain
      have htail : Linked d.next noIx c (c :: l') := Linked.suffix_cons hl
      have hnodup : b ∉ c :: l' := (List.nodup_cons.mp (Linked.nodup hl)).1
      have hlater := ih (b := c) (l := l') (hd.put b off chunk)
        (Seg.congr htail (fun a _ => by rw [put_next]))
        (fun a ha => by
          have := hown a (by simp [List.mem_cons.mp ha])
          exact ⟨this.1, by rw [put_inUse]; exact this.2⟩) rfl
      refine ⟨rfl, hl.2.1, ?_⟩
      have hb : d'.next b = c := by
        have hnew : b ∉ new := fun hmem => by
          have hf := (hrest.fresh hmem).2
          rw [put_inUse, (hown b (by simp)).2] at hf
          cases hf
        rw [DataShm.next, hrest.frame hnodup hnew]
        exact put_next.trans hl.2.2.1
      rw [hb]
      exact hlater
  | @grow d b' ix off chunk buf d' r new hfull hmore hix hfree hrest ih =>
      obtain ⟨rfl, rfl⟩ : b = b' ∧ l = [] := by simpa using hchain
      have hown' := hown b (by simp)
      have hne : ix ≠ b := by
        rintro rfl
        rw [hown'.2] at hfree
        cases hfree
      have hown'' : ∀ a ∈ [ix], ((d.put b off chunk).grow b ix).Owned a := by
        intro a ha
        obtain rfl : a = ix := by simpa using ha
        exact ⟨hix, by rw [grow_inUse, if_pos rfl]⟩
      have hlater := ih (b := ix) (l := [])
        ((hd.put b off chunk).grow (by rw [put_inUse]; exact hown'.2) hix
          (by rw [put_inUse]; exact hfree))
        ⟨rfl, (hown'' ix (by simp)).ne_noIx, by
          rw [seg_nil, grow_next hne, if_neg hne, put_next]
          exact hd.fresh ix hfree⟩ hown'' rfl
      refine ⟨rfl, hl.2.1, ?_⟩
      have hb : d'.next b = ix := by
        have hnew : b ∉ new := fun hmem => by
          have hf := (hrest.fresh hmem).2
          rw [grow_inUse, if_neg hne.symm, put_inUse, hown'.2] at hf
          cases hf
        rw [DataShm.next, hrest.frame (by simp [hne.symm]) hnew]
        exact (grow_next hne).trans (if_pos rfl)
      rw [hb]
      exact hlater
  | full hfull hmore hover =>
      rw [List.append_nil]
      refine Seg.congr (hchain ▸ hl) (fun a _ => ?_)
      rw [put_next]

end Spacefish
