import Spacefish.CopyFacts

/-!
Sizes and contents under a copy. The chain grows by the size the loop reports;
the cursor stands behind the copied bytes; on a chain whose buckets are filled
in order the content is overwritten from the start position on, and the chain
is filled in order again.
-/

namespace Spacefish

open LinkedArray Buffer

variable {d d' : DataShm} {b c ix off : Nat} {l new pre : List Nat} {buf chunk : List Byte}
  {r : Option WriteOut} {out : WriteOut}

theorem put_bytes_self (hfit : off + chunk.length ≤ dbucketBufSize) :
    ((d.put b off chunk).bucket b).bytes = max (d.bucket b).bytes (off + chunk.length) := by
  rw [DataShm.put, set_bucket_self, put_bytes hfit]

theorem put_bytes_ge (hfit : off + chunk.length ≤ dbucketBufSize) :
    (d.bucket c).bytes ≤ ((d.put b off chunk).bucket c).bytes := by
  by_cases hne : c = b
  · subst hne
    rw [put_bytes_self hfit]
    omega
  · rw [put_bucket_of_ne hne]

theorem total_put_of_not_mem (hb : b ∉ l) : total (d.put b off chunk) l = total d l := by
  refine total_congr (fun c hc => ?_)
  have hne : c ≠ b := by
    rintro rfl
    exact hb hc
  rw [put_bucket_of_ne hne]

theorem Copy.bytes_ge (hcopy : Copy d l off buf d' r new) :
    (d.bucket c).bytes ≤ (d'.bucket c).bytes := by
  induction hcopy with
  | last hfit => exact put_bytes_ge hfit
  | next hfull hmore hrest ih => exact (put_bytes_ge (by omega)).trans ih
  | @grow d b ix off chunk buf d' r new hfull hmore hix hfree hrest ih =>
      have hput : (d.bucket c).bytes ≤ ((d.put b off chunk).bucket c).bytes :=
        put_bytes_ge (by omega)
      rw [grow_bytes] at ih
      exact hput.trans ih
  | full hfull hmore hover => exact put_bytes_ge (by omega)

theorem Copy.n_eq (hcopy : Copy d l off buf d' r new) (hr : r = some out) :
    out.n = buf.length := by
  induction hcopy generalizing out with
  | last hfit =>
      obtain rfl := Option.some.inj hr
      rfl
  | next hfull hmore hrest ih =>
      obtain ⟨out', rfl, rfl⟩ := Option.map_eq_some_iff.mp hr
      rw [List.length_append, ← ih rfl, WriteOut.after]
  | grow hfull hmore hix hfree hrest ih =>
      obtain ⟨out', rfl, rfl⟩ := Option.map_eq_some_iff.mp hr
      rw [List.length_append, ← ih rfl, WriteOut.after]
  | full hfull hmore hover => cases hr

/-- The first bucket of a chain is done after the first round. -/
theorem Copy.bucket_done (hrest : Copy d l off buf d' r new) (hb : b ∉ l)
    (huse : (d.bucket b).inUse = true) : d'.bucket b = d.bucket b := by
  refine hrest.frame hb (fun hmem => ?_)
  rw [(hrest.fresh hmem).2] at huse
  cases huse

theorem grow_not_mem (huse : (d.bucket b).inUse = true) (hfree : (d.bucket ix).inUse = false) :
    b ∉ [ix] := by
  intro hmem
  obtain rfl : b = ix := by simpa using hmem
  rw [huse] at hfree
  cases hfree

theorem owned_put (hown : ∀ a ∈ l, d.Owned a) : ∀ a ∈ l, (d.put b off chunk).Owned a :=
  fun a ha => ⟨(hown a ha).1, by rw [put_inUse]; exact (hown a ha).2⟩

theorem owned_grow (hix : ix < totBuckets) : ∀ a ∈ [ix], (d.grow b ix).Owned a := by
  intro a ha
  obtain rfl : a = ix := by simpa using ha
  exact ⟨hix, by rw [grow_inUse, if_pos rfl]⟩

theorem total_grow_new (hd : DataWf d) (hfree : (d.bucket ix).inUse = false)
    (hne : ix ≠ b) : total ((d.put b off chunk).grow b ix) [ix] = 0 := by
  rw [total_cons, total_nil, grow_bytes, put_bucket_of_ne hne, hd.empty ix hfree]

/-- The chain grows by the size the loop reports. -/
theorem Copy.total_eq (hcopy : Copy d l off buf d' r new) (hr : r = some out) (hd : DataWf d)
    (hnodup : l.Nodup) (hown : ∀ a ∈ l, d.Owned a) :
    total d' (l ++ new) = total d l + out.sizeInd := by
  induction hcopy generalizing out with
  | @last d b l off buf hfit =>
      obtain rfl := Option.some.inj hr
      have hb := (List.nodup_cons.mp hnodup).1
      rw [List.append_nil, total_cons, total_cons, total_put_of_not_mem hb, put_bytes_self hfit]
      simp only [DataShm.gain]
      omega
  | @next d b c l off chunk buf d' r new hfull hmore hrest ih =>
      obtain ⟨out', rfl, rfl⟩ := Option.map_eq_some_iff.mp hr
      obtain ⟨hb, htail⟩ := List.nodup_cons.mp hnodup
      have huse := (hown b (by simp)).2
      have hlater := ih rfl (hd.put huse (by omega)) htail
        (owned_put (fun a ha => hown a (List.mem_cons_of_mem _ ha)))
      rw [List.cons_append, total_cons, hlater, total_put_of_not_mem hb, total_cons (b := b),
        hrest.bucket_done hb (by rw [put_inUse]; exact huse), put_bytes_self (by omega)]
      simp only [DataShm.gain, WriteOut.after]
      omega
  | @grow d b ix off chunk buf d' r new hfull hmore hix hfree hrest ih =>
      obtain ⟨out', rfl, rfl⟩ := Option.map_eq_some_iff.mp hr
      have huse := (hown b (by simp)).2
      have hb := grow_not_mem huse hfree
      have hne : ix ≠ b := fun heq => hb (by simp [heq])
      have hlater := ih rfl
        ((hd.put huse (by omega)).grow (by rw [put_inUse]; exact huse) hix
          (by rw [put_inUse]; exact hfree))
        (List.nodup_singleton ix) (owned_grow hix)
      rw [List.singleton_append] at hlater
      rw [List.singleton_append, total_cons, hlater, total_grow_new hd hfree hne,
        hrest.bucket_done hb (by rw [grow_inUse, if_neg hne.symm, put_inUse]; exact huse),
        grow_bytes, put_bytes_self (by omega), total_cons, total_nil]
      simp only [DataShm.gain, WriteOut.after]
      omega
  | full hfull hmore hover => cases hr

/-- The cursor stands on the chain, behind the copied bytes and not behind the
bytes of its bucket; the buckets before it are full. -/
theorem Copy.cursor (hcopy : Copy d l off buf d' r new) (hr : r = some out) (hd : DataWf d)
    (hnodup : l.Nodup) (hown : ∀ a ∈ l, d.Owned a) :
    ∃ l₁ l₂, l ++ new = l₁ ++ out.dbindex :: l₂ ∧
      (∀ a ∈ l₁, (d'.bucket a).bytes = dbucketBufSize) ∧
      out.off ≤ (d'.bucket out.dbindex).bytes ∧
      l₁.length * dbucketBufSize + out.off = off + buf.length := by
  induction hcopy generalizing out with
  | @last d b l off buf hfit =>
      obtain rfl := Option.some.inj hr
      refine ⟨[], l, by simp, by simp, ?_, by simp⟩
      rw [put_bytes_self hfit]
      exact Nat.le_max_right _ _
  | @next d b c l off chunk buf d' r new hfull hmore hrest ih =>
      obtain ⟨out', rfl, rfl⟩ := Option.map_eq_some_iff.mp hr
      obtain ⟨hb, htail⟩ := List.nodup_cons.mp hnodup
      have huse := (hown b (by simp)).2
      obtain ⟨l₁, l₂, hsplit, hfullb, hoff, hpos⟩ := ih rfl (hd.put huse (by omega)) htail
        (owned_put (fun a ha => hown a (List.mem_cons_of_mem _ ha)))
      refine ⟨b :: l₁, l₂, by rw [List.cons_append, hsplit]; rfl, ?_, hoff, ?_⟩
      · intro a ha
        rcases List.mem_cons.mp ha with rfl | ha
        · have := hd.bytes_le a
          rw [hrest.bucket_done hb (by rw [put_inUse]; exact huse), put_bytes_self (by omega)]
          omega
        · exact hfullb a ha
      · rw [List.length_cons, Nat.succ_mul, List.length_append]
        simp only [WriteOut.after]
        omega
  | @grow d b ix off chunk buf d' r new hfull hmore hix hfree hrest ih =>
      obtain ⟨out', rfl, rfl⟩ := Option.map_eq_some_iff.mp hr
      have huse := (hown b (by simp)).2
      have hb := grow_not_mem huse hfree
      have hne : ix ≠ b := fun heq => hb (by simp [heq])
      obtain ⟨l₁, l₂, hsplit, hfullb, hoff, hpos⟩ := ih rfl
        ((hd.put huse (by omega)).grow (by rw [put_inUse]; exact huse) hix
          (by rw [put_inUse]; exact hfree))
        (List.nodup_singleton ix) (owned_grow hix)
      refine ⟨b :: l₁, l₂, ?_, ?_, hoff, ?_⟩
      · rw [List.singleton_append] at hsplit ⊢
        rw [hsplit]
        rfl
      · intro a ha
        rcases List.mem_cons.mp ha with rfl | ha
        · have := hd.bytes_le a
          rw [hrest.bucket_done hb (by rw [grow_inUse, if_neg hne.symm, put_inUse]; exact huse),
            grow_bytes, put_bytes_self (by omega)]
          omega
        · exact hfullb a ha
      · rw [List.length_cons, Nat.succ_mul, List.length_append]
        simp only [WriteOut.after]
        omega
  | full hfull hmore hover => cases hr

end Spacefish
