import Spacefish.LinkSteps

/-!
The changes the calls make to a well-formed store, one at a time: copying into
the chain of a file, making a meta bucket, giving it a first data bucket,
truncating, releasing and renaming.
-/

namespace Spacefish

open LinkedArray Program

variable {s : Store} {t' : MetaShm} {d' : DataShm} {rows' : Nat → List Int}
  {m : Int} {f : FileCore → FileCore} {h hn ix off : Nat} {pre l new : List Nat}
  {buf : List Byte} {r : Option WriteOut} {lost : Option Int} {p : Path}
  {ch' : Int → List Nat}

theorem StoreWf.copy (pre : List Nat) (wf : StoreWf s) (huse : s.Used m)
    (hsplit : s.ch m = pre ++ l)
    (hcopy : Copy s.data l off buf d' r new) :
    StoreWf { s with data := d', ch := Function.update s.ch m (s.ch m ++ new) } := by
  have hown : ∀ c ∈ l, s.data.Owned c := fun c hc =>
    wf.owned m huse c (by rw [hsplit]; exact List.mem_append_right _ hc)
  have hd' := hcopy.dataWf wf.data hown
  refine ⟨wf.toLinkWf.copy _ huse hsplit hcopy, hd'.bytes_le, hd'.empty, ?_⟩
  intro a ha hne
  obtain ⟨hpos, hle⟩ := wf.inBucket a ha hne
  have hbytes := hcopy.bytes_ge (c := (s.table.mb a).lastDbucket)
  exact ⟨hpos, by dsimp only; omega⟩

theorem StoreWf.create (wf : StoreWf s) (hc : Created s.table t' s.rows h m) :
    StoreWf { s with table := t', rows := Function.update s.rows h (s.rows h ++ [m])
                     ch := Function.update s.ch m [] } := by
  refine ⟨wf.toLinkWf.create hc, wf.bytes_le, wf.empty, ?_⟩
  intro a ha hne
  by_cases ham : a = m
  · subst ham
    exact absurd (hc.new.lastDbucket.trans (wf.unused a hc.fresh)) hne
  · have hs := hc.same a ham
    dsimp only at hne ⊢
    rw [hs.lastDbucket] at hne ⊢
    rw [hs.lastDbOffset]
    exact wf.inBucket a (hs.inUse.symm.trans ha) hne

/-- A file without data gets a free bucket as its first one. -/
theorem StoreWf.adopt (wf : StoreWf s) (huse : s.Used m) (hch : s.ch m = [])
    (hd' : DataWf (s.data.take ix)) (hix : ix < totBuckets)
    (hfree : (s.data.bucket ix).inUse = false) (he : Edited s.table t' m f) (hf : Stays f)
    (hfirst : (f (s.table.mb m).core).first = ix)
    (hlast : (f (s.table.mb m).core).last = (s.table.mb m).lastDbucket) :
    StoreWf { s with table := t', data := s.data.take ix
                     ch := Function.update s.ch m [ix] } := by
  have hend : (s.data.take ix).next ix = noIx := by
    have := wf.links.fresh ix hfree
    simpa [DataShm.next, DataShm.take] using this
  have hnil : (s.table.mb m).lastDbucket = noIx := by
    rcases wf.onChain m huse with hnil | hmem
    · exact hnil
    · rw [hch] at hmem
      cases hmem
  refine ⟨(wf.toLinkWf.take hix).adopt huse hch ⟨hix, by simp [DataShm.take]⟩ hend
    (fun a ha hmem => wf.not_fresh ha hmem hfree) he hf hfirst (Or.inl (hlast.trans hnil)),
    hd'.bytes_le, hd'.empty, ?_⟩
  intro a ha hne
  have ham : a ≠ m := by
    rintro rfl
    exact hne (he.last.trans (hlast.trans hnil))
  have ha' : s.Used a := (he.inUse hf a).symm.trans ha
  dsimp only at hne ⊢
  rw [he.last_of_ne ham] at hne ⊢
  rw [he.off_of_ne ham]
  have hbytes : ((s.data.take ix).bucket (s.table.mb a).lastDbucket).bytes =
      (s.data.bucket (s.table.mb a).lastDbucket).bytes := by
    rw [DataShm.take, set_bucket_of_ne]
    intro heq
    rcases wf.onChain a ha' with hnil | hmem
    · exact hne hnil
    · exact wf.not_fresh ha' hmem (heq ▸ hfree)
  rw [hbytes]
  exact wf.inBucket a ha' hne

/-- Truncation with the cursor put back to the start. -/
theorem StoreWf.truncate (wf : StoreWf s) (huse : s.Used m) (he : Edited s.table t' m f)
    (hf : Stays f) (hfirst : (f (s.table.mb m).core).first = (s.table.mb m).firstDbucket)
    (hlast : (f (s.table.mb m).core).last = noIx ∨ (f (s.table.mb m).core).last ∈ s.ch m)
    (hoff : (f (s.table.mb m).core).off = 0) :
    StoreWf { s with table := t', data := s.data.clear (s.ch m) } := by
  have hlink := (wf.toLinkWf.edit huse he hf hfirst hlast).sameData (.clear s.data (s.ch m))
  have hd' := wf.data.clear (s.ch m)
  refine ⟨hlink, hd'.bytes_le, hd'.empty, ?_⟩
  intro a ha hne
  by_cases ham : a = m
  · subst ham
    dsimp only
    rw [he.off, hoff]
    exact ⟨Int.le_refl _, Int.natCast_nonneg _⟩
  · have ha' : s.Used a := (he.inUse hf a).symm.trans ha
    dsimp only at hne ⊢
    rw [he.last_of_ne ham] at hne ⊢
    rw [he.off_of_ne ham, clear_of_not_mem]
    · exact wf.inBucket a ha' hne
    · intro hmem
      rcases wf.onChain a ha' with hnil | hmem'
      · exact hne hnil
      · exact ham (wf.apart a m ha' huse _ hmem' hmem)

theorem StoreWf.release (wf : StoreWf s) (hr : Released s.table t' s.rows rows' m) :
    StoreWf { s with table := t', rows := rows' } := by
  refine ⟨wf.toLinkWf.release hr, wf.bytes_le, wf.empty, ?_⟩
  intro a ha hne
  obtain ⟨_, hs⟩ := hr.kept ha
  dsimp only at hne ⊢
  rw [hs.lastDbucket] at hne ⊢
  rw [hs.lastDbOffset]
  exact wf.inBucket a (hs.inUse.symm.trans ha) hne

theorem StoreWf.rename (wf : StoreWf s) (hr : Renamed s.table t' s.rows rows' hn m lost p) :
    StoreWf { s with table := t', rows := rows' } := by
  refine ⟨wf.toLinkWf.rename hr, wf.bytes_le, wf.empty, ?_⟩
  intro a ha hne
  obtain ⟨_, huse, _, hlast, hoff, _⟩ := hr.kept ha
  dsimp only at hne ⊢
  rw [hlast] at hne ⊢
  rw [hoff]
  exact wf.inBucket a (huse.symm.trans ha) hne

theorem StoreWf.stuck (wf : StoreWf s) (ho hn : Nat) :
    StoreWf { s with table := s.table.lockBoth ho hn } :=
  ⟨wf.toLinkWf.stuck ho hn, wf.bytes_le, wf.empty, wf.inBucket⟩

end Spacefish
