import Spacefish.CopyFacts
import Spacefish.UploadLaid

/-!
The data part of `upload_file` is a copy into a chain of one fresh bucket: when
free buckets are empty, filling one from its start is what the copy loop of
`write` does with it.
-/

namespace Spacefish

open LinkedArray Program Buffer

variable {d d' : DataShm} {b c ix off : Nat} {buf rest chunk : List Byte} {w : World}
  {env : Env} {mb : Int} {new : List Nat} {done : Bool}

/-- Storing a chunk at the start of a bucket with its length as byte count is a
`put` when the chunk is no shorter than what the bucket holds. -/
theorem fill_eq_put (hlen : chunk.length ≤ dbucketBufSize)
    (hbytes : (d.bucket b).bytes ≤ chunk.length) : d.fill b chunk = d.put b 0 chunk := by
  have hput : ((d.bucket b).put 0 chunk).bytes = max (d.bucket b).bytes (0 + chunk.length) :=
    put_bytes (by omega)
  simp only [DataBucket.put] at hput
  simp only [DataShm.fill, DataShm.set, DataShm.put, DataBucket.put, hput]
  congr 3
  omega

/-- A filled bucket and the buckets laid behind it form one copy. -/
theorem Laid.copy {d₁ : DataShm} (hl : Laid d₁ b rest d' done new) (hd₁ : d.put b 0 chunk = d₁)
    (hd : DataWf d) (hb : d.Owned b) (hlen : chunk.length ≤ dbucketBufSize)
    (hchunk : rest = [] ∨ chunk.length = dbucketBufSize) :
    ∃ r, Copy d [b] 0 (chunk ++ rest) d' r new ∧ r.isSome = done := by
  induction hl generalizing d chunk with
  | done =>
      subst hd₁
      rw [List.append_nil]
      exact ⟨_, .last (by omega), rfl⟩
  | full hne hover =>
      subst hd₁
      have hfull := hchunk.resolve_left hne
      refine ⟨none, .full (by omega) hne (fun c hc => ?_), rfl⟩
      simpa using hover c hc
  | @next d₁ prev rest ix d' done new hne hix hfree hrest ih =>
      subst hd₁
      have hfull := hchunk.resolve_left hne
      have huse : ((d.put prev 0 chunk).bucket prev).inUse = true := by
        rw [put_inUse]
        exact hb.2
      have hgrow := (hd.put hb.2 (by omega)).grow huse hix hfree
      have hempty : (((d.put prev 0 chunk).grow prev ix).bucket ix).bytes = 0 := by
        rw [grow_bytes]
        exact (hd.put hb.2 (by omega)).empty ix hfree
      have hshort : (rest.take dbucketBufSize).length ≤ dbucketBufSize := by
        rw [List.length_take]
        omega
      obtain ⟨r, hcopy, hr⟩ := ih (fill_eq_put hshort (by omega)).symm hgrow
        ⟨hix, by rw [grow_inUse, if_pos rfl]⟩ hshort (by
          by_cases hmore : rest.length ≤ dbucketBufSize
          · exact Or.inl (List.drop_of_length_le hmore)
          · exact Or.inr (by rw [List.length_take]; omega))
      rw [List.take_append_drop] at hcopy
      rw [put_inUse] at hfree
      refine ⟨_, .grow (by omega) hne hix hfree hcopy, ?_⟩
      simpa using hr

/-- How the data part of an upload of `buf` to bucket `mb` may end. -/
def UploadedTo (w : World) (mb : Int) (buf : List Byte) (done : Bool) (w' : World) : Prop :=
  ∃ ix new r, ix < totBuckets ∧ (w.data.bucket ix).inUse = false ∧
    Copy (w.data.take ix) [ix] 0 buf w'.data r new ∧ r.isSome = done ∧
    w'.table = w.table.setMb mb (fun m => { m with firstDbucket := ix }) ∧
    w'.fdTable = w.fdTable

theorem DataWf.take (hd : DataWf d) (hix : ix < totBuckets)
    (hfree : (d.bucket ix).inUse = false) : DataWf (d.take ix) := by
  have hsame : ∀ c, (d.take ix).next c = d.next c ∧
      ((d.take ix).bucket c).bytes = (d.bucket c).bytes ∧
      ((d.take ix).bucket c).lock = (d.bucket c).lock ∧
      ((d.bucket c).inUse = true → ((d.take ix).bucket c).inUse = true) := by
    intro c
    by_cases hc : c = ix
    · subst hc
      simp [DataShm.take, DataShm.next]
    · simp [DataShm.take, DataShm.next, set_bucket_of_ne _ hc]
  have hfree' : ∀ c, ((d.take ix).bucket c).inUse = false → (d.bucket c).inUse = false := by
    intro c hc
    by_contra hne
    have := (hsame c).2.2.2 (by simpa using hne)
    rw [this] at hc
    cases hc
  refine ⟨⟨hd.steps, hd.counter, ?_, ?_, ?_⟩, ?_, ?_⟩
  · intro c
    rw [(hsame c).2.2.1]
    exact hd.unlocked c
  · intro c hc
    rw [(hsame c).1]
    exact hd.fresh c (hfree' c hc)
  · intro c
    rw [(hsame c).1]
    rcases hd.target c with hnil | ⟨hlt, huse⟩
    · exact Or.inl hnil
    · exact Or.inr ⟨hlt, (hsame _).2.2.2 huse⟩
  · intro c
    rw [(hsame c).2.1]
    exact hd.bytes_le c
  · intro c hc
    rw [(hsame c).2.1]
    exact hd.empty c (hfree' c hc)

theorem set_eq_self {f : DataBucket → DataBucket} (hf : f (d.bucket b) = d.bucket b) :
    d.set b f = d := by
  simp [DataShm.set, hf]

/-- Copying nothing changes nothing. -/
theorem put_nil (hoff : off ≤ (d.bucket b).bytes) : d.put b off [] = d := by
  have hle : ¬ uadd off 0 > (d.bucket b).bytes := by
    unfold uadd
    have := Nat.mod_le (off + 0) (2 ^ 64)
    omega
  refine set_eq_self ?_
  simp only [DataBucket.put, memcpy_nil, List.length_nil, if_neg hle]

theorem LaidFile.uploadedTo {w' : World} (hl : LaidFile w mb buf done w') (hd : DataWf w.data) :
    UploadedTo w mb buf done w' := by
  obtain ⟨ix, new, hix, hfree, hlaid, htab, hfds⟩ := hl
  have hempty : ((w.data.take ix).bucket ix).bytes = 0 := by
    simpa [DataShm.take] using hd.empty ix hfree
  have hshort : (buf.take dbucketBufSize).length ≤ dbucketBufSize := by
    rw [List.length_take]
    omega
  obtain ⟨r, hcopy, hr⟩ := hlaid.copy (fill_eq_put hshort (by omega)).symm (hd.take hix hfree)
    ⟨hix, by rw [take_inUse, if_pos rfl]⟩ hshort (by
      by_cases hmore : buf.length ≤ dbucketBufSize
      · exact Or.inl (List.drop_of_length_le hmore)
      · exact Or.inr (by rw [List.length_take]; omega))
  rw [List.take_append_drop] at hcopy
  exact ⟨ix, new, r, hix, hfree, hcopy, hr, htab, hfds⟩

/-- The data part of `upload_file` copies `buf` into a fresh bucket. -/
theorem uploadData_ends {bld : Build} (env : Env) (mb : Int)
    (hbld : bld.getFreeDbucketIx = bucketIxAllocAllRandom)
    (hd : DataWf w.data) (hbuf : buf.length ≤ maxRwCount) :
    Ends (uploadData bld env mb buf buf.length w)
      (fun _ w' => UploadedTo w mb buf true w')
      (fun e w' => e = .exit .dataBucketOverUse ∧
        ((DataFull w.data ∧ w' = w) ∨ UploadedTo w mb buf false w')) := by
  refine (uploadData_laid _ env mb hbld hd.toLinksOk hbuf).mono (fun _ _ hl => hl.uploadedTo hd) ?_
  rintro e w' ⟨he, hw⟩
  exact ⟨he, hw.imp id (fun hl => hl.uploadedTo hd)⟩

end Spacefish
