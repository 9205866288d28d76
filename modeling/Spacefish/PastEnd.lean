import Spacefish.EndOfFile
import Spacefish.OpenTruncate

/-!
`pwrite` at or behind the end of a file. The bytes in front of the end stay, as
long as the number of links to walk, an `int`, has not wrapped around.
-/

namespace Spacefish

open LinkedArray Program Buffer

variable {s s' : Sys} {rows : Nat → List Int} {ch : Int → List Nat} {env : Env} {pid m : Nat}
  {fd offset : Int} {buf : List Byte} {d d' : DataShm} {l new pre : List Nat} {b off : Nat}
  {r : Option WriteOut} {out : Out}

/-! The first bucket of a copy. -/

/-- The first bucket takes as much of the buffer as fits behind the start position. -/
theorem Copy.head_data (hcopy : Copy d (b :: l) off buf d' r new) (hnodup : (b :: l).Nodup)
    (huse : (d.bucket b).inUse = true) :
    bucketData d' b = bucketData (d.put b off (buf.take (dbucketBufSize - off))) b := by
  obtain ⟨hb, _⟩ := List.nodup_cons.mp hnodup
  cases hcopy with
  | last hfit => rw [List.take_of_length_le (by omega)]
  | @next _ _ c _ _ chunk buf _ r _ hfull hmore hrest =>
      rw [← hfull, Nat.add_sub_cancel_left, List.take_left, bucketData,
        hrest.bucket_done hb (by rw [put_inUse]; exact huse), bucketData]
  | @grow _ _ ix _ chunk buf _ r new hfull hmore hix hfree hrest =>
      have hne := grow_not_mem huse hfree
      have hbx : b ≠ ix := fun heq => hne (by simp [heq])
      rw [← hfull, Nat.add_sub_cancel_left, List.take_left, bucketData,
        hrest.bucket_done hne (by rw [grow_inUse, if_neg hbx, put_inUse]; exact huse)]
      exact grow_bucketData
  | full hfull hmore hover =>
      rw [← hfull, Nat.add_sub_cancel_left, List.take_left]

/-- Copying behind the content of a bucket leaves that content in front. -/
theorem put_keeps {chunk : List Byte} (hfit : off + chunk.length ≤ dbucketBufSize)
    (hoff : (d.bucket b).bytes ≤ off) :
    bucketData d b <+: bucketData (d.put b off chunk) b := by
  have hdata : bucketData d b = (bucketData (d.put b off chunk) b).take (d.bucket b).bytes := by
    rw [bucketData, bucketData, put_bytes_self hfit, slice_take, Nat.min_eq_left (by omega)]
    refine slice_congr (fun i _ hi => ?_)
    rw [DataShm.put, set_bucket_self, DataBucket.put]
    simp only [memcpy]
    rw [if_neg (by omega)]
  rw [hdata]
  exact List.take_prefix _ _

/-- Copying into the content of a bucket shows in it. -/
theorem put_shows {chunk : List Byte} (hfit : off + chunk.length ≤ dbucketBufSize)
    (hoff : off ≤ (d.bucket b).bytes) {i : Nat} (hi : i < chunk.length) :
    (bucketData (d.put b off chunk) b)[off + i]? = chunk[i]? := by
  have hlen : (bucketData d b).length = (d.bucket b).bytes := slice_length ..
  rw [put_bucketData hfit hoff, overwrite, List.append_assoc,
    List.getElem?_append_right (by rw [List.length_take]; omega), List.length_take, hlen,
    Nat.min_eq_left hoff, Nat.add_sub_cancel_left, List.getElem?_append_left hi]

/-! The call. -/

/-- A `pwrite` does not reach the chain, or copies into it from the bucket of its
offset on. -/
theorem exec_pwrite (hinv : SysWf s rows ch) (hu : UserFd (s.view pid) fd m) (hoff : 0 ≤ offset)
    (hexec : exec defaultBuild s ⟨pid, env, .pwrite fd buf offset⟩ = (out, s')) :
    ((ch m).length ≤ hops offset ∧ out = .ret { ret := 0, err := .ok } ∧ s'.data = s.data ∧
        Edited s.table s'.table m id) ∨
      ∃ pre b l r new, ch m = pre ++ b :: l ∧ pre.length = hops offset ∧
        out = (if r.isSome = true then .ret { ret := buf.length, err := .ok }
          else .halt (.exit .dataBucketOverUse)) ∧
        Copy s.data (b :: l) (within offset) buf s'.data r new ∧
        Edited s.table s'.table m (wroteBy r false) := by
  obtain ⟨huse, hcache⟩ := hu.used (hinv.slots pid _)
  have hview : LinkWf ((s.view pid).store rows ch) := hinv.store.toLinkWf
  have hends : Ends (sysPwrite defaultBuild env fd buf offset (s.view pid)) _ _ :=
    sysPwrite_ends rfl hview hu huse hcache hoff
  rcases exec_ends (e := ⟨pid, env, .pwrite fd buf offset⟩) hends hexec with
    ⟨r, w', hout, rfl, hret⟩ | ⟨h, w', hout, rfl, rfl, htab, pre, b, l, new, hsplit, hlen, hcopy⟩
  · rcases hret with ⟨hlen, rfl, hdata, he, _⟩ | ⟨pre, b, l, o, new, hsplit, hlen, rfl, hw⟩
    · exact Or.inl ⟨hlen, hout, hdata, he⟩
    · exact Or.inr ⟨pre, b, l, some o, new, hsplit, hlen, hout, hw.copy, hw.table⟩
  · refine Or.inr ⟨pre, b, l, none, new, hsplit, hlen, hout, hcopy, ?_⟩
    change Edited s.table w'.table m id
    rw [htab]
    exact Edited.refl _ _

theorem SysWf.chain_copied (hinv : SysWf s rows ch) (huse : (s.table.mb m).inUse = true)
    (hsplit : ch m = pre ++ b :: l) (hcopy : Copy s.data (b :: l) off buf s'.data r new)
    (he : Edited s.table s'.table m (wroteBy r false)) : fileChain s' m = ch m ++ new := by
  have hsplit' : (s.store rows ch).ch m = pre ++ b :: l := hsplit
  have huse' : (s'.table.mb m).inUse = true := (he.inUse (wroteBy_stays _ _) m).trans huse
  have := LinkWf.fileChain_eq (s := s') (hinv.store.wrote huse hsplit' hcopy he).toLinkWf huse'
  rwa [Function.update_self] at this

theorem SysWf.content_copied (hinv : SysWf s rows ch) (huse : (s.table.mb m).inUse = true)
    (hsplit : ch m = pre ++ b :: l) (hcopy : Copy s.data (b :: l) off buf s'.data r new)
    (he : Edited s.table s'.table m (wroteBy r false)) :
    content s'.data (fileChain s' m) = content s.data pre ++
      (bucketData (s.data.put b off (buf.take (dbucketBufSize - off))) b ++
        content s'.data (l ++ new)) := by
  have hsplit' : (s.store rows ch).ch m = pre ++ b :: l := hsplit
  obtain ⟨hnodup, hown⟩ := hinv.store.suffix_nodup huse hsplit'
  have hbefore : content s'.data pre = content s.data pre :=
    content_congr (fun c hc => hinv.store.copy_before huse hsplit' hcopy hc)
  rw [hinv.chain_copied huse hsplit hcopy he, hsplit, List.append_assoc, content_append, hbefore,
    List.cons_append, content_cons, hcopy.head_data hnodup (hown b (by simp)).2]

theorem SysWf.chain_edited (hinv : SysWf s rows ch) (huse : (s.table.mb m).inUse = true)
    (hdata : s'.data = s.data) (he : Edited s.table s'.table m id) : fileChain s' m = ch m := by
  rw [← hinv.store.toLinkWf.fileChain_eq huse, fileChain, fileChain, hdata, he.first rfl]

/-! Where a dense chain ends. -/

/-- A dense chain ends at or before a position on it if and only if the bucket of the
position does and only empty ones follow. -/
theorem Dense.total_le_iff (hdense : Dense d (pre ++ b :: l))
    (hle : ∀ c, (d.bucket c).bytes ≤ dbucketBufSize) (hoff : off < dbucketBufSize) :
    total d (pre ++ b :: l) ≤ pre.length * dbucketBufSize + off ↔
      (d.bucket b).bytes ≤ off ∧ total d l = 0 := by
  obtain ⟨_, hafter, hbefore⟩ := List.pairwise_append.mp hdense
  have hcap := total_le (l := pre) (fun c _ => hle c)
  rw [total_append, total_cons]
  constructor
  · intro hend
    have hb : (d.bucket b).bytes ≤ off := by
      by_contra hmore
      -- the bucket holds something, so the ones before it are full
      have hfull : ∀ c ∈ pre, (d.bucket c).bytes = dbucketBufSize := by
        intro c hc
        have := hle c
        have := hbefore c hc b (by simp)
        omega
      rw [total_of_full hfull] at hend
      omega
    refine ⟨hb, total_eq_zero.mpr (fun c hc => ?_)⟩
    exact (List.pairwise_cons.mp hafter).1 c hc (by omega)
  · rintro ⟨hb, hl⟩
    omega

/-- A position in front of the end of a dense chain lies in the content of its bucket. -/
theorem Dense.inside (hdense : Dense d (pre ++ b :: l))
    (hle : ∀ c, (d.bucket c).bytes ≤ dbucketBufSize) (hoff : off < dbucketBufSize)
    (hin : pre.length * dbucketBufSize + off < total d (pre ++ b :: l)) :
    off < (d.bucket b).bytes := by
  by_contra hb
  have hafter := (List.pairwise_cons.mp (List.pairwise_append.mp hdense).2.1).1
  have hempty : total d l = 0 := total_eq_zero.mpr (fun c hc => hafter c hc (by omega))
  have := (hdense.total_le_iff hle hoff).mpr ⟨by omega, hempty⟩
  omega

theorem content_getElem? (hoff : off < (d.bucket b).bytes) :
    (content d (pre ++ b :: l))[total d pre + off]? = some ((d.bucket b).buf off) := by
  have hlen : (bucketData d b).length = (d.bucket b).bytes := slice_length ..
  rw [content_append, List.getElem?_append_right (by rw [content_length]; omega), content_length,
    Nat.add_sub_cancel_left, content_cons, List.getElem?_append_left (by omega), bucketData,
    slice_getElem?, if_pos hoff, Nat.zero_add]

/-! The bytes in front of the end. -/

/-- The bytes of the file at the positions in front of `size` are the same. -/
def KeepsBytes (s s' : Sys) (m : Nat) (size : Nat) : Prop :=
  ∀ p < size, (content s'.data (fileChain s' m))[p]? = (content s.data (fileChain s m))[p]?

theorem keepsBytes_of_prefix
    (h : content s.data (fileChain s m) <+: content s'.data (fileChain s' m)) :
    KeepsBytes s s' m (total s.data (fileChain s m)) := by
  obtain ⟨rest, hrest⟩ := h
  intro p hp
  rw [← hrest, List.getElem?_append_left (by rwa [content_length])]

theorem exists_other (x : Byte) : ∃ y : Byte, y ≠ x := by
  by_cases hx : x = 0
  · exact ⟨1, by rw [hx]; decide⟩
  · exact ⟨0, Ne.symm hx⟩

/-- After a `pwrite` at or behind the end of a dense file the bytes in front of the end
are unchanged, whatever is written, if and only if the position the call walks to is
not in front of the end. -/
theorem pwrite_past_end_keeps_iff (hinv : SysWf s rows ch) (hu : UserFd (s.view pid) fd m)
    (hdense : Dense s.data (fileChain s m))
    (hsize : (s.table.mb m).s.stSize = total s.data (fileChain s m))
    (hoff : (s.table.mb m).s.stSize ≤ offset) :
    (∀ env buf, KeepsBytes s (exec defaultBuild s ⟨pid, env, .pwrite fd buf offset⟩).2 m
        (s.table.mb m).s.stSize) ↔
      (s.table.mb m).s.stSize ≤ hops offset * dbucketBufSize + within offset := by
  obtain ⟨huse, _⟩ := hu.used (hinv.slots pid _)
  have hchain := hinv.store.toLinkWf.fileChain_eq huse
  have hpos : 0 ≤ offset := by omega
  have hw := within_lt offset
  have hle : ∀ c, (s.data.bucket c).bytes ≤ dbucketBufSize := hinv.store.bytes_le
  rw [hsize]
  constructor
  · intro hkeeps
    by_contra hin
    rw [Nat.not_le, hchain] at hin
    -- the bucket of the position is there and holds a byte at it
    have hcap := total_le (l := ch m) (fun c _ => hle c)
    have hlen : hops offset < (ch m).length := by
      by_contra hshort
      have := Nat.mul_le_mul_right dbucketBufSize (Nat.not_lt.mp hshort)
      omega
    obtain ⟨pre, b, l, hsplit, hpre⟩ : ∃ pre b l, ch m = pre ++ b :: l ∧ pre.length = hops offset :=
      ⟨(ch m).take (hops offset), (ch m)[hops offset], (ch m).drop (hops offset + 1),
        by rw [← List.drop_eq_getElem_cons hlen, List.take_append_drop],
        by rw [List.length_take]; omega⟩
    rw [hchain, hsplit] at hdense
    rw [hsplit, ← hpre] at hin
    have hb := hdense.inside hle hw hin
    obtain ⟨x, hx⟩ := exists_other ((s.data.bucket b).buf (within offset))
    have hkept := hkeeps emptyDisk [x] (total s.data pre + within offset) (by
      rw [hchain, hsplit, total_append, total_cons]
      omega)
    rw [hchain, hsplit, content_getElem? hb] at hkept
    rcases exec_pwrite hinv hu hpos (Prod.eta (exec defaultBuild s
      ⟨pid, emptyDisk, .pwrite fd [x] offset⟩)).symm with
      ⟨hshort, _⟩ | ⟨pre', b', l', r, new, hsplit', hlen', _, hcopy, he⟩
    · omega
    · obtain ⟨rfl, hrest⟩ := List.append_inj (hsplit.symm.trans hsplit') (by omega)
      obtain ⟨rfl, rfl⟩ := List.cons.inj hrest
      rw [hinv.content_copied huse hsplit hcopy he] at hkept
      have hone : ([x].take (dbucketBufSize - within offset)) = [x] :=
        List.take_of_length_le (by rw [List.length_singleton]; omega)
      have hfit : within offset + [x].length ≤ dbucketBufSize := by
        rw [List.length_singleton]
        omega
      have hput : within offset < ((s.data.put b (within offset) [x]).bucket b).bytes :=
        hb.trans_le (put_bytes_ge hfit)
      have hshown : (bucketData (s.data.put b (within offset) [x]) b)[within offset]? = some x :=
        put_shows hfit (Nat.le_of_lt hb) (i := 0) (by simp)
      rw [hone, List.getElem?_append_right (by rw [content_length]; omega), content_length,
        Nat.add_sub_cancel_left, List.getElem?_append_left (by rw [bucketData, slice_length]; omega),
        hshown] at hkept
      exact hx (Option.some.inj hkept)
  · intro hin env buf
    rcases exec_pwrite hinv hu hpos (Prod.eta _).symm with
      ⟨_, _, hdata, he⟩ | ⟨pre, b, l, r, new, hsplit, hlen, _, hcopy, he⟩
    · refine keepsBytes_of_prefix ?_
      rw [hinv.chain_edited huse hdata he, hchain, hdata]
    · refine keepsBytes_of_prefix ?_
      rw [hchain, hsplit] at hdense hin
      rw [hinv.content_copied huse hsplit hcopy he, hchain, hsplit, content_append, content_cons]
      rw [← hlen] at hin
      obtain ⟨hb, hempty⟩ := (hdense.total_le_iff hle hw).mp hin
      rw [content_eq_nil (total_eq_zero.mp hempty), List.append_nil]
      have hfit : within offset + (buf.take (dbucketBufSize - within offset)).length ≤
          dbucketBufSize := by
        rw [List.length_take]
        omega
      exact (List.prefix_append_right_inj _).mpr ((put_keeps hfit hb).trans (List.prefix_append _ _))

theorem threeBytes_dense :
    Dense threeBytes.data (fileChain threeBytes (0 : Nat)) ∧
      (threeBytes.table.mb (0 : Nat)).s.stSize =
        total threeBytes.data (fileChain threeBytes (0 : Nat)) :=
  ⟨threeBytes_tight.dense, by decide +kernel⟩

/-- A byte written one byte behind the end of a file of three. -/
theorem pwrite_behind_threeBytes :
    KeepsBytes threeBytes (exec defaultBuild threeBytes ⟨0, emptyDisk, .pwrite 1024 [9] 4⟩).2 0
      (threeBytes.table.mb (0 : Nat)).s.stSize := by
  obtain ⟨_, _, hinv⟩ := run_repInv threeBytes_settled.settled
  exact (pwrite_past_end_keeps_iff hinv.wf threeBytes_fd threeBytes_dense.1 threeBytes_dense.2
    (by decide +kernel)).mpr (by decide +kernel) emptyDisk [9]

/-- The quotient of 2^44 by the size of a bucket is 0 as an `int`: the first byte of the
file is overwritten. -/
theorem pwrite_far_behind_overwrites :
    ¬ ∀ (s : Sys) (rows : Nat → List Int) (ch : Int → List Nat) (pid m : Nat) (fd offset : Int)
      (env : Env) (buf : List Byte), SysWf s rows ch → UserFd (s.view pid) fd m →
      Dense s.data (fileChain s m) → (s.table.mb m).s.stSize = total s.data (fileChain s m) →
      (s.table.mb m).s.stSize ≤ offset → offset < 2 ^ 63 →
      KeepsBytes s (exec defaultBuild s ⟨pid, env, .pwrite fd buf offset⟩).2 m
        (s.table.mb m).s.stSize := by
  intro hall
  obtain ⟨rows, ch, hinv⟩ := run_repInv threeBytes_settled.settled
  have hkept := hall threeBytes rows ch 0 0 1024 (2 ^ 44) emptyDisk [9] hinv.wf threeBytes_fd
    threeBytes_dense.1 threeBytes_dense.2 (by decide +kernel) (by decide) 0 (by decide +kernel)
  exact absurd hkept (by decide +kernel)

end Spacefish
