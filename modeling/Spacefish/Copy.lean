import Spacefish.DataWf

/-!
What the copy loop of `write` and `pwrite` does to the store. `Copy` follows
the loop bucket by bucket along a chain: fill the bucket, go on with the next
one, append a new bucket at the end of the chain, or stop because no bucket is
free. Everything the calls need is proved by induction on it.
-/

namespace Spacefish

open LinkedArray Program Buffer

def DataShm.put (d : DataShm) (b off : Nat) (chunk : List Byte) : DataShm :=
  d.set b (fun db => db.put off chunk)

/-- The state after `ix` was taken and linked behind `b`. -/
def DataShm.grow (d : DataShm) (b ix : Nat) : DataShm :=
  (d.take ix).set b (fun db => { db with nextIx := ix })

/-- By how much a copy of `n` bytes to `off` raises `bytes`. -/
def DataShm.gain (d : DataShm) (b off n : Nat) : Nat :=
  max (d.bucket b).bytes (off + n) - (d.bucket b).bytes

/-- The result of a loop whose first round copied `n` bytes and raised the
size by `g`. -/
def WriteOut.after (n g : Nat) (r : WriteOut) : WriteOut :=
  { r with n := n + r.n, sizeInd := g + r.sizeInd }

/-- `Copy d l off buf d' r new`: copying `buf` into the chain `l` from position
`off` of its first bucket on turns `d` into `d'` and appends the buckets `new`
to the chain; `r` is the result, or `none` when the store is full. -/
inductive Copy : DataShm → List Nat → Nat → List Byte → DataShm → Option WriteOut →
    List Nat → Prop where
  | last {d b l off buf} (hfit : off + buf.length ≤ dbucketBufSize) :
      Copy d (b :: l) off buf (d.put b off buf)
        (some ⟨buf.length, d.gain b off buf.length, b, off + buf.length⟩) []
  | next {d b c l off chunk buf d' r new} (hfull : off + chunk.length = dbucketBufSize)
      (hmore : buf ≠ []) (hrest : Copy (d.put b off chunk) (c :: l) 0 buf d' r new) :
      Copy d (b :: c :: l) off (chunk ++ buf) d'
        (r.map (WriteOut.after chunk.length (d.gain b off chunk.length))) new
  | grow {d b ix off chunk buf d' r new} (hfull : off + chunk.length = dbucketBufSize)
      (hmore : buf ≠ []) (hix : ix < totBuckets) (hfree : (d.bucket ix).inUse = false)
      (hrest : Copy ((d.put b off chunk).grow b ix) [ix] 0 buf d' r new) :
      Copy d [b] off (chunk ++ buf) d'
        (r.map (WriteOut.after chunk.length (d.gain b off chunk.length))) (ix :: new)
  | full {d b off chunk buf} (hfull : off + chunk.length = dbucketBufSize)
      (hmore : buf ≠ []) (hover : DataFull d) :
      Copy d [b] off (chunk ++ buf) (d.put b off chunk) none []

/-! One round. -/

variable {d d' : DataShm} {b c ix off : Nat} {l new pre : List Nat} {buf : List Byte}

theorem put_bytes {db : DataBucket} {chunk : List Byte}
    (hfit : off + chunk.length ≤ dbucketBufSize) :
    (db.put off chunk).bytes = max db.bytes (off + chunk.length) := by
  have hadd : uadd off chunk.length = off + chunk.length :=
    uadd_eq (by unfold dbucketBufSize at hfit; omega)
  simp only [DataBucket.put, hadd]
  split <;> omega

theorem grown_eq {chunk : List Byte} (hfit : off + chunk.length ≤ dbucketBufSize) :
    (d.bucket b).grown off chunk = d.gain b off chunk.length := by
  have hlt : off + chunk.length < 2 ^ 64 := by
    unfold dbucketBufSize at hfit
    omega
  simp only [DataBucket.grown, DataShm.gain, uadd_eq hlt]
  split
  · rw [usub_eq hlt (by omega)]
    omega
  · omega

theorem put_bucket_of_ne {chunk : List Byte} (hne : c ≠ b) :
    (d.put b off chunk).bucket c = d.bucket c := set_bucket_of_ne _ hne

@[simp] theorem put_next {chunk : List Byte} : (d.put b off chunk).next c = d.next c := by
  by_cases hne : c = b
  · subst hne
    simp [DataShm.put, DataShm.next, DataBucket.put]
  · rw [DataShm.next, put_bucket_of_ne hne, DataShm.next]

@[simp] theorem put_inUse {chunk : List Byte} :
    ((d.put b off chunk).bucket c).inUse = (d.bucket c).inUse := by
  by_cases hne : c = b
  · subst hne
    simp [DataShm.put, DataBucket.put]
  · rw [put_bucket_of_ne hne]

@[simp] theorem put_lock {chunk : List Byte} :
    ((d.put b off chunk).bucket c).lock = (d.bucket c).lock := by
  by_cases hne : c = b
  · subst hne
    simp [DataShm.put, DataBucket.put]
  · rw [put_bucket_of_ne hne]

theorem LinksOk.put (hd : LinksOk d) (b off : Nat) (chunk : List Byte) :
    LinksOk (d.put b off chunk) := by
  refine ⟨hd.steps, hd.counter, fun c => by rw [put_lock]; exact hd.unlocked c, ?_, ?_⟩
  · intro c hc
    rw [put_inUse] at hc
    rw [put_next]
    exact hd.fresh c hc
  · intro c
    simp only [put_next, DataShm.Owned, put_inUse]
    exact hd.target c

theorem grow_bucket_of_ne (hb : c ≠ b) (hix : c ≠ ix) :
    (d.grow b ix).bucket c = d.bucket c := by
  rw [DataShm.grow, set_bucket_of_ne _ hb, DataShm.take, set_bucket_of_ne _ hix]

theorem grow_inUse :
    ((d.grow b ix).bucket c).inUse = if c = ix then true else (d.bucket c).inUse := by
  by_cases hix : c = ix <;> by_cases hb : c = b <;>
    simp_all [DataShm.grow, DataShm.take, DataShm.set]

theorem grow_next (hne : ix ≠ b) : (d.grow b ix).next c = if c = b then ix else d.next c := by
  by_cases hb : c = b
  · subst hb
    simp [DataShm.grow, DataShm.next]
  · rw [DataShm.next, DataShm.grow, set_bucket_of_ne _ hb, if_neg hb]
    by_cases hix : c = ix
    · subst hix
      simp [DataShm.take, DataShm.next]
    · rw [DataShm.take, set_bucket_of_ne _ hix, DataShm.next]

theorem grow_bytes : ((d.grow b ix).bucket c).bytes = (d.bucket c).bytes := by
  by_cases hix : c = ix <;> by_cases hb : c = b <;>
    simp_all [DataShm.grow, DataShm.take, DataShm.set]

theorem grow_lock : ((d.grow b ix).bucket c).lock = (d.bucket c).lock := by
  by_cases hix : c = ix <;> by_cases hb : c = b <;>
    simp_all [DataShm.grow, DataShm.take, DataShm.set]

theorem grow_bucketData : bucketData (d.grow b ix) c = bucketData d c := by
  have hbuf : ((d.grow b ix).bucket c).buf = (d.bucket c).buf := by
    by_cases hix : c = ix <;> by_cases hb : c = b <;>
      simp_all [DataShm.grow, DataShm.take, DataShm.set]
  rw [bucketData, bucketData, hbuf, grow_bytes]

theorem LinksOk.grow (hd : LinksOk d) (hb : (d.bucket b).inUse = true) (hix : ix < totBuckets)
    (hfree : (d.bucket ix).inUse = false) : LinksOk (d.grow b ix) := by
  have hne : ix ≠ b := by
    rintro rfl
    rw [hb] at hfree
    cases hfree
  refine ⟨hd.steps, hd.counter, fun c => by rw [grow_lock]; exact hd.unlocked c, ?_, ?_⟩
  · intro c hc
    rw [grow_inUse] at hc
    have hcix : c ≠ ix := by
      rintro rfl
      simp at hc
    rw [if_neg hcix] at hc
    have hcb : c ≠ b := by
      rintro rfl
      rw [hb] at hc
      cases hc
    rw [grow_next hne, if_neg hcb]
    exact hd.fresh c hc
  · intro c
    rw [grow_next hne]
    by_cases hcb : c = b
    · rw [if_pos hcb]
      exact Or.inr ⟨hix, by rw [grow_inUse, if_pos rfl]⟩
    · rw [if_neg hcb]
      rcases hd.target c with hnil | ⟨hlt, huse⟩
      · exact Or.inl hnil
      · refine Or.inr ⟨hlt, ?_⟩
        rw [grow_inUse]
        split
        · rfl
        · exact huse

/-! The loop performs a copy. -/

theorem copyIn_eq {chunk : List Byte} (hfit : off + chunk.length ≤ dbucketBufSize) :
    copyIn b off chunk d = .ok ⟨⟩ (d.put b off chunk) := by
  rw [copyIn, run_ite, if_pos (Or.inr hfit), run_modify]
  rfl

/-- A buffer that fits into one bucket is copied to the start of it. -/
theorem Copy.start (d : DataShm) (b : Nat) (buf : List Byte) (hfit : buf.length ≤ dbucketBufSize) :
    Copy d [b] 0 buf (d.put b 0 buf)
      (some ⟨buf.length, d.gain b 0 buf.length, b, 0 + buf.length⟩) [] :=
  Copy.last (by omega)

/-- The loop of `write` and `pwrite` on a chain that `b` starts. -/
theorem writeLoop_ends {bld : Build} {fuel : Nat} (env : Env) (guarded : Bool) (buf : List Byte)
    (hbld : bld.getFreeDbucketIx = bucketIxAllocAllRandom) (hd : LinksOk d)
    (hl : Linked d.next noIx b (b :: l)) (hown : ∀ c ∈ b :: l, d.Owned c)
    (hoff : off ≤ dbucketBufSize)
    (hfuel : buf.length + 2 ≤ fuel ∨ (off = 0 ∧ buf.length + 1 ≤ fuel)) :
    Ends (writeLoop bld env guarded fuel b off buf d)
      (fun r d' => ∃ new, Copy d (b :: l) off buf d' (some r) new)
      (fun e d' => e = .exit .dataBucketOverUse ∧
        ∃ new, Copy d (b :: l) off buf d' none new) := by
  induction fuel generalizing d b l off buf with
  | zero => omega
  | succ fuel ih =>
      have hb := hown b (by simp)
      have hsub : usub dbucketBufSize off = dbucketBufSize - off :=
        usub_eq (by decide) hoff
      unfold writeLoop
      rw [run_ite, if_neg (by simp [hb.ne_noIx]), bind_of_ok (getDbucketPtr_eq hd.steps hb.1),
        hsub, run_ite]
      split
      · next hfit =>
        have hfit' : off + buf.length ≤ dbucketBufSize := by omega
        rw [bind_of_ok (copyIn_eq hfit'), run_pure, ends_ok, grown_eq hfit',
          uadd_eq (by unfold dbucketBufSize at hfit'; omega)]
        exact ⟨[], .last hfit'⟩
      · next hmore =>
        have hlen : (buf.take (dbucketBufSize - off)).length = dbucketBufSize - off := by
          rw [List.length_take]
          omega
        have hfull : off + (buf.take (dbucketBufSize - off)).length = dbucketBufSize := by omega
        have hrest : buf.drop (dbucketBufSize - off) ≠ [] := by
          intro hnil
          have := congrArg List.length hnil
          simp at this
          omega
        have hsplit := List.take_append_drop (dbucketBufSize - off) buf
        have hfuel' : (buf.drop (dbucketBufSize - off)).length + 1 ≤ fuel := by
          have hsize : 0 < dbucketBufSize := by decide
          rw [List.length_drop]
          omega
        rw [bind_of_ok (copyIn_eq (by omega)), grown_eq (by omega)]
        have hd₁ := hd.put b off (buf.take (dbucketBufSize - off))
        cases l with
        | nil =>
            have hnext : (d.bucket b).nextIx = noIx := hl.2.2
            rw [writeLoop.nextOrNew, hnext, if_pos rfl, hbld, ends_bind, ends_bind]
            rcases bucketIxAllocAllRandom_cases hd₁ (env.rand fuel) with
              ⟨ix, hix, hfree, halloc⟩ | ⟨hover, halloc⟩
            · rw [put_inUse] at hfree
              have hne : ix ≠ b := by
                rintro rfl
                rw [hb.2] at hfree
                cases hfree
              have hd₂ := hd₁.grow (b := b) (by rw [put_inUse]; exact hb.2) hix
                (by rw [put_inUse]; exact hfree)
              rw [halloc, ends_ok, ends_bind, ends_modify, ends_pure, ends_bind]
              change Ends (writeLoop bld env guarded fuel ix 0 _
                ((d.put b off (buf.take (dbucketBufSize - off))).grow b ix)) _ _
              refine (ih (l := []) _ hd₂ ⟨rfl, ?_, ?_⟩ ?_ (Nat.zero_le _)
                (Or.inr ⟨rfl, hfuel'⟩)).mono ?_ ?_
              · unfold totBuckets at hix
                unfold noIx
                omega
              · rw [seg_nil, grow_next hne, if_neg hne, put_next]
                exact hd.fresh ix hfree
              · intro c hc
                obtain rfl : c = ix := by simpa using hc
                exact ⟨hix, by rw [grow_inUse, if_pos rfl]⟩
              · rintro r d' ⟨new, hcopy⟩
                refine ⟨ix :: new, ?_⟩
                have hstep := Copy.grow (b := b) hfull hrest hix hfree hcopy
                rwa [hsplit] at hstep
              · rintro e d' ⟨he, new, hcopy⟩
                refine ⟨he, ix :: new, ?_⟩
                have hstep := Copy.grow (b := b) hfull hrest hix hfree hcopy
                rwa [hsplit] at hstep
            · rw [halloc, ends_error]
              refine ⟨rfl, [], ?_⟩
              have hstep := Copy.full (d := d) (b := b) hfull hrest
                (fun c hc => by simpa using hover c hc)
              rwa [hsplit] at hstep
        | cons c l =>
            have hnext : (d.bucket b).nextIx = c := hl.2.2.1
            have hc := hown c (by simp)
            rw [writeLoop.nextOrNew, hnext, if_neg hc.ne_noIx, run_pure_bind, ends_bind]
            refine (ih (l := l) _ hd₁ ?_ ?_ (Nat.zero_le _) (Or.inr ⟨rfl, hfuel'⟩)).mono ?_ ?_
            · refine Seg.congr (Linked.suffix_cons hl) (fun a _ => ?_)
              rw [put_next]
            · intro a ha
              have := hown a (by simp [List.mem_cons.mp ha])
              exact ⟨this.1, by rw [put_inUse]; exact this.2⟩
            · rintro r d' ⟨new, hcopy⟩
              refine ⟨new, ?_⟩
              have hstep := Copy.next (b := b) hfull hrest hcopy
              rwa [hsplit] at hstep
            · rintro e d' ⟨he, new, hcopy⟩
              refine ⟨he, new, ?_⟩
              have hstep := Copy.next (b := b) hfull hrest hcopy
              rwa [hsplit] at hstep

end Spacefish
