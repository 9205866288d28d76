import Spacefish.CopyContent

/-!
The loops that only read the store: `read`, `pread` and the walk to an offset,
and the loop of a truncating `open`, which empties every bucket of a chain.
-/

namespace Spacefish

open LinkedArray Program Buffer

variable {d d' : DataShm} {b c i off n : Nat} {l : List Nat} {env : Env}

theorem getDbucketPtr_keeps (b : Nat) : Keeps (getDbucketPtr b) :=
  Keeps.get.bind (fun _ => .ite ((Keeps.throw _).bind (fun _ => .pure _)) (.pure _))

theorem copyOut_keeps {σ : Type} {db : DataBucket} {len : Nat} :
    Keeps (copyOut env b db off len : Op σ (List Byte)) :=
  .ite (.pure _) (.throw _)

theorem preadLoop_keeps {fuel : Nat} : Keeps (preadLoop env fuel b off c) := by
  induction fuel generalizing b off c with
  | zero => exact .throw _
  | succ fuel ih =>
      refine .ite (.pure _) ((getDbucketPtr_keeps b).bind (fun db => .ite copyOut_keeps ?_))
      exact copyOut_keeps.bind (fun _ => ih.bind (fun _ => .pure _))

theorem walkLoop_keeps : Keeps (walkLoop n b) := by
  induction n generalizing b with
  | zero => exact .pure _
  | succ n ih => exact .ite (.pure _) ((getDbucketPtr_keeps b).bind (fun _ => ih))

theorem copyOut_eq {σ : Type} {s : σ} {db : DataBucket} {len : Nat}
    (hfit : off + len ≤ dbucketBufSize) :
    (copyOut env b db off len : Op σ (List Byte)) s = .ok (slice db.buf off len) s := by
  have hsize : dbucketBufSize = 4096 := rfl
  rw [copyOut, if_pos (by omega), run_pure]
  congr 1
  refine List.map_congr_left (fun k hk => ?_)
  have hlt := List.mem_range.mp hk
  rw [byteAt, uadd_eq (by omega), if_pos (by omega)]

/-- A read that ends in the first bucket. -/
theorem content_take_inside (hfit : off + c ≤ (d.bucket b).bytes) :
    ((content d (b :: l)).drop off).take c = slice (d.bucket b).buf off c := by
  rw [content_cons, List.drop_append_of_le_length (by simp; omega),
    List.take_append_of_le_length (by simp; omega), bucketData, slice_drop, slice_take,
    Nat.zero_add, Nat.min_eq_left (by omega)]

/-- A read that runs on into the rest of the chain. -/
theorem content_take_across (hoff : off ≤ (d.bucket b).bytes)
    (hc : (d.bucket b).bytes - off ≤ c) :
    ((content d (b :: l)).drop off).take c =
      slice (d.bucket b).buf off ((d.bucket b).bytes - off) ++
        ((content d l).drop 0).take (c - ((d.bucket b).bytes - off)) := by
  rw [content_cons, List.drop_append_of_le_length (by simpa), List.take_append,
    List.take_of_length_le (by simp; omega), List.drop_zero, List.length_drop, bucketData_length,
    bucketData, slice_drop, Nat.zero_add]

/-- The loop of `read` on a chain that `b` starts: it returns the content from
the cursor on, and the new cursor stands behind what was returned. -/
theorem readLoop_eq {fuel : Nat} (hd : DataWf d) (hl : Linked d.next noIx b (b :: l))
    (hown : ∀ a ∈ b :: l, d.Owned a) (hoff : off ≤ (d.bucket b).bytes) (hc : c < 2 ^ 64)
    (hf : (b :: l).length ≤ fuel) :
    ∃ r, readLoop env fuel b off c d = .ok r d ∧
      r.data = ((content d (b :: l)).drop off).take c ∧
      ∃ l₁ l₂, b :: l = l₁ ++ r.dbindex :: l₂ ∧ r.off ≤ (d.bucket r.dbindex).bytes ∧
        total d l₁ + r.off = off + r.data.length := by
  induction l generalizing b off c fuel with
  | nil =>
      obtain ⟨fuel, rfl⟩ : ∃ k, fuel = k + 1 := ⟨fuel - 1, by simp at hf; omega⟩
      have hle := hd.bytes_le b
      have hsize : dbucketBufSize = 4096 := rfl
      have hnext : (d.bucket b).nextIx = noIx := hl.2.2
      have hsub : usub (d.bucket b).bytes off = (d.bucket b).bytes - off :=
        usub_eq (by omega) hoff
      unfold readLoop
      rw [bind_of_ok (getDbucketPtr_eq hd.steps (hown b (by simp)).1), hsub, run_ite]
      by_cases hfit : c ≤ (d.bucket b).bytes - off
      · rw [if_pos hfit, bind_of_ok (copyOut_eq (by omega)), run_pure, uadd_eq (by omega)]
        exact ⟨_, rfl, (content_take_inside (by omega)).symm, [], [], rfl,
          by simp only; omega, by simp⟩
      · rw [if_neg hfit, bind_of_ok (copyOut_eq (by omega)), run_ite, if_neg (by simp [hnext]),
          run_pure]
        refine ⟨_, rfl, ?_, [], [], rfl, Nat.le_refl _, by simp; omega⟩
        rw [content_take_across hoff (by omega)]
        simp
  | cons b' l ih =>
      obtain ⟨fuel, rfl⟩ : ∃ k, fuel = k + 1 := ⟨fuel - 1, by simp at hf; omega⟩
      have hle := hd.bytes_le b
      have hsize : dbucketBufSize = 4096 := rfl
      have hb' := hown b' (by simp)
      have hnext : (d.bucket b).nextIx = b' := hl.2.2.1
      have hsub : usub (d.bucket b).bytes off = (d.bucket b).bytes - off :=
        usub_eq (by omega) hoff
      unfold readLoop
      rw [bind_of_ok (getDbucketPtr_eq hd.steps (hown b (by simp)).1), hsub, run_ite]
      by_cases hfit : c ≤ (d.bucket b).bytes - off
      · rw [if_pos hfit, bind_of_ok (copyOut_eq (by omega)), run_pure, uadd_eq (by omega)]
        exact ⟨_, rfl, (content_take_inside (by omega)).symm, [], b' :: l, rfl,
          by simp only; omega, by simp⟩
      · have htail : Linked d.next noIx b' (b' :: l) := Linked.suffix_cons hl
        obtain ⟨r, hrun, hdata, l₁, l₂, hsplit, hroff, hpos⟩ :=
          ih (c := c - ((d.bucket b).bytes - off)) htail
            (fun a ha => hown a (List.mem_cons_of_mem _ ha)) (Nat.zero_le _) (by omega)
            (by simpa using hf)
        rw [if_neg hfit, bind_of_ok (copyOut_eq (by omega)), run_ite, hnext,
          if_pos hb'.ne_noIx, usub_eq hc (by omega), bind_of_ok hrun, run_pure]
        refine ⟨_, rfl, ?_, b :: l₁, l₂, by rw [hsplit]; rfl, hroff, ?_⟩
        · rw [hdata, content_take_across hoff (by omega)]
        · simp only [total_cons, List.length_append, slice_length]
          omega

/-- The loop of `pread` on the chain that `i` starts. -/
theorem preadLoop_chain {fuel : Nat} (hsteps : d.dbucketSteps = totalStepsAllowed)
    (hle : ∀ a ∈ l, (d.bucket a).bytes ≤ dbucketBufSize) (hl : Linked d.next noIx i l)
    (hown : ∀ a ∈ l, d.Owned a) (hoff : ∀ b ∈ l.head?, off ≤ (d.bucket b).bytes)
    (hc : c < 2 ^ 64) (hf : l.length < fuel) :
    preadLoop env fuel i off c d = .ok (((content d l).drop off).take c) d := by
  induction l generalizing i off c fuel with
  | nil =>
      obtain rfl : i = noIx := hl
      obtain ⟨fuel, rfl⟩ : ∃ k, fuel = k + 1 := ⟨fuel - 1, by omega⟩
      simp [preadLoop]
  | cons b l ih =>
      obtain ⟨rfl, hb, htail⟩ := hl
      obtain ⟨fuel, rfl⟩ : ∃ k, fuel = k + 1 := ⟨fuel - 1, by omega⟩
      have hlei := hle i (by simp)
      have hsize : dbucketBufSize = 4096 := rfl
      have hoffi := hoff i (by simp)
      have hsub : usub (d.bucket i).bytes off = (d.bucket i).bytes - off :=
        usub_eq (by omega) hoffi
      unfold preadLoop
      rw [run_ite, if_neg hb, bind_of_ok (getDbucketPtr_eq hsteps (hown i (by simp)).1), hsub,
        run_ite]
      by_cases hfit : c ≤ (d.bucket i).bytes - off
      · rw [if_pos hfit, copyOut_eq (by omega), content_take_inside (by omega)]
      · have hlater := ih (i := (d.bucket i).nextIx)
          (c := c - ((d.bucket i).bytes - off))
          (fun a ha => hle a (List.mem_cons_of_mem _ ha)) htail
          (fun a ha => hown a (List.mem_cons_of_mem _ ha)) (fun _ _ => Nat.zero_le _) (by omega)
          (by simpa using hf)
        rw [if_neg hfit, bind_of_ok (copyOut_eq (by omega)), usub_eq hc (by omega),
          bind_of_ok hlater, run_pure, content_take_across hoffi (by omega)]

theorem preadLoop_eq {fuel : Nat} (hd : DataWf d) (hl : Linked d.next noIx i l)
    (hown : ∀ a ∈ l, d.Owned a) (hoff : ∀ b ∈ l.head?, off ≤ (d.bucket b).bytes)
    (hc : c < 2 ^ 64) (hf : l.length < fuel) :
    preadLoop env fuel i off c d = .ok (((content d l).drop off).take c) d :=
  preadLoop_chain hd.steps (fun b _ => hd.bytes_le b) hl hown hoff hc hf

/-- The walk to an offset lands on the bucket as many links down the chain, or
gives up when the chain is shorter. -/
theorem walkLoop_eq (hsteps : d.dbucketSteps = totalStepsAllowed) (hl : Linked d.next noIx i l)
    (hown : ∀ a ∈ l, d.Owned a) :
    walkLoop n i d =
      .ok (if n ≤ l.length then some ((l.drop n).head?.getD noIx) else none) d := by
  induction n generalizing i l with
  | zero => simpa [walkLoop] using Linked.head_eq hl
  | succ n ih =>
      unfold walkLoop
      cases l with
      | nil =>
          obtain rfl : i = noIx := hl
          simp
      | cons b l =>
          obtain ⟨rfl, hb, htail⟩ := hl
          rw [run_ite, if_neg hb, bind_of_ok (getDbucketPtr_eq hsteps (hown i (by simp)).1)]
          have := ih (i := (d.bucket i).nextIx) htail
            (fun a ha => hown a (List.mem_cons_of_mem _ ha))
          simpa using this

/-! Truncation. -/

/-- The store with every bucket of a chain emptied. -/
def DataShm.clear (d : DataShm) (l : List Nat) : DataShm :=
  { d with bucket := fun c =>
      if c ∈ l then { d.bucket c with bytes := 0 } else d.bucket c }

theorem clear_cons : (d.set b (fun db => { db with bytes := 0 })).clear l = d.clear (b :: l) := by
  simp only [DataShm.clear, DataShm.set]
  congr 1
  funext c
  by_cases hb : c = b
  · subst hb
    by_cases hl : c ∈ l <;> simp [hl]
  · by_cases hl : c ∈ l <;> simp [hb, hl]

theorem zero_next : (d.set b (fun db => { db with bytes := 0 })).next c = d.next c := by
  by_cases hc : c = b
  · subst hc
    simp [DataShm.next]
  · rw [DataShm.next, set_bucket_of_ne _ hc, DataShm.next]

theorem owned_zero (hown : d.Owned c) : (d.set b (fun db => { db with bytes := 0 })).Owned c := by
  refine ⟨hown.1, ?_⟩
  by_cases hc : c = b
  · subst hc
    simpa using hown.2
  · rw [set_bucket_of_ne _ hc]
    exact hown.2

theorem truncLoop_eq {bld : Build} (fuel : Nat) (hbld : bld.oTruncFree = false)
    (hsteps : d.dbucketSteps = totalStepsAllowed) (hl : Linked d.next noIx i l)
    (hown : ∀ a ∈ l, d.Owned a) (hf : l.length < fuel) :
    truncLoop bld fuel i d = .ok ⟨⟩ (d.clear l) := by
  induction l generalizing i d fuel with
  | nil =>
      obtain rfl : i = noIx := hl
      obtain ⟨fuel, rfl⟩ : ∃ k, fuel = k + 1 := ⟨fuel - 1, by omega⟩
      simp [truncLoop, DataShm.clear]
  | cons b l ih =>
      obtain ⟨rfl, hb, htail⟩ := hl
      obtain ⟨fuel, rfl⟩ : ∃ k, fuel = k + 1 := ⟨fuel - 1, by omega⟩
      have hrest := ih (d := d.set i (fun db => { db with bytes := 0 })) fuel hsteps
        (htail.congr (fun a _ => zero_next))
        (fun a ha => owned_zero (hown a (List.mem_cons_of_mem _ ha))) (by simpa using hf)
      unfold truncLoop
      rw [run_ite, if_neg hb, bind_of_ok (getDbucketPtr_eq hsteps (hown i (by simp)).1), hbld,
        run_ite, if_neg (by simp), run_modify_bind, ← clear_cons]
      exact hrest

/-- The data part of a truncating `open` empties the whole chain. -/
theorem truncChain_eq {bld : Build} (hbld : bld.oTruncFree = false)
    (hsteps : d.dbucketSteps = totalStepsAllowed) (hl : Linked d.next noIx b (b :: l))
    (hown : ∀ a ∈ b :: l, d.Owned a) : truncChain bld b d = .ok ⟨⟩ (d.clear (b :: l)) := by
  have hlen : (b :: l).length ≤ totBuckets :=
    length_le_totBuckets (Linked.nodup hl) (fun a ha => (hown a ha).1)
  have hrest := truncLoop_eq (d := d.set b (fun db => { db with bytes := 0 }))
    (i := (d.bucket b).nextIx) walkFuel hbld hsteps
    (hl.2.2.congr (fun a _ => zero_next))
    (fun a ha => owned_zero (hown a (List.mem_cons_of_mem _ ha)))
    (by unfold walkFuel; simp at hlen; omega)
  unfold truncChain
  rw [bind_of_ok (getDbucketPtr_eq hsteps (hown b (by simp)).1), run_modify_bind, hbld,
    bind_of_ok hrest, clear_cons]
  rfl

theorem clear_next : (d.clear l).next c = d.next c := by
  by_cases hc : c ∈ l <;> simp [DataShm.next, DataShm.clear, hc]

theorem clear_inUse : ((d.clear l).bucket c).inUse = (d.bucket c).inUse := by
  by_cases hc : c ∈ l <;> simp [DataShm.clear, hc]

theorem clear_of_not_mem (hc : c ∉ l) : (d.clear l).bucket c = d.bucket c := by
  simp [DataShm.clear, hc]

theorem clear_bytes (hc : c ∈ l) : ((d.clear l).bucket c).bytes = 0 := by
  simp [DataShm.clear, hc]

theorem DataWf.clear (hd : DataWf d) (l : List Nat) : DataWf (d.clear l) := by
  have hbytes : ∀ c, ((d.clear l).bucket c).bytes ≤ (d.bucket c).bytes := by
    intro c
    by_cases hc : c ∈ l <;> simp [DataShm.clear, hc]
  refine ⟨⟨hd.steps, hd.counter, ?_, ?_, ?_⟩, fun c => (hbytes c).trans (hd.bytes_le c), ?_⟩
  · intro c
    by_cases hc : c ∈ l <;> simp [DataShm.clear, hc, hd.unlocked]
  · intro c hfree
    rw [clear_inUse] at hfree
    rw [clear_next]
    exact hd.fresh c hfree
  · intro c
    simp only [clear_next, DataShm.Owned, clear_inUse]
    exact hd.target c
  · intro c hfree
    rw [clear_inUse] at hfree
    have := hbytes c
    rw [hd.empty c hfree] at this
    omega

theorem total_clear : total (d.clear l) l = 0 := by
  have hall : ∀ k : List Nat, (∀ a ∈ k, a ∈ l) → total (d.clear l) k = 0 := by
    intro k
    induction k with
    | nil => simp
    | cons a k ih =>
        intro hk
        rw [total_cons, clear_bytes (hk a (by simp)), ih (fun c hc => hk c (by simp [hc]))]
  exact hall l (fun _ ha => ha)

end Spacefish
