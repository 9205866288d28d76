import Spacefish.SignedOffsets

/-!
Which calls of `pread` and `pwrite` stay inside the buffers of the file of their
descriptor. The offset may be negative and the descriptor may have been used for
other files before.
-/

namespace Spacefish

open LinkedArray Program Buffer

variable {w w' : World} {rows : Nat → List Int} {ch : Int → List Nat} {env : Env} {m : Nat}
  {fd offset : Int} {buf : List Byte} {d d' : DataShm} {l new : List Nat} {b off c k fuel : Nat}
  {f f' : FdInfo} {count : UInt64}

/-! The descriptor. -/

/-- What may have happened to a descriptor of a file with the chain `l`: it was
opened in an entry that still names a bucket, `pread` and `pwrite` filled its cache,
and the chain grew. -/
inductive SlotHistory : List Nat → FdInfo → Prop where
  | fresh {l : List Nat} {f : FdInfo} (hptr : f.offDbPtr = 0) (hclean : (f.offDbMapping 0).offset = -1)
      (hix : (f.offDbMapping 0).dbindex = noIx ∨ (f.offDbMapping 0).dbindex < totBuckets) :
      SlotHistory l f
  | next {l : List Nat} {f f' : FdInfo} (h : SlotHistory l f) (hown : ∀ b ∈ l, b < totBuckets)
      (hnext : SlotNext l f f') : SlotHistory l f'
  | grow {l new : List Nat} {f : FdInfo} (h : SlotHistory l f) : SlotHistory (l ++ new) f

theorem placeOf_lt {ix : Nat} (hown : ∀ b ∈ l, b < totBuckets) (h : placeOf l offset = some ix) :
    ix = noIx ∨ ix < totBuckets := by
  rcases placeOf_some h with ⟨_, rfl⟩ | ⟨pre, l', hsplit, _⟩
  · exact Or.inl rfl
  · exact Or.inr (hown ix (by rw [hsplit]; simp))

/-- What the history leaves in the cache. -/
theorem SlotHistory.cache (h : SlotHistory l f) :
    f.offDbPtr = 0 ∧ CacheTrue f l ∧
      ((f.offDbMapping 0).dbindex = noIx ∨ (f.offDbMapping 0).dbindex < totBuckets) := by
  induction h with
  | fresh hptr hclean hix => exact ⟨hptr, cacheTrue_of_empty hclean, hix⟩
  | next h hown hnext ih =>
      obtain ⟨hptr, hcache, hix⟩ := ih
      refine ⟨(hnext.cacheOk hptr hcache.cacheOk).2, hnext.cacheTrue hptr hcache, ?_⟩
      rcases hnext.cache with ⟨hmap, _⟩ | ⟨offset, ix, hplace, hmap, _⟩
      · rw [hmap]
        exact hix
      · rw [hmap]
        simp only [cacheFill, hptr, Function.update_self]
        exact placeOf_lt hown hplace
  | grow h ih => exact ⟨ih.1, ih.2.1.append, ih.2.2⟩

theorem SlotHistory.start_lt (h : SlotHistory l f) (hown : ∀ b ∈ l, b < totBuckets)
    (hstart : startOf f l offset = some b) : b = noIx ∨ b < totBuckets := by
  unfold startOf at hstart
  split at hstart
  · exact placeOf_lt hown hstart
  · obtain rfl := Option.some.inj hstart
    rw [cacheLookup_eq]
    split
    · exact h.cache.2.2
    · exact Or.inl rfl

/-! Reading. -/

/-- The buckets of `l` are the same in both segments, as far as their buffers reach. -/
structure AgreesOn (d d' : DataShm) (l : List Nat) : Prop where
  steps : d'.dbucketSteps = d.dbucketSteps
  inUse : ∀ b ∈ l, (d'.bucket b).inUse = (d.bucket b).inUse
  next : ∀ b ∈ l, d'.next b = d.next b
  bytes : ∀ b ∈ l, (d'.bucket b).bytes = (d.bucket b).bytes
  buf : ∀ b ∈ l, ∀ k < dbucketBufSize, (d'.bucket b).buf k = (d.bucket b).buf k

/-- A `pread` reads the buffers of the chain `l` alone: it returns the same whatever
the other buckets hold and the memory around the buffers. -/
def ReadsInside (w : World) (l : List Nat) (env : Env) (fd : Int) (count : UInt64) (offset : Int) :
    Prop :=
  ∃ r fds', ∀ d' beyond, AgreesOn w.data d' l →
    sysPread defaultBuild { env with beyond := beyond } fd count offset { w with data := d' } =
      .ok r ⟨w.table, d', fds'⟩

/-- It asks for nothing, it finds no bucket, or the remainder of the offset is not
negative and what is asked for lies in the buffer, or starts in the bytes of its
bucket. -/
def ReadStays (d : DataShm) (start : Option Nat) (count : Nat) (offset : Int) : Prop :=
  count = 0 ∨ ∀ b, start = some b → b ≠ noIx → Regular offset ∧
    (within offset ≤ (d.bucket b).bytes ∨ within offset + count ≤ dbucketBufSize)

theorem AgreesOn.refl (d : DataShm) (l : List Nat) : AgreesOn d d l :=
  ⟨rfl, fun _ _ => rfl, fun _ _ => rfl, fun _ _ => rfl, fun _ _ _ _ => rfl⟩

theorem AgreesOn.sub (h : AgreesOn d d' l) {l' : List Nat} (hsub : ∀ b ∈ l', b ∈ l) :
    AgreesOn d d' l' :=
  ⟨h.steps, fun b hb => h.inUse b (hsub b hb), fun b hb => h.next b (hsub b hb),
    fun b hb => h.bytes b (hsub b hb), fun b hb => h.buf b (hsub b hb)⟩

theorem AgreesOn.owned (h : AgreesOn d d' l) (hown : ∀ b ∈ l, d.Owned b) :
    ∀ b ∈ l, d'.Owned b :=
  fun b hb => ⟨(hown b hb).1, (h.inUse b hb).trans (hown b hb).2⟩

theorem AgreesOn.linked {i : Nat} (h : AgreesOn d d' l) (hl : Linked d.next noIx i l) :
    Linked d'.next noIx i l :=
  hl.congr (fun b hb => h.next b hb)

theorem AgreesOn.content_eq (h : AgreesOn d d' l)
    (hle : ∀ b ∈ l, (d.bucket b).bytes ≤ dbucketBufSize) : content d' l = content d l := by
  induction l with
  | nil => rfl
  | cons b l ih =>
      rw [content_cons, content_cons, ih (h.sub (fun a ha => List.mem_cons_of_mem _ ha))
        (fun a ha => hle a (List.mem_cons_of_mem _ ha)), bucketData, bucketData,
        h.bytes b (by simp)]
      have hleb := hle b (by simp)
      congr 1
      exact slice_congr (fun i _ hi => h.buf b (by simp) i (by omega))

/-- The descriptor table when `pread` has returned the bytes. -/
def readFds (env : Env) (fd : Int) (l : List Nat) (offset : Int) (data : List Byte) (w : World) :
    Nat → FdInfo :=
  let w₁ := w.setFd fd.toNat (fun f => located f l offset)
  if data.length > 0 then (w₁.setFd fd.toNat (deferStamp env stAcs)).fdTable else w₁.fdTable

theorem preadDone_eq (hu : UserFd w fd m) {x : Op DataShm (List Byte)} {data : List Byte}
    (hx : x w.data = .ok data w.data) :
    (onData x >>= preadDone env fd) (w.setFd fd.toNat (fun f => located f l offset)) =
      .ok { ret := data.length, err := .ok, data := data }
        ⟨w.table, w.data, readFds env fd l offset data w⟩ := by
  rw [bind_of_ok (onData_of_ok (w := w.setFd fd.toNat _) hx), preadDone, readFds, run_ite]
  split
  · rw [setFddes_eq hu.pos hu.lt]
    rfl
  · rfl

section

variable (hu : UserFd w fd m) (hsteps : w.data.dbucketSteps = totalStepsAllowed)
  (hlinked : Linked w.data.next noIx (w.table.mb m).firstDbucket l)
  (hown : ∀ b ∈ l, w.data.Owned b)

include hu hsteps hlinked hown

theorem sysPread_same (hsame : AgreesOn w.data d' l) {beyond : Nat → Nat → Byte} :
    sysPread defaultBuild { env with beyond := beyond } fd count offset { w with data := d' } =
      (match startOf (w.fdTable fd.toNat) l offset with
        | none => pure ({ ret := 0, err := .ok } : Ret)
        | some ix => onData (preadLoop { env with beyond := beyond } (readFuel count.toNat) ix
            (toSize (offset.tmod dbucketBufSize)) count.toNat) >>=
              preadDone { env with beyond := beyond } fd)
        ({ w with data := d' }.setFd fd.toNat (fun f => located f l offset)) :=
  sysPread_start (w := { w with data := d' }) ⟨hu.pos, hu.lt, hu.exclusive, hu.nonempty, hu.mindex⟩
    (hsame.steps.trans hsteps) (hsame.linked hlinked) (hsame.owned hown)

theorem readsInside_none (hstart : startOf (w.fdTable fd.toNat) l offset = none) :
    ReadsInside w l env fd count offset := by
  refine ⟨{ ret := 0, err := .ok },
    (w.setFd fd.toNat (fun f => located f l offset)).fdTable, fun d' beyond hsame => ?_⟩
  rw [sysPread_same hu hsteps hlinked hown hsame, hstart]
  rfl

theorem readsInside_some {ix : Nat} (data : List Byte)
    (hstart : startOf (w.fdTable fd.toNat) l offset = some ix)
    (hloop : ∀ d' beyond, AgreesOn w.data d' l →
      preadLoop { env with beyond := beyond } (readFuel count.toNat) ix
        (toSize (offset.tmod dbucketBufSize)) count.toNat d' = .ok data d') :
    ReadsInside w l env fd count offset := by
  refine ⟨{ ret := data.length, err := .ok, data := data }, readFds env fd l offset data w,
    fun d' beyond hsame => ?_⟩
  rw [sysPread_same hu hsteps hlinked hown hsame, hstart]
  exact preadDone_eq (w := { w with data := d' })
    ⟨hu.pos, hu.lt, hu.exclusive, hu.nonempty, hu.mindex⟩ (hloop d' beyond hsame)

/-- A read of a cell outside the buffer shows in what is returned. -/
theorem not_readsInside (hb : b < totBuckets)
    (hstart : startOf (w.fdTable fd.toNat) l offset = some b) (hk : k < count.toNat)
    (hkin : k < usub (w.data.bucket b).bytes (toSize (offset.tmod dbucketBufSize)))
    (hout : dbucketBufSize ≤ uadd (toSize (offset.tmod dbucketBufSize)) k) :
    ¬ ReadsInside w l env fd count offset := by
  rintro ⟨r, fds', hall⟩
  have hcell : ∀ x : Byte, r.data[k]? = some x := by
    intro x
    have hrun := hall w.data (fun _ _ => x) (.refl _ _)
    rw [sysPread_same hu hsteps hlinked hown (.refl _ _), hstart] at hrun
    have hends : Ends ((onData (preadLoop { env with beyond := fun _ _ => x }
        (readFuel count.toNat) b (toSize (offset.tmod dbucketBufSize)) count.toNat) >>=
          preadDone { env with beyond := fun _ _ => x } fd)
        (w.setFd fd.toNat (fun f => located f l offset)))
        (fun r _ => r.data[k]? = some x) (fun _ _ => True) := by
      rw [ends_bind, onData, ends_zoom]
      refine (preadLoop_first hsteps hb hk hkin).mono ?_ (fun _ _ h => h)
      intro data d₁ hdata
      rw [byteAt, if_neg (by omega)] at hdata
      rw [preadDone, run_ite]
      split
      · rw [setFddes_eq hu.pos hu.lt]
        exact hdata
      · exact hdata
    change (onData _ >>= preadDone _ fd) (w.setFd fd.toNat _) = _ at hrun
    rw [hrun] at hends
    exact hends
  exact absurd (Option.some.inj ((hcell 0).symm.trans (hcell 1))) (by decide)

end

theorem preadLoop_noIx (hfuel : 0 < fuel) : preadLoop env fuel noIx off c d = .ok [] d := by
  obtain ⟨fuel, rfl⟩ : ∃ n, fuel = n + 1 := ⟨fuel - 1, by omega⟩
  rw [preadLoop, run_ite, if_pos rfl]
  rfl

/-- Behind the bytes of its bucket a `pread` takes all it is asked for from there. -/
theorem preadLoop_behind (hsteps : d.dbucketSteps = totalStepsAllowed) (hb : d.Owned b)
    (hbytes : (d.bucket b).bytes < off) (hfit : off + c ≤ dbucketBufSize) (hfuel : 0 < fuel) :
    preadLoop env fuel b off c d = .ok (slice (d.bucket b).buf off c) d := by
  obtain ⟨fuel, rfl⟩ : ∃ n, fuel = n + 1 := ⟨fuel - 1, by omega⟩
  have hsize : dbucketBufSize = 4096 := rfl
  have hsub : c ≤ usub (d.bucket b).bytes off := by
    unfold usub
    omega
  rw [preadLoop, run_ite, if_neg hb.ne_noIx, bind_of_ok (getDbucketPtr_eq hsteps hb.1), run_ite,
    if_pos hsub]
  exact copyOut_eq hfit

section

variable (wf : StoreWf (w.store rows ch)) (hu : UserFd w fd m)
  (huse : (w.table.mb m).inUse = true)

include wf hu huse

/-- From a position in the buffer of a bucket of its file on, a `pread` stays inside if
it starts in the bytes of the bucket or ends in the buffer. -/
theorem regular_readsInside {pre : List Nat} (hreg : Regular offset) (hsplit : ch m = pre ++ b :: l)
    (hstart : startOf (w.fdTable fd.toNat) (ch m) offset = some b)
    (hin : within offset ≤ (w.data.bucket b).bytes ∨
      within offset + count.toNat ≤ dbucketBufSize) :
    ReadsInside w (ch m) env fd count offset := by
  have hown : ∀ b ∈ ch m, w.data.Owned b := wf.owned m huse
  have hlinked : Linked w.data.next noIx (w.table.mb m).firstDbucket (ch m) := wf.linked m huse
  obtain ⟨hlater, hownl, hmax⟩ := wf.suffix huse hsplit
  have hsub : ∀ a ∈ b :: l, a ∈ ch m := fun a ha => by
    rw [hsplit]
    exact List.mem_append_right _ ha
  have hle : ∀ a, (w.data.bucket a).bytes ≤ dbucketBufSize := wf.bytes_le
  have hfuel : totBuckets < readFuel count.toNat := by
    unfold readFuel
    have : totBuckets + 1 ≤ (count.toNat + 1) * (totBuckets + 1) :=
      Nat.le_mul_of_pos_left _ (Nat.succ_pos _)
    omega
  rw [← hreg.toSize_tmod] at hin
  by_cases hfirst : toSize (offset.tmod dbucketBufSize) ≤ (w.data.bucket b).bytes
  · refine readsInside_some hu wf.links.steps hlinked hown (((content w.data (b :: l)).drop
      (toSize (offset.tmod dbucketBufSize))).take count.toNat) hstart (fun d' beyond hsame => ?_)
    have hsame' := hsame.sub hsub
    rw [← hsame'.content_eq (fun a _ => hle a)]
    refine preadLoop_chain (hsame.steps.trans wf.links.steps)
      (fun a ha => by rw [hsame'.bytes a ha]; exact hle a) (hsame'.linked hlater)
      (hsame'.owned hownl) ?_ count.toNat_lt (by omega)
    intro a ha
    obtain rfl : b = a := by simpa using ha
    rw [hsame'.bytes b (by simp)]
    exact hfirst
  · have hfit := hin.resolve_left hfirst
    have hb : b ∈ ch m := hsub b (by simp)
    refine readsInside_some hu wf.links.steps hlinked hown (slice (w.data.bucket b).buf
      (toSize (offset.tmod dbucketBufSize)) count.toNat) hstart (fun d' beyond hsame => ?_)
    rw [← slice_congr (fun i _ hi => hsame.buf b hb i (by omega))]
    exact preadLoop_behind (hsame.steps.trans wf.links.steps) (hsame.owned hown b hb)
      (by rw [hsame.bytes b hb]; omega) hfit (by omega)

theorem readsInside_iff (hist : SlotHistory (ch m) (w.fdTable fd.toNat)) :
    ReadsInside w (ch m) env fd count offset ↔
      ReadStays w.data (startOf (w.fdTable fd.toNat) (ch m) offset) count.toNat offset := by
  have hown : ∀ b ∈ ch m, w.data.Owned b := wf.owned m huse
  have hlinked : Linked w.data.next noIx (w.table.mb m).firstDbucket (ch m) := wf.linked m huse
  have hsteps := wf.links.steps
  cases hstart : startOf (w.fdTable fd.toNat) (ch m) offset with
  | none =>
      exact iff_of_true (readsInside_none hu hsteps hlinked hown hstart) (Or.inr nofun)
  | some b =>
      have hlt := hist.start_lt (fun a ha => (hown a ha).1) hstart
      by_cases hzero : count.toNat = 0
      · refine iff_of_true (readsInside_some hu hsteps hlinked hown [] hstart ?_)
          (Or.inl hzero)
        intro d' beyond hsame
        rw [hzero]
        exact preadLoop_nothing (hsame.steps.trans hsteps) hlt (readFuel_pos 0)
      by_cases hnil : b = noIx
      · subst hnil
        refine iff_of_true (readsInside_some hu hsteps hlinked hown [] hstart
          (fun d' beyond _ => preadLoop_noIx (readFuel_pos _))) (Or.inr ?_)
        rintro a ⟨⟩ hne
        exact absurd rfl hne
      have hb := hlt.resolve_left hnil
      have hsize : dbucketBufSize = 4096 := rfl
      have hle : (w.data.bucket b).bytes ≤ dbucketBufSize := wf.bytes_le b
      have hstays : ReadStays w.data (some b) count.toNat offset ↔ Regular offset ∧
          (within offset ≤ (w.data.bucket b).bytes ∨
            within offset + count.toNat ≤ dbucketBufSize) := by
        simp [ReadStays, hzero, hnil]
      rw [hstays]
      by_cases hreg : Regular offset
      · have hw := within_lt offset
        rw [hist.cache.2.1.startOf_eq hreg.ne] at hstart
        obtain ⟨_, rfl⟩ | ⟨pre, l, hsplit, _⟩ := placeOf_some hstart
        · exact absurd rfl hnil
        rw [← hist.cache.2.1.startOf_eq hreg.ne] at hstart
        refine ⟨fun hinside => ⟨hreg, ?_⟩, fun ⟨_, hin⟩ =>
          regular_readsInside wf hu huse hreg hsplit hstart hin⟩
        by_contra hout
        -- the cell behind the buffer is read
        refine not_readsInside hu hsteps hlinked hown (k := dbucketBufSize - within offset) hb hstart
          (by omega) ?_ ?_ hinside
        · rw [hreg.toSize_tmod]
          unfold usub
          omega
        · rw [hreg.toSize_tmod, uadd_eq (by omega)]
          omega
      · obtain ⟨k, hk, hkl, htmod⟩ := irregular_tmod hreg
        refine iff_of_false ?_ (fun h => hreg h.1)
        -- the cell at the position of the offset is read
        refine not_readsInside hu hsteps hlinked hown (k := 0) hb hstart (by omega) ?_ ?_
        · rw [htmod]
          unfold usub
          omega
        · rw [htmod, uadd_eq (by omega)]
          omega

end

end Spacefish
