import Spacefish.InsideFile

/-!
The writing half: what a `pwrite` at any offset changes in the data segment, and
that the histories of the descriptors are those of the runs.
-/

namespace Spacefish

open LinkedArray Program Buffer

variable {w w' : World} {rows : Nat → List Int} {ch : Int → List Nat} {env : Env} {m : Nat}
  {fd offset : Int} {buf chunk : List Byte} {d d' : DataShm} {l pre new : List Nat} {b i off k : Nat}
  {r : Option WriteOut} {count : UInt64}

/-- `d'` is `d` after a call that stays on the chain `l` from bucket `i` on: the chain
may have grown by free buckets, and outside the buffers of its buckets no byte has
changed. -/
structure StaysOn (d : DataShm) (i : Nat) (l : List Nat) (d' : DataShm) (new : List Nat) : Prop where
  fresh : ∀ b ∈ new, (d.bucket b).inUse = false
  linked : Linked d'.next noIx i (l ++ new)
  used : ∀ b ∈ l, (d'.bucket b).inUse = true
  other : ∀ b ∉ l ++ new, d'.bucket b = d.bucket b
  beyond : ∀ b k, dbucketBufSize ≤ k → (d'.bucket b).buf k = (d.bucket b).buf k

/-- A `pwrite` returns, or ends the process of its caller because the store is full,
and stays on the chain `l` of the file `m`. -/
def WritesInside (w : World) (m : Nat) (l : List Nat) (env : Env) (fd : Int) (buf : List Byte)
    (offset : Int) : Prop :=
  Ends (sysPwrite defaultBuild env fd buf offset w)
    (fun _ w' => ∃ new, StaysOn w.data (w.table.mb m).firstDbucket l w'.data new)
    (fun e w' => e = .exit .dataBucketOverUse ∧
      ∃ new, StaysOn w.data (w.table.mb m).firstDbucket l w'.data new)

/-- It finds no bucket, the remainder of the offset is not negative, or it writes
nothing and has found a bucket of its file. -/
def WriteStays (start : Option Nat) (l : List Nat) (buf : List Byte) (offset : Int) : Prop :=
  ∀ b, start = some b → b ≠ noIx → Regular offset ∨ (buf = [] ∧ b ∈ l)

theorem StaysOn.refl (hlinked : Linked d.next noIx i l) (hown : ∀ b ∈ l, d.Owned b) :
    StaysOn d i l d [] :=
  ⟨fun _ h => (by cases h), by rwa [List.append_nil], fun b hb => (hown b hb).2, fun _ _ => rfl, fun _ _ _ => rfl⟩

theorem put_beyond (hfit : chunk = [] ∨ off + chunk.length ≤ dbucketBufSize)
    (hk : dbucketBufSize ≤ k) :
    ((d.put b off chunk).bucket i).buf k = (d.bucket i).buf k := by
  by_cases hi : i = b
  · subst hi
    rw [DataShm.put, set_bucket_self, DataBucket.put]
    rcases hfit with rfl | hfit
    · rw [memcpy_nil]
    · exact memcpy_of_le _ (by omega)
  · rw [put_bucket_of_ne hi]

theorem grow_buf : ((d.grow b i).bucket k).buf = (d.bucket k).buf := by
  by_cases hi : k = i <;> by_cases hb : k = b <;>
    simp_all [DataShm.grow, DataShm.take, DataShm.set]

theorem Copy.beyond (hcopy : Copy d l off buf d' r new) (hk : dbucketBufSize ≤ k) :
    (d'.bucket i).buf k = (d.bucket i).buf k := by
  induction hcopy with
  | last hfit => exact put_beyond (Or.inr hfit) hk
  | next hfull hmore hrest ih => exact ih.trans (put_beyond (Or.inr (by omega)) hk)
  | grow hfull hmore hix hfree hrest ih =>
      rw [ih, grow_buf]
      exact put_beyond (Or.inr (by omega)) hk
  | full hfull hmore hover => exact put_beyond (Or.inr (by omega)) hk

/-- A copy into a part of the chain stays on the chain. -/
theorem StoreWf.copy_staysOn {s : Store} {m : Int} (wf : StoreWf s) (huse : s.Used m)
    (hsplit : s.ch m = pre ++ b :: l) (hcopy : Copy s.data (b :: l) off buf d' r new) :
    StaysOn s.data (s.table.mb m).firstDbucket (s.ch m) d' new := by
  have hafter := (wf.copy pre huse hsplit hcopy).linked m huse
  simp only [Function.update_self] at hafter
  refine ⟨fun c hc => (hcopy.fresh hc).2, hafter,
    fun c hc => hcopy.inUse.mpr (Or.inl (wf.owned m huse c hc).2), fun c hc => ?_,
    fun _ _ hk => hcopy.beyond hk⟩
  rw [List.mem_append, not_or] at hc
  refine hcopy.frame (fun hmem => hc.1 ?_) hc.2
  rw [hsplit]
  exact List.mem_append_right _ hmem

theorem located_world : Located w fd l offset (w.setFd fd.toNat (fun f => located f l offset)) := by
  by_cases hhit : cacheLookup (w.fdTable fd.toNat) offset = noIx
  · cases hplace : placeOf l offset with
    | none => exact Or.inl (setFd_self (by simp [located, hhit, hplace]))
    | some ix =>
        refine Or.inr ⟨ix, hplace, ?_⟩
        rw [World.setFd, World.setFd]
        simp [located, hhit, hplace]
  · exact Or.inl (setFd_self (by simp [located, hhit]))

/-! An offset with a negative remainder. -/

theorem ne_noIx_of_lt (hb : b < totBuckets) : b ≠ noIx := by
  unfold totBuckets at hb
  unfold noIx
  omega

/-- What `pwrite` does behind its loop. -/
def pwriteDone (env : Env) (fd : Int) (m : Nat) (o : WriteOut) : Op World Ret := do
  if o.n > 0 then
    setFddes fd (deferStamp env (stMod ||| stChg))
    mbModify m
  setMb m (fun b => { b with s := growStat b.s o.sizeInd })
  return { ret := o.n, err := .ok }

theorem sysPwrite_start (hu : UserFd w fd m) (hsteps : w.data.dbucketSteps = totalStepsAllowed)
    (hlinked : Linked w.data.next noIx (w.table.mb m).firstDbucket l)
    (hown : ∀ b ∈ l, w.data.Owned b) :
    sysPwrite defaultBuild env fd buf offset w =
      (match startOf (w.fdTable fd.toNat) l offset with
        | none => pure ({ ret := 0, err := .ok } : Ret)
        | some ix => onData (writeLoop defaultBuild env true (writeFuel buf) ix
            (toSize (offset.tmod dbucketBufSize)) buf) >>= pwriteDone env fd m)
        (w.setFd fd.toNat (fun f => located f l offset)) := by
  rw [sysPwrite, fddes_eq hu, hu.exclusive, hu.nonempty]
  simp only [Bool.false_eq_true, if_false]
  rw [run_get_bind, hu.mindex, bind_of_ok (locate_start offset hu hsteps hlinked hown)]
  cases startOf (w.fdTable fd.toNat) l offset <;> rfl

/-- A byte would be written in front of the buffer. -/
theorem writeLoop_before (env : Env) (hsteps : d.dbucketSteps = totalStepsAllowed) (hb : b < totBuckets)
    (hk : 0 < k) (hlt : k < dbucketBufSize) (hbuf : buf ≠ []) :
    writeLoop defaultBuild env true (writeFuel buf) b (2 ^ 64 - k) buf d = .error .undefined d := by
  have hsize : dbucketBufSize = 4096 := rfl
  have hlen := List.length_pos_iff.mpr hbuf
  have hsub : usub dbucketBufSize (2 ^ 64 - k) = dbucketBufSize + k := by
    unfold usub
    omega
  have hcopy : ∀ chunk : List Byte, 0 < chunk.length →
      copyIn b (2 ^ 64 - k) chunk d = .error .undefined d := by
    intro chunk hchunk
    rw [copyIn, run_ite, if_neg (by omega)]
    rfl
  rw [writeFuel, writeLoop, run_ite, if_neg (by simp [ne_noIx_of_lt hb]),
    bind_of_ok (getDbucketPtr_eq hsteps hb), hsub, run_ite]
  split
  · rw [bind_of_error (hcopy buf hlen)]
  · rw [bind_of_error (hcopy _ (by rw [List.length_take]; omega))]

/-- With nothing to write, the byte count is set to the position. -/
theorem writeLoop_count (env : Env) (off : Nat) (hsteps : d.dbucketSteps = totalStepsAllowed)
    (hb : b < totBuckets) :
    ∃ o : WriteOut, o.n = 0 ∧
      writeLoop defaultBuild env true (writeFuel []) b off [] d = .ok o (d.put b off []) := by
  refine ⟨⟨0, (d.bucket b).grown off [], b, uadd off 0⟩, rfl, ?_⟩
  rw [writeFuel, writeLoop, run_ite, if_neg (by simp [ne_noIx_of_lt hb]),
    bind_of_ok (getDbucketPtr_eq hsteps hb), run_ite,
    if_pos (show ([] : List Byte).length ≤ _ from Nat.zero_le _), copyIn]
  rfl

theorem pwriteDone_nothing (env : Env) (fd : Int) (m : Nat) (w₁ : World) {o : WriteOut}
    {x : Op DataShm WriteOut} (hn : o.n = 0) (hx : x w₁.data = .ok o d') :
    ∃ w', (onData x >>= pwriteDone env fd m) w₁ = .ok { ret := 0, err := .ok } w' ∧
      w'.data = d' := by
  rw [bind_of_ok (onData_of_ok hx), pwriteDone, run_ite, if_neg (by omega)]
  change ∃ w', (setMb m (fun b => { b with s := growStat b.s o.sizeInd }) >>= fun _ =>
    (pure { ret := (o.n : Int), err := .ok } : Op World Ret)) { w₁ with data := d' } = _ ∧ _
  rw [run_setMb, hn]
  exact ⟨_, rfl, rfl⟩

section

variable (wf : StoreWf (w.store rows ch)) (huse : (w.table.mb m).inUse = true)

include wf huse

/-- A `pwrite` of nothing stays on the chain exactly when its bucket is on it. -/
theorem staysOn_put_iff (hk : 0 < k) (hlt : k < dbucketBufSize) :
    (∃ new, StaysOn w.data (w.table.mb m).firstDbucket (ch m)
      (w.data.put b (2 ^ 64 - k) []) new) ↔ b ∈ ch m := by
  have hown : ∀ b ∈ ch m, w.data.Owned b := wf.owned m huse
  have hlinked : Linked w.data.next noIx (w.table.mb m).firstDbucket (ch m) := wf.linked m huse
  have hle : (w.data.bucket b).bytes ≤ dbucketBufSize := wf.bytes_le b
  have hsize : dbucketBufSize = 4096 := rfl
  have hnext : (w.data.put b (2 ^ 64 - k) []).next = w.data.next := funext fun _ => put_next
  constructor
  · rintro ⟨new, hstays⟩
    by_contra hout
    have hl := hstays.linked
    rw [hnext] at hl
    have hsame := hlinked.unique hl
    -- the byte count of the bucket has changed
    have hbytes := congrArg DataBucket.bytes (hstays.other b (by rw [← hsame]; exact hout))
    rw [DataShm.put, set_bucket_self, DataBucket.put, List.length_nil, uadd_eq (by omega)] at hbytes
    simp only [gt_iff_lt] at hbytes
    rw [if_pos (by omega)] at hbytes
    omega
  · intro hb
    refine ⟨[], fun _ h => (by cases h), ?_, ?_, ?_, fun _ _ hk => put_beyond (Or.inl rfl) hk⟩
    · rw [hnext, List.append_nil]
      exact hlinked
    · intro c hc
      rw [put_inUse]
      exact (hown c hc).2
    · intro c hc
      refine put_bucket_of_ne ?_
      rintro rfl
      exact hc (by simpa using hb)

variable (hu : UserFd w fd m) (hist : SlotHistory (ch m) (w.fdTable fd.toNat))

include hu hist

theorem regular_writesInside (hreg : Regular offset) :
    WritesInside w m (ch m) env fd buf offset := by
  have hown : ∀ b ∈ ch m, w.data.Owned b := wf.owned m huse
  have hlinked : Linked w.data.next noIx (w.table.mb m).firstDbucket (ch m) := wf.linked m huse
  have hloc := locate_start offset hu wf.links.steps hlinked hown
  rw [hist.cache.2.1.startOf_eq hreg.ne] at hloc
  refine (sysPwrite_located rfl wf.toLinkWf hu huse hloc located_world hreg.toSize_tmod).mono ?_ ?_
  · rintro r w' (⟨_, _, hdata, _⟩ | ⟨pre, b, l, o, new, hsplit, _, _, hw⟩)
    · rw [hdata]
      exact ⟨[], .refl hlinked hown⟩
    · exact ⟨new, wf.copy_staysOn huse hsplit hw.copy⟩
  · rintro e w' ⟨rfl, _, pre, b, l, new, hsplit, _, hcopy⟩
    exact ⟨rfl, new, wf.copy_staysOn huse hsplit hcopy⟩

theorem writesInside_iff :
    WritesInside w m (ch m) env fd buf offset ↔
      WriteStays (startOf (w.fdTable fd.toNat) (ch m) offset) (ch m) buf offset := by
  have hown : ∀ b ∈ ch m, w.data.Owned b := wf.owned m huse
  have hlinked : Linked w.data.next noIx (w.table.mb m).firstDbucket (ch m) := wf.linked m huse
  by_cases hreg : Regular offset
  · exact iff_of_true (regular_writesInside wf huse hu hist hreg) (fun _ _ _ => Or.inl hreg)
  rw [WritesInside, sysPwrite_start hu wf.links.steps hlinked hown]
  cases hstart : startOf (w.fdTable fd.toNat) (ch m) offset with
  | none => exact iff_of_true ⟨[], .refl hlinked hown⟩ (fun _ h => by cases h)
  | some b =>
      dsimp only
      by_cases hnil : b = noIx
      · subst hnil
        refine iff_of_true ?_ (by rintro a ⟨⟩ hne; exact absurd rfl hne)
        obtain ⟨w', hrun, hdata⟩ := pwriteDone_nothing env fd m
          (w.setFd fd.toNat (fun f => located f (ch m) offset)) (o := ⟨0, 0, noIx, _⟩)
          (x := writeLoop defaultBuild env true (writeFuel buf) noIx
            (toSize (offset.tmod dbucketBufSize)) buf) rfl (by
              rw [writeFuel, writeLoop, run_ite, if_pos ⟨rfl, rfl⟩]
              rfl)
        rw [hrun, ends_ok, hdata]
        exact ⟨[], .refl hlinked hown⟩
      have hb := (hist.start_lt (fun a ha => (hown a ha).1) hstart).resolve_left hnil
      have hstays : WriteStays (some b) (ch m) buf offset ↔ buf = [] ∧ b ∈ ch m := by
        simp [WriteStays, hnil, hreg]
      obtain ⟨k, hk, hlt, htmod⟩ := irregular_tmod hreg
      rw [hstays, htmod]
      by_cases hbuf : buf = []
      · subst hbuf
        obtain ⟨o, hn, hloop⟩ := writeLoop_count env (2 ^ 64 - k)
          wf.links.steps hb
        obtain ⟨w', hrun, hdata⟩ := pwriteDone_nothing env fd m
          (w.setFd fd.toNat (fun f => located f (ch m) offset)) hn hloop
        rw [hrun, ends_ok, hdata]
        exact (staysOn_put_iff wf huse hk hlt).trans (by simp)
      · have hrun := writeLoop_before env wf.links.steps hb hk hlt hbuf
        rw [bind_of_error (onData_of_error (w := w.setFd fd.toNat _) hrun), ends_error]
        exact iff_of_false (fun h => by cases h.1) (fun h => hbuf h.1)

end

variable {s : Sys} {pid : Nat}

/-- A `pread` stays inside the buffers of its file, and a `pwrite` changes nothing
outside them, for an arbitrary offset and descriptor, under exactly these conditions. -/
theorem offset_calls_inside_iff (count : UInt64) (buf : List Byte)
    (wf : StoreWf (s.store rows ch)) (hu : UserFd (s.view pid) fd m)
    (huse : (s.table.mb m).inUse = true)
    (hist : SlotHistory (fileChain s m) (s.fds pid fd.toNat)) :
    (ReadsInside (s.view pid) (fileChain s m) env fd count offset ↔
      ReadStays s.data (startOf (s.fds pid fd.toNat) (fileChain s m) offset) count.toNat offset) ∧
    (WritesInside (s.view pid) m (fileChain s m) env fd buf offset ↔
      WriteStays (startOf (s.fds pid fd.toNat) (fileChain s m) offset) (fileChain s m) buf
        offset) := by
  rw [wf.toLinkWf.fileChain_eq huse] at hist ⊢
  have hview : StoreWf ((s.view pid).store rows ch) := wf
  exact ⟨readsInside_iff hview hu huse hist, writesInside_iff hview huse hu hist⟩

theorem threeBytes_history :
    SlotHistory (fileChain threeBytes (0 : Nat)) (threeBytes.fds 0 (1024 : Int).toNat) :=
  .fresh (by decide +kernel) (by decide +kernel) (by decide +kernel)

/-- Two bytes of a file of three, and a byte written at a negative multiple of the
size of a buffer. -/
theorem offset_calls_inside_threeBytes :
    ReadsInside (threeBytes.view 0) (fileChain threeBytes (0 : Nat)) emptyDisk 1024 2 1 ∧
      WritesInside (threeBytes.view 0) 0 (fileChain threeBytes (0 : Nat)) emptyDisk 1024 [9]
        (-4096) := by
  obtain ⟨rows, ch, hinv⟩ := run_sysWf threeBytes_reached
  have huse : (threeBytes.table.mb (0 : Nat)).inUse = true := by decide +kernel
  have hle : within 1 ≤ (threeBytes.data.bucket 0).bytes := by decide +kernel
  refine ⟨(offset_calls_inside_iff 2 [] hinv.store threeBytes_fd huse
    threeBytes_history).1.mpr (Or.inr ?_), (offset_calls_inside_iff 0 [9] hinv.store
      threeBytes_fd huse threeBytes_history).2.mpr (fun _ _ _ => Or.inl (by decide))⟩
  intro b hstart _
  have hzero : startOf (threeBytes.fds 0 (1024 : Int).toNat) (fileChain threeBytes (0 : Nat)) 1 =
      some 0 := by decide +kernel
  obtain rfl : 0 = b := Option.some.inj (hzero.symm.trans hstart)
  exact ⟨by decide, Or.inl hle⟩

/-- A file of three bytes and an empty one, whose descriptor names bucket 0. -/
def besideThree : Sys := afterCalls [.open pathA 66 0, .write 1024 [1, 2, 3], .open pathB 66 0]

theorem besideThree_reached : Run defaultBuild KeepsOpenFiles initSys besideThree := by
  refine run_of_allReturn (by decide +kernel) (fun c hc s out hret => ?_)
  have hout := (Out.isRet_spec hret).1
  simp only [List.mem_cons, List.not_mem_nil, or_false] at hc
  rcases hc with rfl | rfl | rfl
  · exact ⟨fun happ => absurd happ (by decide), fun _ _ _ => id, hout⟩
  · exact ⟨trivial, fun _ _ _ => id, hout⟩
  · exact ⟨fun happ => absurd happ (by decide), fun _ _ _ => id, hout⟩

/-- A `pread` of four bytes at offset -1 through the descriptor of the empty file goes
to bucket 0. -/
theorem pread_minus_one_leaves_file :
    ¬ ∀ (s : Sys) (rows : Nat → List Int) (ch : Int → List Nat) (pid m : Nat) (fd offset : Int)
      (env : Env) (count : UInt64) (buf : List Byte), StoreWf (s.store rows ch) →
      UserFd (s.view pid) fd m → (s.table.mb m).inUse = true →
      SlotHistory (fileChain s m) (s.fds pid fd.toNat) →
      ReadsInside (s.view pid) (fileChain s m) env fd count offset ∧
        WritesInside (s.view pid) m (fileChain s m) env fd buf offset := by
  intro hall
  obtain ⟨rows, ch, hinv⟩ := run_sysWf besideThree_reached
  have hu : UserFd (besideThree.view 0) 1025 1 :=
    ⟨by decide, by decide, by decide +kernel, by decide +kernel, by decide +kernel⟩
  have huse : (besideThree.table.mb (1 : Nat)).inUse = true := by decide +kernel
  have hist : SlotHistory (fileChain besideThree (1 : Nat)) (besideThree.fds 0 (1025 : Int).toNat) :=
    .fresh (by decide +kernel) (by decide +kernel) (by decide +kernel)
  have hzero : startOf (besideThree.fds 0 (1025 : Int).toNat) (fileChain besideThree (1 : Nat)) (-1) =
      some 0 := by decide +kernel
  have hinside := (hall besideThree rows ch 0 1 1025 (-1) emptyDisk 4 [] hinv.store hu huse hist).1
  have hview : StoreWf ((besideThree.view 0).store rows ch) := hinv.store
  rw [hinv.store.toLinkWf.fileChain_eq huse] at hinside hist hzero
  rcases (readsInside_iff hview hu huse hist).mp hinside with hcount | hstays
  · exact absurd hcount (by decide)
  · exact absurd (hstays 0 hzero (by decide)).1 (by decide)

end Spacefish
