import Spacefish.Layout

/-!
Uploading a file and writing it back. `write_to_disk` copies the whole buckets
of a file one behind the other and then the tail of the file to the start of the
buffer, so that the round trip returns the data only when there is no tail or
nothing before it.
-/

namespace Spacefish

open LinkedArray Program Buffer

/-- The number of bytes of a file that lie in whole buckets. -/
def wholeBytes (n : Nat) : Nat := n / dbucketBufSize * dbucketBufSize

/-- What `write_to_disk` hands to `real_write` for a file that holds `c`, when the
heap buffer held `junk`. -/
def flushed (junk : Nat → Byte) (c : List Byte) : List Byte :=
  slice (memcpy (memcpy junk 0 (c.take (wholeBytes c.length))) 0 (c.drop (wholeBytes c.length))) 0
    c.length

/-- Writing the file `m` back hands over `data`, whatever the heap holds. -/
def FlushesTo (w : World) (m : Int) (data : List Byte) : Prop :=
  ∀ env, ∃ w', writeToDisk env m w = .ok data w'

variable {w w' : World} {rows : Nat → List Int} {ch : Int → List Nat} {env : Env} {p : Path}
  {m : Int} {d : DataShm} {i k : Nat} {l l₁ l₂ : List Nat} {buf : Nat → Byte} {c data : List Byte}

theorem bucketData_full (hfull : (d.bucket i).bytes = dbucketBufSize) :
    slice (d.bucket i).buf 0 dbucketBufSize = bucketData d i := by
  rw [bucketData, hfull]

theorem writeToDiskRounds_eq (k : Nat) (buf : Nat → Byte) (hsteps : d.dbucketSteps = totalStepsAllowed)
    (hl : Linked d.next noIx i (l₁ ++ l₂)) (hown : ∀ b ∈ l₁, d.Owned b)
    (hfull : ∀ b ∈ l₁, (d.bucket b).bytes = dbucketBufSize) :
    writeToDiskRounds l₁.length k buf i d =
      .ok (memcpy buf (k * dbucketBufSize) (content d l₁), l₂.head?.getD noIx) d := by
  induction l₁ generalizing i k buf with
  | nil =>
      have hi : i = l₂.head?.getD noIx := hl.head_eq
      rw [List.length_nil, writeToDiskRounds, run_pure, content_nil, memcpy_nil, hi]
  | cons b l ih =>
      obtain ⟨rfl, _, htail⟩ := hl
      have hdata := bucketData_full (hfull i (by simp))
      have hlen : (bucketData d i).length = dbucketBufSize := by
        rw [bucketData_length]
        exact hfull i (by simp)
      rw [List.length_cons, writeToDiskRounds,
        bind_of_ok (getDbucketPtr_eq hsteps (hown i (by simp)).1), hdata]
      have hrest := ih (k + 1) (memcpy buf (k * dbucketBufSize) (bucketData d i)) htail
        (fun c hc => hown c (by simp [hc])) (fun c hc => hfull c (by simp [hc]))
      rw [show (d.bucket i).nextIx = d.next i from rfl, hrest, content_cons, ← memcpy_append, hlen,
        Nat.succ_mul]

/-- Writing back a file whose chain is dense. -/
theorem writeToDisk_eq (hsteps : w.data.dbucketSteps = totalStepsAllowed)
    (hl : Linked w.data.next noIx (w.table.mb m).firstDbucket l)
    (hown : ∀ b ∈ l, w.data.Owned b) (hdense : Dense w.data l)
    (hle : ∀ b, (w.data.bucket b).bytes ≤ dbucketBufSize)
    (hsize : (w.table.mb m).s.stSize = total w.data l) (hlt : total w.data l < 2 ^ 32) :
    writeToDisk env m w = .ok (flushed env.junk (content w.data l)) w := by
  obtain ⟨l₁, l₂, rfl, hfull, htail, hhead⟩ := hdense.split hle
  have htot : total w.data (l₁ ++ l₂) = l₁.length * dbucketBufSize + total w.data l₂ := by
    rw [total_append, total_of_full hfull]
  have hdiv : total w.data (l₁ ++ l₂) / dbucketBufSize = l₁.length := by
    rw [htot, Nat.mul_comm, Nat.mul_add_div dbucketBufSize_pos, Nat.div_eq_of_lt htail,
      Nat.add_zero]
  have hmod : total w.data (l₁ ++ l₂) % dbucketBufSize = total w.data l₂ := by
    rw [htot, Nat.mul_comm, Nat.mul_add_mod, Nat.mod_eq_of_lt htail]
  have hwhole : wholeBytes (content w.data (l₁ ++ l₂)).length = (content w.data l₁).length := by
    rw [wholeBytes, content_length, hdiv, content_length, total_of_full hfull]
  have hrounds : (toInt (l₁.length : Nat)).toNat = l₁.length := by
    rw [toInt_eq]
    · exact Int.toNat_natCast _
    · have hdvd := Nat.div_le_self (total w.data (l₁ ++ l₂)) dbucketBufSize
      rw [← hdiv]
      unfold dbucketBufSize
      omega
  have hwalk := writeToDiskRounds_eq 0 env.junk hsteps hl
    (fun b hb => hown b (List.mem_append_left _ hb)) hfull
  rw [writeToDisk, run_get_bind]
  dsimp only
  rw [hsize, hdiv, hmod, hrounds, bind_of_ok (onData_of_ok hwalk)]
  rw [flushed, hwhole, content_append, List.take_left, List.drop_left, ← content_append,
    content_length, Nat.zero_mul]
  rw [run_ite]
  by_cases hoff : total w.data l₂ > 0
  · rw [if_pos hoff]
    cases l₂ with
    | nil => exact absurd hoff (by simp)
    | cons b l =>
        have hb : content w.data (b :: l) = bucketData w.data b := hhead b (by simp)
        have hlen : total w.data (b :: l) = (w.data.bucket b).bytes := by
          rw [← content_length, hb, bucketData_length]
        have hptr := getDbucketPtr_eq hsteps (hown b (by simp)).1
        rw [List.head?_cons, Option.getD_some, bind_of_ok (onData_of_ok hptr), run_pure, hlen, hb,
          bucketData]
  · have hnil : content w.data l₂ = [] := by
      rw [← List.length_eq_zero_iff, content_length]
      omega
    rw [if_neg hoff, run_pure, hnil, memcpy_nil]

/-- What is handed over is the content exactly when the content fills no bucket,
or fills all its buckets. -/
theorem flushed_eq_iff : (∀ junk, flushed junk c = c) ↔
    c.length < dbucketBufSize ∨ dbucketBufSize ∣ c.length := by
  constructor
  · intro h
    by_contra hno
    rw [not_or, Nat.not_lt] at hno
    obtain ⟨hge, hdvd⟩ := hno
    have hmod : 0 < c.length % dbucketBufSize := Nat.emod_pos_of_not_dvd hdvd
    have hsum := Nat.div_add_mod' c.length dbucketBufSize
    have hdiv : 1 ≤ c.length / dbucketBufSize := (Nat.one_le_div_iff dbucketBufSize_pos).mpr hge
    have hwhole : dbucketBufSize ≤ wholeBytes c.length := Nat.le_mul_of_pos_left _ hdiv
    have hrem : wholeBytes c.length + c.length % dbucketBufSize = c.length := hsum
    have hsmall := Nat.mod_lt c.length dbucketBufSize_pos
    have hpos : wholeBytes c.length < c.length := by omega
    -- the first byte of the tail is never stored, so it is whatever the heap held
    have hbyte : ∀ junk, (flushed junk c)[wholeBytes c.length]? =
        some (junk (wholeBytes c.length)) := by
      intro junk
      rw [flushed, slice_getElem?, if_pos hpos, Nat.zero_add, memcpy_of_le, memcpy_of_le]
      · simp
      · simp only [List.length_drop]
        omega
    obtain ⟨v, hv⟩ : ∃ v, (c)[wholeBytes c.length]? = some v :=
      ⟨_, List.getElem?_eq_getElem hpos⟩
    have hbad := hbyte (fun _ => if v = 0 then 1 else 0)
    rw [h, hv] at hbad
    have hv' := Option.some.inj hbad
    split at hv'
    next hzero =>
      rw [hzero] at hv'
      exact absurd hv' (by decide)
    next hzero => exact hzero hv'
  · rintro (hlt | ⟨k, hk⟩) junk
    · have hwhole : wholeBytes c.length = 0 := by
        rw [wholeBytes, Nat.div_eq_of_lt hlt, Nat.zero_mul]
      rw [flushed, hwhole, List.take_zero, memcpy_nil, List.drop_zero, slice_memcpy_zero]
    · have hwhole : wholeBytes c.length = c.length := by
        rw [wholeBytes, hk, Nat.mul_div_cancel_left k dbucketBufSize_pos, Nat.mul_comm]
      rw [flushed, hwhole, List.take_length, List.drop_length, memcpy_nil, slice_memcpy_zero]

/-- The file that an upload has just made, and its chain. -/
theorem Filled.chain {h ix : Nat} {new : List Nat} {out : WriteOut}
    (wf : StoreWf (w.store rows ch)) (hf : Filled w rows p data h m ix new (some out) w') :
    Linked w'.data.next noIx (w'.table.mb m).firstDbucket (ix :: new) ∧
      (∀ b ∈ ix :: new, w'.data.Owned b) ∧ Dense w'.data (ix :: new) := by
  have wf' := hf.storeWf wf
  have huse : (w'.table.mb m).inUse = true := (hf.core_eq wf).2.1
  have hlinked := wf'.linked m huse
  have hown := wf'.owned m huse
  simp only [Function.update_self] at hlinked hown
  refine ⟨hlinked, hown, ?_⟩
  have hown₀ : ∀ c ∈ [ix], (w.data.take ix).Owned c := by
    intro c hc
    obtain rfl : c = ix := by simpa using hc
    exact ⟨hf.bound, by simp [DataShm.take]⟩
  exact hf.copy.dense (wf.data.take hf.bound hf.free) (List.nodup_singleton ix) hown₀
    (List.pairwise_singleton _ _)

theorem upload_flushes (wf : StoreWf (w.store rows ch)) (hdisk : diskContent env p = some data)
    (hup : uploadFile defaultBuild env p w = .ok (.ok m) w') (env' : Env) :
    writeToDisk env' m w' = .ok (flushed env'.junk data) w' := by
  have hends : Ends (uploadFile defaultBuild env p w) _ _ := uploadFile_ends rfl wf p
  rw [hup, ends_ok] at hends
  rcases hends with ⟨e, he, _⟩ | ⟨_, ⟨e, he⟩, _⟩ | ⟨buf, h, a, ix, new, out, hbuf, ha, hf⟩
  · cases he
  · cases he
  obtain rfl : m = a := Except.ok.inj ha
  obtain rfl : data = buf := Option.some.inj (hdisk.symm.trans hbuf)
  have wf' := hf.storeWf wf
  obtain ⟨hlinked, hown, hdense⟩ := hf.chain wf
  have hcontent := hf.content_eq wf.data
  have huse : (w'.table.mb m).inUse = true := (hf.core_eq wf).2.1
  have hsize : (w'.table.mb m).s.stSize = total w'.data (ix :: new) := by
    rw [← content_length, hcontent]
    exact (hf.core_eq wf).2.2.2.2.2
  have hlt : total w'.data (ix :: new) < 2 ^ 32 := by
    have := wf'.total_lt huse
    simpa only [Function.update_self] using this
  rw [← hcontent]
  exact writeToDisk_eq wf'.links.steps hlinked hown hdense wf'.bytes_le hsize hlt

/-- After an upload of `data`, writing the file back returns `data` exactly when
`data` is shorter than a bucket or fills its buckets to the last byte. -/
theorem upload_flush_iff (wf : StoreWf (w.store rows ch)) (hdisk : diskContent env p = some data)
    (hup : uploadFile defaultBuild env p w = .ok (.ok m) w') :
    FlushesTo w' m data ↔ data.length < dbucketBufSize ∨ dbucketBufSize ∣ data.length := by
  rw [← flushed_eq_iff]
  constructor
  · intro hall junk
    obtain ⟨w'', hw⟩ := hall { env with junk := junk }
    rw [upload_flushes wf hdisk hup] at hw
    injection hw
  · intro hall env'
    exact ⟨w', by rw [upload_flushes wf hdisk hup, hall]⟩

/-- A disk on which every path names a file that holds `data`. -/
def diskOf (data : List Byte) (hlen : data.length ≤ maxRwCount) : Env :=
  { emptyDisk with
    realStat := fun _ => .ok ⟨0, data.length, 0, 0, zeroTime, zeroTime, zeroTime⟩
    realOpen := fun _ _ => 3
    realRead := fun _ _ => (data.length, data)
    realRead_le := fun _ _ => Int.ofNat_le.mpr hlen
    realRead_length := fun _ _ => rfl }

theorem diskOf_content (hlen : data.length ≤ maxRwCount) :
    diskContent (diskOf data hlen) p = some data := by
  simp [diskContent, diskOf]

/-- An upload into the empty store returns a meta bucket. -/
def uploads (data : List Byte) (hlen : data.length ≤ maxRwCount) : Bool :=
  match uploadFile defaultBuild (diskOf data hlen) pathA (initSys.view 0) with
  | .ok (.ok _) _ => true
  | _ => false

theorem uploads_spec (hlen : data.length ≤ maxRwCount) (hup : uploads data hlen = true) :
    ∃ m w', uploadFile defaultBuild (diskOf data hlen) pathA (initSys.view 0) = .ok (.ok m) w' := by
  unfold uploads at hup
  split at hup
  next m w' hrun => exact ⟨m, w', hrun⟩
  next => cases hup

theorem initView_wf : StoreWf ((initSys.view 0).store (fun _ => []) (fun _ => [])) :=
  initSys_wf.store

theorem upload_flush_small : ∃ m w',
    uploadFile defaultBuild (diskOf [1, 2, 3] (by decide)) pathA (initSys.view 0) =
      .ok (.ok m) w' ∧ FlushesTo w' m [1, 2, 3] := by
  obtain ⟨m, w', hup⟩ := uploads_spec (show ([1, 2, 3] : List Byte).length ≤ maxRwCount by decide)
    (by decide +kernel)
  exact ⟨m, w', hup, (upload_flush_iff initView_wf (diskOf_content _) hup).mpr
    (Or.inl (by decide))⟩

/-- A file of one whole bucket and one more byte. -/
def bucketAndByte : List Byte := List.replicate dbucketBufSize 0 ++ [1]

theorem bucketAndByte_le : bucketAndByte.length ≤ maxRwCount := by
  rw [bucketAndByte, List.length_append, List.length_replicate]
  decide

/-- The last byte of such a file is written over its first one. -/
theorem upload_flush_tail : ∃ m w' out,
    uploadFile defaultBuild (diskOf bucketAndByte bucketAndByte_le) pathA (initSys.view 0) =
      .ok (.ok m) w' ∧ writeToDisk emptyDisk m w' = .ok out w' ∧ out ≠ bucketAndByte := by
  obtain ⟨m, w', hup⟩ := uploads_spec bucketAndByte_le (by decide +kernel)
  refine ⟨m, w', _, hup, upload_flushes initView_wf (diskOf_content _) hup emptyDisk, ?_⟩
  intro heq
  have hhead := congrArg (·[0]?) heq
  exact absurd hhead (by decide +kernel)

end Spacefish
