import Spacefish.FileCalls

/-!
`pread` and `pwrite`: the translation of an offset to a bucket, with the cache
of the descriptor in front of the walk, and the two calls behind it.
-/

namespace Spacefish

open LinkedArray Program Buffer

variable {w : World} {rows : Nat → List Int} {ch : Int → List Nat} {env : Env} {fd offset : Int}
  {m b off : Nat} {pre l : List Nat} {buf : List Byte} {bld : Build}

/-- What `locate` leaves: at most the cache of the descriptor is filled with the
bucket it found. -/
def Located (w : World) (fd : Int) (l : List Nat) (offset : Int) (w' : World) : Prop :=
  w' = w ∨ ∃ ix, placeOf l offset = some ix ∧ w' = w.setFd fd.toNat (cacheFill offset ix)

/-- With a cache that agrees with the chain, `locate` finds the bucket that the
walk from the first one leads to. -/
theorem locate_eq (wf : LinkWf (w.store rows ch)) (hu : UserFd w fd m)
    (huse : (w.table.mb m).inUse = true) (hcache : CacheOk (w.fdTable fd.toNat) (ch m))
    (hoff : 0 ≤ offset) :
    ∃ w', locate bld fd (w.fdTable fd.toNat) (w.table.mb m).firstDbucket offset w =
        .ok (placeOf (ch m) offset) w' ∧ Located w fd (ch m) offset w' := by
  have hlinked : Linked w.data.next noIx (w.table.mb m).firstDbucket (ch m) := wf.linked m huse
  have hown : ∀ b ∈ ch m, w.data.Owned b := wf.owned m huse
  have hwalk := walkLoop_eq (n := hops offset) wf.links.steps hlinked hown
  have hrun : onData (walkLoop (hops offset) (w.table.mb m).firstDbucket) w =
      .ok (placeOf (ch m) offset) w := onData_of_ok hwalk
  unfold locate
  by_cases hhit : (if bld.offsetProcessCache = true then
      cacheLookup (w.fdTable fd.toNat) offset else noIx) = noIx
  · rw [run_ite, if_neg (by simpa using hhit)]
    change ∃ w', (onData (walkLoop (hops offset) (w.table.mb m).firstDbucket) >>= _) w = _ ∧ _
    rw [bind_of_ok hrun]
    cases hplace : placeOf (ch m) offset with
    | none => exact ⟨w, rfl, Or.inl rfl⟩
    | some ix =>
        cases hcfg : bld.offsetProcessCache with
        | false => exact ⟨w, rfl, Or.inl rfl⟩
        | true =>
            refine ⟨w.setFd fd.toNat (cacheFill offset ix), ?_, Or.inr ⟨ix, hplace, rfl⟩⟩
            change (setFddes fd (cacheFill offset ix) >>= _) w = _
            rw [setFddes_eq hu.pos hu.lt]
            rfl
  · rw [run_ite, if_pos hhit]
    have hcfg : bld.offsetProcessCache = true := by
      by_contra hno
      exact hhit (if_neg hno)
    rw [if_pos hcfg] at hhit ⊢
    rw [placeOf_of_getElem (hcache.lookup hoff hhit)]
    exact ⟨w, rfl, Or.inl rfl⟩

theorem Located.spec {l : List Nat} {w' : World} (hl : Located w fd l offset w') :
    w'.table = w.table ∧ w'.data = w.data ∧ FdNext l fd.toNat w.fdTable w'.fdTable := by
  rcases hl with rfl | ⟨ix, hplace, rfl⟩
  · exact ⟨rfl, rfl, .refl _ _ _⟩
  · exact ⟨rfl, rfl, .fill hplace⟩

/-- The position in its bucket of an offset that is not negative. -/
def within (offset : Int) : Nat := (offset % dbucketBufSize).toNat

theorem toSize_tmod (hoff : 0 ≤ offset) : toSize (offset.tmod dbucketBufSize) = within offset := by
  rw [Int.tmod_eq_emod_of_nonneg hoff]
  unfold within toSize dbucketBufSize
  omega

theorem within_lt (offset : Int) : within offset < dbucketBufSize := by
  unfold within dbucketBufSize
  omega

/-! `pread` -/

/-- What `pread` returns from a chain: nothing behind its last bucket, the
content from the offset on, or, when the offset lies behind the bytes of its
bucket, whatever the buffer holds there. -/
inductive PreadData (d : DataShm) (l : List Nat) (offset : Int) (count : Nat) :
    List Byte → Prop where
  | short (hlen : l.length ≤ hops offset) : PreadData d l offset count []
  | inside {pre b l'} (hsplit : l = pre ++ b :: l') (hlen : pre.length = hops offset)
      (hoff : within offset ≤ (d.bucket b).bytes) :
      PreadData d l offset count (((content d (b :: l')).drop (within offset)).take count)
  | past {pre b l' data} (hsplit : l = pre ++ b :: l') (hlen : pre.length = hops offset)
      (hoff : (d.bucket b).bytes < within offset) (hcount : data.length = count)
      (hdata : within offset + count ≤ dbucketBufSize →
        data = slice (d.bucket b).buf (within offset) count) :
      PreadData d l offset count data

/-- The loop of `pread` behind the end of the data: `bytes - off` wraps around
and the whole request is taken from one bucket. -/
theorem preadLoop_past {d : DataShm} {fuel c : Nat} (hd : DataWf d) (hb : d.Owned b)
    (hoff : (d.bucket b).bytes < off) (hlt : off < dbucketBufSize) (hf : 0 < fuel) :
    Ends (preadLoop env fuel b off c d)
      (fun data d' => d' = d ∧ data.length = c ∧
        (off + c ≤ dbucketBufSize → data = slice (d.bucket b).buf off c))
      (fun e d' => e = .undefined ∧ d' = d ∧ 2 ^ 63 ≤ c) := by
  obtain ⟨fuel, rfl⟩ : ∃ k, fuel = k + 1 := ⟨fuel - 1, by omega⟩
  have hsize : dbucketBufSize = 4096 := rfl
  have hsub : usub (d.bucket b).bytes off = 2 ^ 64 + (d.bucket b).bytes - off := by
    unfold usub
    omega
  unfold preadLoop
  rw [run_ite, if_neg hb.ne_noIx, bind_of_ok (getDbucketPtr_eq hd.steps hb.1), hsub, run_ite]
  by_cases hfit : c ≤ 2 ^ 64 + (d.bucket b).bytes - off
  · rw [if_pos hfit, copyOut]
    by_cases hlen : c < 2 ^ 63
    · rw [if_pos hlen]
      refine ⟨rfl, by simp, fun hin => ?_⟩
      have hcopy : (copyOut env b (d.bucket b) off c : Op DataShm (List Byte)) d =
          .ok (slice (d.bucket b).buf off c) d := copyOut_eq hin
      rw [copyOut, if_pos hlen, run_pure] at hcopy
      injection hcopy
    · rw [if_neg hlen]
      exact ⟨rfl, rfl, by omega⟩
  · have hbig : ¬ 2 ^ 64 + (d.bucket b).bytes - off < 2 ^ 63 := by omega
    rw [if_neg hfit, copyOut, if_neg hbig]
    exact ⟨rfl, rfl, by omega⟩

theorem sysPread_ends {count : UInt64} (wf : StoreWf (w.store rows ch)) (hu : UserFd w fd m)
    (huse : (w.table.mb m).inUse = true) (hcache : CacheOk (w.fdTable fd.toNat) (ch m))
    (hoff : 0 ≤ offset) :
    Ends (sysPread bld env fd count offset w)
      (fun r w' => w'.table = w.table ∧ w'.data = w.data ∧
        FdNext (ch m) fd.toNat w.fdTable w'.fdTable ∧
        r = { ret := r.data.length, err := .ok, data := r.data } ∧
        PreadData w.data (ch m) offset count.toNat r.data)
      (fun e w' => e = .undefined ∧ w'.table = w.table ∧ w'.data = w.data ∧
        ∃ pre b l', ch m = pre ++ b :: l' ∧ pre.length = hops offset ∧
          (w.data.bucket b).bytes < within offset ∧ 2 ^ 63 ≤ count.toNat) := by
  have hd : DataWf w.data := wf.data
  obtain ⟨w₁, hloc, hlocated⟩ := locate_eq wf.toLinkWf hu huse hcache hoff
  obtain ⟨htab, hdata, hfds⟩ := hlocated.spec
  have hfuel : totBuckets < readFuel count.toNat := by
    unfold readFuel
    have : totBuckets + 1 ≤ (count.toNat + 1) * (totBuckets + 1) :=
      Nat.le_mul_of_pos_left _ (Nat.succ_pos _)
    omega
  rw [sysPread, fddes_eq hu, hu.exclusive, hu.nonempty]
  simp only [Bool.false_eq_true, if_false]
  rw [run_get_bind, hu.mindex, bind_of_ok hloc]
  cases hplace : placeOf (ch m) offset with
  | none =>
      have hlen : (ch m).length ≤ hops offset := by
        unfold placeOf at hplace
        split at hplace
        · cases hplace
        · omega
      exact ⟨htab, hdata, hfds, rfl, .short hlen⟩
  | some ix =>
      change Ends ((onData _ >>= _) w₁) _ _
      rw [toSize_tmod hoff]
      have hdone : ∀ data : List Byte, PreadData w.data (ch m) offset count.toNat data →
          Ends ((do
            if data.length > 0 then
              setFddes fd (deferStamp env stAcs)
            return ({ ret := data.length, err := .ok, data := data } : Ret) : Op World Ret) w₁)
          (fun r w' => w'.table = w.table ∧ w'.data = w.data ∧
            FdNext (ch m) fd.toNat w.fdTable w'.fdTable ∧
            r = { ret := r.data.length, err := .ok, data := r.data } ∧
            PreadData w.data (ch m) offset count.toNat r.data)
          (fun e w' => e = .undefined ∧ w'.table = w.table ∧ w'.data = w.data ∧
            ∃ pre b l', ch m = pre ++ b :: l' ∧ pre.length = hops offset ∧
              (w.data.bucket b).bytes < within offset ∧ 2 ^ 63 ≤ count.toNat) := by
        intro data hpd
        rw [run_ite]
        split
        · rw [setFddes_eq hu.pos hu.lt]
          exact ⟨htab, hdata, hfds.stamp, rfl, hpd⟩
        · exact ⟨htab, hdata, hfds, rfl, hpd⟩
      rw [ends_bind, onData, ends_zoom, hdata]
      have hback : ({ w₁ with data := w.data } : World) = w₁ := by rw [← hdata]
      rcases placeOf_some hplace with ⟨hlen, rfl⟩ | ⟨pre, l', hsplit, hlen⟩
      · obtain ⟨k, hk⟩ : ∃ k, readFuel count.toNat = k + 1 :=
          ⟨readFuel count.toNat - 1, by omega⟩
        rw [hk, preadLoop, run_ite, if_pos rfl, run_pure, ends_ok, hback]
        exact hdone [] (.short (Nat.le_of_eq hlen.symm))
      · obtain ⟨hlinked, hown, hmax⟩ := wf.suffix huse hsplit
        by_cases hin : within offset ≤ (w.data.bucket ix).bytes
        · rw [preadLoop_eq hd hlinked hown (by simpa using hin) count.toNat_lt (by omega),
            ends_ok, hback]
          exact hdone _ (.inside hsplit hlen hin)
        · refine (preadLoop_past hd (hown ix (by simp)) (by omega) (within_lt offset)
            (by omega)).mono ?_ ?_
          · rintro data d' ⟨rfl, hcount, hslice⟩
            rw [hback]
            exact hdone data (.past hsplit hlen (by omega) hcount hslice)
          · rintro e d' ⟨rfl, rfl, hcount⟩
            exact ⟨rfl, htab, rfl, pre, ix, l', hsplit, hlen, by omega, hcount⟩

/-! `pwrite` -/

/-- `pwrite` from the bucket on that the walk to its offset leads to. -/
theorem sysPwrite_located {w₁ : World} (hbld : bld.getFreeDbucketIx = bucketIxAllocAllRandom)
    (wf : LinkWf (w.store rows ch)) (hu : UserFd w fd m) (huse : (w.table.mb m).inUse = true)
    (hloc : locate bld fd (w.fdTable fd.toNat) (w.table.mb m).firstDbucket offset w =
      .ok (placeOf (ch m) offset) w₁)
    (hlocated : Located w fd (ch m) offset w₁)
    (hoff : toSize (offset.tmod dbucketBufSize) = within offset) :
    Ends (sysPwrite bld env fd buf offset w)
      (fun r w' =>
        ((ch m).length ≤ hops offset ∧ r = { ret := 0, err := .ok } ∧ w'.data = w.data ∧
          Edited w.table w'.table m id ∧ FdNext (ch m) fd.toNat w.fdTable w'.fdTable) ∨
        ∃ pre b l out new, ch m = pre ++ b :: l ∧ pre.length = hops offset ∧
          r = { ret := buf.length, err := .ok } ∧
          WroteFile w w' fd m (ch m) (b :: l) (within offset) buf false out new)
      (fun e w' => e = .exit .dataBucketOverUse ∧ w'.table = w.table ∧
        ∃ pre b l new, ch m = pre ++ b :: l ∧ pre.length = hops offset ∧
          Copy w.data (b :: l) (within offset) buf w'.data none new) := by
  obtain ⟨htab, hdata, hfds⟩ := hlocated.spec
  rw [sysPwrite, fddes_eq hu, hu.exclusive, hu.nonempty]
  simp only [Bool.false_eq_true, if_false]
  rw [run_get_bind, hu.mindex, bind_of_ok hloc]
  cases hplace : placeOf (ch m) offset with
  | none =>
      have hlen : (ch m).length ≤ hops offset := by
        unfold placeOf at hplace
        split at hplace
        · cases hplace
        · omega
      exact Or.inl ⟨hlen, rfl, hdata, htab ▸ .refl _ _, hfds⟩
  | some ix =>
      change Ends ((onData _ >>= _) w₁) _ _
      rw [hoff, ends_bind, onData, ends_zoom, hdata]
      rcases placeOf_some hplace with ⟨hlen, rfl⟩ | ⟨pre, l, hsplit, hlen⟩
      · rw [writeFuel, writeLoop, run_ite, if_pos ⟨rfl, rfl⟩, run_pure, ends_ok, run_ite,
          if_neg (by simp), run_setMb]
        refine Or.inl ⟨Nat.le_of_eq hlen.symm, rfl, rfl, ?_, hfds⟩
        dsimp only
        rw [htab]
        exact Edited.setMb rfl
      · obtain ⟨hlinked, hown, _⟩ := wf.suffix huse hsplit
        refine (writeLoop_ends
          _ _ _ hbld wf.links hlinked hown (Nat.le_of_lt (within_lt offset))
          (Or.inl (Nat.le_refl _))).mono ?_ ?_
        · rintro out d' ⟨new, hcopy⟩
          have hn := hcopy.n_eq rfl
          rw [run_ite]
          by_cases hpos : out.n > 0
          · rw [if_pos hpos, setFddes_eq hu.pos hu.lt, mbModify, run_setMb, run_setMb]
            refine Or.inr ⟨pre, ix, l, out, new, hsplit, hlen, by rw [hn], hcopy, ?_, hfds.stamp⟩
            dsimp only [World.setFd]
            rw [setMb_setMb, htab]
            refine Edited.setMb ?_
            simp [MetaBucket.core, wroteCore, growStat_size]
          · rw [if_neg hpos, run_setMb]
            refine Or.inr ⟨pre, ix, l, out, new, hsplit, hlen, by rw [hn], hcopy, ?_, hfds⟩
            dsimp only
            rw [htab]
            refine Edited.setMb ?_
            simp [MetaBucket.core, wroteCore, growStat_size]
        · rintro e d' ⟨he, new, hcopy⟩
          exact ⟨he, htab, pre, ix, l, new, hsplit, hlen, hcopy⟩

theorem sysPwrite_ends (hbld : bld.getFreeDbucketIx = bucketIxAllocAllRandom)
    (wf : LinkWf (w.store rows ch)) (hu : UserFd w fd m)
    (huse : (w.table.mb m).inUse = true) (hcache : CacheOk (w.fdTable fd.toNat) (ch m))
    (hoff : 0 ≤ offset) :
    Ends (sysPwrite bld env fd buf offset w)
      (fun r w' =>
        ((ch m).length ≤ hops offset ∧ r = { ret := 0, err := .ok } ∧ w'.data = w.data ∧
          Edited w.table w'.table m id ∧ FdNext (ch m) fd.toNat w.fdTable w'.fdTable) ∨
        ∃ pre b l out new, ch m = pre ++ b :: l ∧ pre.length = hops offset ∧
          r = { ret := buf.length, err := .ok } ∧
          WroteFile w w' fd m (ch m) (b :: l) (within offset) buf false out new)
      (fun e w' => e = .exit .dataBucketOverUse ∧ w'.table = w.table ∧
        ∃ pre b l new, ch m = pre ++ b :: l ∧ pre.length = hops offset ∧
          Copy w.data (b :: l) (within offset) buf w'.data none new) := by
  obtain ⟨w₁, hloc, hlocated⟩ := locate_eq wf hu huse hcache hoff
  exact sysPwrite_located hbld wf hu huse hloc hlocated (toSize_tmod hoff)

end Spacefish
