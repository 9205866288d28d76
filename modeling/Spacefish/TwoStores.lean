import Spacefish.Trace
import Spacefish.Lib.TwoRuns

/-!
Two stores that a caller cannot tell apart: they have the same table, the same
links and the same byte counts, and their buffers agree below the byte counts.
The calls on a descriptor return the same in both as long as no `pread` or
`pwrite` starts behind the bytes of its bucket.
-/

namespace Spacefish

open LinkedArray Program Buffer

/-- The buckets differ at most in the part of their buffers that holds no data. -/
structure AlikeBucket (x y : DataBucket) : Prop where
  inUse : y.inUse = x.inUse
  nextIx : y.nextIx = x.nextIx
  lock : y.lock = x.lock
  bytes : y.bytes = x.bytes
  bytes_le : x.bytes ≤ dbucketBufSize
  buf : ∀ i < x.bytes, y.buf i = x.buf i

structure Alike (d₁ d₂ : DataShm) : Prop where
  steps : d₂.dbucketSteps = d₁.dbucketSteps
  counter : d₂.dbucketsInUse = d₁.dbucketsInUse
  bucket : ∀ b, AlikeBucket (d₁.bucket b) (d₂.bucket b)

structure AlikeWorld (w₁ w₂ : World) : Prop where
  table : w₂.table = w₁.table
  data : Alike w₁.data w₂.data
  fds : w₂.fdTable = w₁.fdTable

structure AlikeSys (s₁ s₂ : Sys) : Prop where
  table : s₂.table = s₁.table
  data : Alike s₁.data s₂.data
  fds : s₂.fds = s₁.fds

variable {d d₁ d₂ : DataShm} {env : Env} {b off c : Nat} {buf chunk : List Byte}
  {w w₁ w₂ : World} {fd : Int}

theorem run_getDbucketPtr {β : Type} (k : DataBucket → Op DataShm β) (b : Nat) (d : DataShm) :
    (getDbucketPtr b >>= k) d = if b / dataBucketsStep ≥ d.dbucketSteps then
      .error (.exit .stepNotYetCreated) d else k (d.bucket b) d := by
  by_cases hb : b / dataBucketsStep ≥ d.dbucketSteps
  · rw [getDbucketPtr, bind_assoc, run_get_bind, if_pos hb, if_pos hb]
    rfl
  · rw [getDbucketPtr, bind_assoc, run_get_bind, if_neg hb, if_neg hb]
    rfl

/-! The loops. -/

/-- A loop that begins at `off` in bucket `b` begins no later than the data of
the bucket ends; an index outside the store ends the process first. -/
def StartsInside (d : DataShm) (b off : Nat) : Prop :=
  b / dataBucketsStep < d.dbucketSteps → off ≤ (d.bucket b).bytes

theorem Alike.copyOut_eq (h : Alike d₁ d₂) (env : Env) (b off c : Nat)
    (hin : off + c ≤ (d₁.bucket b).bytes) :
    ∃ data, (copyOut env b (d₁.bucket b) off c : Op DataShm _) d₁ = .ok data d₁ ∧
      (copyOut env b (d₂.bucket b) off c : Op DataShm _) d₂ = .ok data d₂ := by
  have hle := (h.bucket b).bytes_le
  have hsize : dbucketBufSize = 4096 := rfl
  have hlen : c < 2 ^ 63 := by omega
  refine ⟨_, by rw [copyOut, if_pos hlen]; rfl, ?_⟩
  rw [copyOut, if_pos hlen, run_pure]
  congr 1
  refine List.map_congr_left (fun i hi => ?_)
  have hlt : i < c := List.mem_range.mp hi
  have hadd : uadd off i = off + i := uadd_eq (by omega)
  rw [hadd, byteAt, byteAt, if_pos (by omega), if_pos (by omega), (h.bucket b).buf _ (by omega)]

theorem Alike.usub_eq (h : Alike d₁ d₂) (hoff : off ≤ (d₁.bucket b).bytes) :
    usub (d₁.bucket b).bytes off = (d₁.bucket b).bytes - off := by
  have hle := (h.bucket b).bytes_le
  have hsize : dbucketBufSize = 4096 := rfl
  exact Spacefish.usub_eq (by omega) hoff

theorem readLoop_matches {fuel : Nat} (h : Alike d₁ d₂)
    (hoff : StartsInside d₁ b off) :
    Matches Alike (readLoop env fuel b off c d₁) (readLoop env fuel b off c d₂) := by
  induction fuel generalizing b off c with
  | zero => exact .throw _ h
  | succ fuel ih =>
      unfold readLoop
      rw [run_getDbucketPtr, run_getDbucketPtr, h.steps]
      by_cases hb : b / dataBucketsStep ≥ d₁.dbucketSteps
      · rw [if_pos hb, if_pos hb]
        exact ⟨rfl, h⟩
      · rw [if_neg hb, if_neg hb, (h.bucket b).bytes, h.usub_eq (hoff (by omega))]
        have hoff' := hoff (by omega)
        refine .ite (fun hc => ?_) (fun hc => ?_)
        · obtain ⟨data, h₁, h₂⟩ := h.copyOut_eq env b off c (by omega)
          rw [bind_of_ok h₁, bind_of_ok h₂]
          exact .pure _ h
        · obtain ⟨data, h₁, h₂⟩ := h.copyOut_eq env b off ((d₁.bucket b).bytes - off)
            (by omega)
          rw [bind_of_ok h₁, bind_of_ok h₂]
          have hnext : (d₂.bucket b).nextIx = (d₁.bucket b).nextIx := (h.bucket b).nextIx
          rw [hnext]
          refine .ite (fun _ => ?_) (fun _ => .pure _ h)
          exact (ih (fun _ => Nat.zero_le _)).bind (fun r _ _ h => .pure _ h)

theorem preadLoop_matches {fuel : Nat} (h : Alike d₁ d₂)
    (hoff : c = 0 ∨ StartsInside d₁ b off) :
    Matches Alike (preadLoop env fuel b off c d₁) (preadLoop env fuel b off c d₂) := by
  induction fuel generalizing b off c with
  | zero => exact .throw _ h
  | succ fuel ih =>
      unfold preadLoop
      refine .ite (fun _ => .pure _ h) (fun hne => ?_)
      rw [run_getDbucketPtr, run_getDbucketPtr, h.steps, (h.bucket b).bytes]
      by_cases hb : b / dataBucketsStep ≥ d₁.dbucketSteps
      · rw [if_pos hb, if_pos hb]
        exact ⟨rfl, h⟩
      · rw [if_neg hb, if_neg hb]
        rcases hoff with rfl | hoff
        · rw [if_pos (Nat.zero_le _), if_pos (Nat.zero_le _)]
          exact .pure [] h
        · have hoff' := hoff (by omega)
          rw [h.usub_eq hoff']
          refine .ite (fun hc => ?_) (fun hc => ?_)
          · obtain ⟨data, h₁, h₂⟩ := h.copyOut_eq env b off c (by omega)
            rw [h₁, h₂]
            exact ⟨rfl, h⟩
          · obtain ⟨data, h₁, h₂⟩ := h.copyOut_eq env b off
              ((d₁.bucket b).bytes - off) (by omega)
            rw [bind_of_ok h₁, bind_of_ok h₂, show (d₂.bucket b).nextIx = (d₁.bucket b).nextIx
              from (h.bucket b).nextIx]
            exact (ih (Or.inr (fun _ => Nat.zero_le _))).bind
              (fun r _ _ h => .pure _ h)

theorem Alike.set {F G : DataBucket → DataBucket} (h : Alike d₁ d₂)
    (hself : AlikeBucket (F (d₁.bucket b)) (G (d₂.bucket b))) :
    Alike (d₁.set b F) (d₂.set b G) := by
  refine ⟨h.steps, h.counter, fun c => ?_⟩
  by_cases hc : c = b
  · subst hc
    simpa using hself
  · rw [set_bucket_of_ne _ hc, set_bucket_of_ne _ hc]
    exact h.bucket c

/-- A copy that starts inside the data of the bucket, or right behind it. -/
theorem AlikeBucket.put {x y : DataBucket} (h : AlikeBucket x y) (hoff : off ≤ x.bytes)
    (hfit : off + chunk.length ≤ dbucketBufSize) :
    AlikeBucket (x.put off chunk) (y.put off chunk) := by
  have hle := h.bytes_le
  refine ⟨h.inUse, h.nextIx, h.lock, ?_, ?_, ?_⟩
  · rw [put_bytes hfit, put_bytes hfit, h.bytes]
  · rw [put_bytes hfit]
    omega
  · intro i hi
    rw [put_bytes hfit] at hi
    change memcpy y.buf off chunk i = memcpy x.buf off chunk i
    unfold memcpy
    by_cases hin : i < x.bytes
    · rw [h.buf i hin]
    · have hget : i - off < chunk.length := by omega
      rw [if_pos (by omega), if_pos (by omega), List.getElem?_eq_getElem hget]
      rfl

theorem copyIn_matches (h : Alike d₁ d₂) (hoff : off ≤ (d₁.bucket b).bytes) :
    Matches Alike (copyIn b off chunk d₁) (copyIn b off chunk d₂) := by
  have hle := (h.bucket b).bytes_le
  refine .ite (fun hfit => .modify (h.set ((h.bucket b).put hoff ?_))) (fun _ => .throw _ h)
  rcases hfit with hnil | hfit
  · omega
  · exact hfit

theorem bucketIxAllocAllRandom_matches (h : Alike d₁ d₂) (rand : Nat) :
    Matches Alike (bucketIxAllocAllRandom rand d₁) (bucketIxAllocAllRandom rand d₂) := by
  have hfree : (fun ix => !(d₂.bucket ix).inUse && !(d₂.bucket ix).lock) =
      fun ix => !(d₁.bucket ix).inUse && !(d₁.bucket ix).lock := by
    funext ix
    rw [(h.bucket ix).inUse, (h.bucket ix).lock]
  unfold bucketIxAllocAllRandom
  rw [run_get_bind, run_get_bind, h.counter, hfree]
  refine .ite (fun _ => .throw _ h) (fun _ => ?_)
  cases CyclicScan.scan (fun ix => !(d₁.bucket ix).inUse && !(d₁.bucket ix).lock)
      (rand % totBuckets) totBuckets totBuckets 0 with
  | none => exact .throw _ h
  | some ix =>
      have hx := h.bucket ix
      exact (Matches.modify (h.set ⟨rfl, hx.nextIx, hx.lock, hx.bytes, hx.bytes_le, hx.buf⟩)).bind
        (fun _ _ _ h => .pure _ h)

theorem nextOrNew_matches (h : Alike d₁ d₂) (round next : Nat) :
    Matches Alike (writeLoop.nextOrNew defaultBuild env round b next d₁)
      (writeLoop.nextOrNew defaultBuild env round b next d₂) := by
  refine .ite (fun _ => ?_) (fun _ => .pure _ h)
  refine (bucketIxAllocAllRandom_matches h _).bind (fun ix e₁ e₂ h => ?_)
  have hb := h.bucket b
  exact (Matches.modify (h.set ⟨hb.inUse, rfl, hb.lock, hb.bytes, hb.bytes_le, hb.buf⟩)).bind
    (fun _ _ _ h => .pure _ h)

theorem writeLoop_matches {fuel : Nat} {guarded : Bool} (h : Alike d₁ d₂)
    (hoff : StartsInside d₁ b off) :
    Matches Alike (writeLoop defaultBuild env guarded fuel b off buf d₁)
      (writeLoop defaultBuild env guarded fuel b off buf d₂) := by
  induction fuel generalizing b off buf d₁ d₂ with
  | zero => exact .throw _ h
  | succ fuel ih =>
      unfold writeLoop
      refine .ite (fun _ => .pure _ h) (fun hne => ?_)
      have hgrown : ∀ chunk, (d₂.bucket b).grown off chunk = (d₁.bucket b).grown off chunk := by
        intro chunk
        rw [DataBucket.grown, DataBucket.grown, (h.bucket b).bytes]
      rw [run_getDbucketPtr, run_getDbucketPtr, h.steps, (h.bucket b).nextIx]
      by_cases hb : b / dataBucketsStep ≥ d₁.dbucketSteps
      · rw [if_pos hb, if_pos hb]
        exact ⟨rfl, h⟩
      · rw [if_neg hb, if_neg hb]
        have hoff' := hoff (by omega)
        refine .ite (fun _ => ?_) (fun _ => ?_)
        · rw [hgrown]
          exact (copyIn_matches h hoff').bind (fun _ _ _ h => .pure _ h)
        · rw [hgrown]
          refine (copyIn_matches h hoff').bind (fun _ _ _ h => ?_)
          refine (nextOrNew_matches h _ _).bind (fun ix _ _ h => ?_)
          exact (ih h (fun _ => Nat.zero_le _)).bind (fun _ _ _ h => .pure _ h)

theorem walkLoop_matches {n : Nat} (h : Alike d₁ d₂) :
    Matches Alike (walkLoop n b d₁) (walkLoop n b d₂) := by
  induction n generalizing b with
  | zero => exact .pure _ h
  | succ n ih =>
      unfold walkLoop
      refine .ite (fun _ => .pure _ h) (fun _ => ?_)
      rw [run_getDbucketPtr, run_getDbucketPtr, h.steps, (h.bucket b).nextIx]
      by_cases hb : b / dataBucketsStep ≥ d₁.dbucketSteps
      · rw [if_pos hb, if_pos hb]
        exact ⟨rfl, h⟩
      · rw [if_neg hb, if_neg hb]
        exact ih

/-! The calls on a descriptor. -/

theorem onData_matches {α : Type} {x : Op DataShm α} (h : AlikeWorld w₁ w₂)
    (hx : Matches Alike (x w₁.data) (x w₂.data)) :
    Matches AlikeWorld (onData x w₁) (onData x w₂) :=
  hx.zoom (fun _ _ hd => ⟨h.table, hd, h.fds⟩)

theorem setMb_matches (h : AlikeWorld w₁ w₂) (m : Int) (f : MetaBucket → MetaBucket) :
    Matches AlikeWorld (setMb m f w₁) (setMb m f w₂) :=
  ⟨rfl, by rw [h.table], h.data, h.fds⟩

theorem setFddes_matches (h : AlikeWorld w₁ w₂) (fd : Int) (f : FdInfo → FdInfo) :
    Matches AlikeWorld (setFddes fd f w₁) (setFddes fd f w₂) := by
  refine .ite (fun _ => .modify ⟨h.table, h.data, ?_⟩) (fun _ => .throw _ h)
  rw [World.setFd, World.setFd, h.fds]

/-- The shape of the calls on a descriptor. -/
theorem onFd_matches {R : World → World → Prop} {a b : Ret} {k₁ k₂ : FdInfo → Op World Ret}
    (h : R w₁ w₂) (hfds : w₂.fdTable = w₁.fdTable)
    (hk : ∀ m, UserFd w₁ fd m → Matches R (k₁ (w₁.fdTable fd.toNat) w₁)
      (k₂ (w₁.fdTable fd.toNat) w₂)) :
    Matches R
      ((fddes fd >>= fun f => if f.exclusive then pure a else if f.empty then pure b else k₁ f) w₁)
      ((fddes fd >>= fun f => if f.exclusive then pure a else if f.empty then pure b else k₂ f)
        w₂) := by
  rw [fddes, bind_assoc, bind_assoc, run_get_bind, run_get_bind]
  by_cases hin : 0 ≤ fd ∧ fd < maxNumFd
  · rw [if_pos hin, if_pos hin, run_pure_bind, run_pure_bind, hfds]
    refine .ite (fun _ => .pure _ h) (fun hexcl => .ite (fun _ => .pure _ h) (fun hempty => ?_))
    exact hk _ ⟨hin.1, hin.2, by simpa using hexcl, by simpa using hempty, rfl⟩
  · rw [if_neg hin, if_neg hin]
    exact .throw _ h

/-- The bucket at which a `pread` or `pwrite` through `fd` begins. -/
def target (w : World) (fd offset : Int) : Option Nat :=
  match locate defaultBuild fd (w.fdTable fd.toNat)
      (w.table.mb (w.fdTable fd.toNat).mindex).firstDbucket offset w with
  | .ok r _ => r
  | .error _ _ => none

theorem locate_data (bld : Build) (f : FdInfo) (first : Nat) (fd offset : Int) (w : World) :
    Ends (locate bld fd f first offset w) (fun _ w' => w'.data = w.data) (fun _ _ => True) := by
  unfold locate
  simp only [ends_ite, ends_pure, ends_bind, onData, ends_zoom]
  refine ⟨fun _ => trivial, fun _ => ?_⟩
  refine (walkLoop_keeps w.data).mono ?_ (fun _ _ _ => trivial)
  rintro (_ | ix) d rfl
  · rfl
  · by_cases hcache : bld.offsetProcessCache = true
    · simp only [hcache, if_true, setFddes]
      split
      · exact rfl
      · exact trivial
    · simp only [hcache]
      exact rfl

theorem locate_matches {bld : Build} {f : FdInfo} {first : Nat} {offset : Int}
    (h : AlikeWorld w₁ w₂) :
    Matches AlikeWorld (locate bld fd f first offset w₁) (locate bld fd f first offset w₂) := by
  unfold locate
  refine .ite (fun _ => .pure _ h) (fun _ => ?_)
  refine (onData_matches h (walkLoop_matches h.data)).bind (fun r u₁ u₂ h => ?_)
  cases r with
  | none => exact .pure _ h
  | some ix =>
      refine .ite (fun _ => ?_) (fun _ => .pure _ h)
      exact (setFddes_matches h _ _).bind (fun _ _ _ h => .pure _ h)

/-- The place of the cursor through which `fd` reads and writes. -/
def CursorInside (w : World) (fd : Int) : Prop :=
  ∀ m, UserFd w fd m →
    StartsInside w.data (w.table.mb m).lastDbucket (toSize (w.table.mb m).lastDbOffset)

theorem sysRead_matches (count : UInt64) (h : AlikeWorld w₁ w₂) (hcur : CursorInside w₁ fd) :
    Matches AlikeWorld (sysRead env fd count w₁) (sysRead env fd count w₂) := by
  unfold sysRead
  refine onFd_matches h h.fds (fun m hu => ?_)
  rw [run_get_bind, run_get_bind, h.table, hu.mindex]
  refine (onData_matches h (readLoop_matches h.data (hcur m hu))).bind (fun r _ _ h => ?_)
  refine .ite (fun _ => ?_) (fun _ => .pure _ h)
  refine (setMb_matches h _ _).bind (fun _ _ _ h => ?_)
  exact (setFddes_matches h _ _).bind (fun _ _ _ h => .pure _ h)

theorem sysWrite_matches (h : AlikeWorld w₁ w₂) (hcur : CursorInside w₁ fd) :
    Matches AlikeWorld (sysWrite defaultBuild env fd buf w₁)
      (sysWrite defaultBuild env fd buf w₂) := by
  unfold sysWrite
  refine onFd_matches h h.fds (fun m hu => ?_)
  rw [run_get_bind, run_get_bind, h.table, hu.mindex]
  refine (onData_matches h (writeLoop_matches h.data (hcur m hu))).bind (fun r _ _ h => ?_)
  refine .ite (fun _ => ?_) (fun _ => ?_)
  · refine (setMb_matches h _ _).bind (fun _ _ _ h => ?_)
    refine (setFddes_matches h _ _).bind (fun _ _ _ h => ?_)
    refine (setMb_matches h _ _).bind (fun _ _ _ h => ?_)
    exact (setMb_matches h _ _).bind (fun _ _ _ h => .pure _ h)
  · exact (setMb_matches h _ _).bind (fun _ _ _ h => .pure _ h)

/-- A `pread` or `pwrite` at `offset` begins inside the data of its bucket. -/
def OffsetInside (w : World) (fd offset : Int) : Prop :=
  ∀ b, target w fd offset = some b → StartsInside w.data b (within offset)

theorem OffsetInside.of_locate {offset : Int} {m ix : Nat} {w' : World}
    (hin : OffsetInside w fd offset) (hu : UserFd w fd m)
    (hrun : locate defaultBuild fd (w.fdTable fd.toNat) (w.table.mb m).firstDbucket offset w =
      .ok (some ix) w') : StartsInside w'.data ix (within offset) := by
  have hdata := locate_data defaultBuild (w.fdTable fd.toNat) (w.table.mb m).firstDbucket fd offset w
  rw [hrun] at hdata
  rw [show w'.data = w.data from hdata]
  exact hin ix (by rw [target, hu.mindex, hrun])

theorem sysPread_matches {count : UInt64} {offset : Int} (h : AlikeWorld w₁ w₂)
    (hoff : 0 ≤ offset) (hin : count = 0 ∨ OffsetInside w₁ fd offset) :
    Matches AlikeWorld (sysPread defaultBuild env fd count offset w₁)
      (sysPread defaultBuild env fd count offset w₂) := by
  unfold sysPread
  refine onFd_matches h h.fds (fun m hu => ?_)
  rw [run_get_bind, run_get_bind, h.table, hu.mindex, toSize_tmod hoff]
  refine (locate_matches h).bind_ok (fun _ _ h => h) (fun r u₁ u₂ hrun h => ?_)
  cases r with
  | none => exact .pure _ h
  | some ix =>
      have hstart : count.toNat = 0 ∨ StartsInside u₁.data ix (within offset) := by
        rcases hin with rfl | hin
        · exact Or.inl rfl
        · exact Or.inr (hin.of_locate hu hrun)
      refine (onData_matches h (preadLoop_matches h.data hstart)).bind (fun data _ _ h => ?_)
      refine .ite (fun _ => ?_) (fun _ => .pure _ h)
      exact (setFddes_matches h _ _).bind (fun _ _ _ h => .pure _ h)

theorem sysPwrite_matches {offset : Int} (h : AlikeWorld w₁ w₂) (hoff : 0 ≤ offset)
    (hin : OffsetInside w₁ fd offset) :
    Matches AlikeWorld (sysPwrite defaultBuild env fd buf offset w₁)
      (sysPwrite defaultBuild env fd buf offset w₂) := by
  unfold sysPwrite
  refine onFd_matches h h.fds (fun m hu => ?_)
  rw [run_get_bind, run_get_bind, h.table, hu.mindex, toSize_tmod hoff]
  refine (locate_matches h).bind_ok (fun _ _ h => h) (fun r u₁ u₂ hrun h => ?_)
  cases r with
  | none => exact .pure _ h
  | some ix =>
      have hstart : StartsInside u₁.data ix (within offset) := hin.of_locate hu hrun
      refine (onData_matches h (writeLoop_matches h.data hstart)).bind (fun r _ _ h => ?_)
      refine .ite (fun _ => ?_) (fun _ => ?_)
      · refine (setFddes_matches h _ _).bind (fun _ _ _ h => ?_)
        refine (setMb_matches h _ _).bind (fun _ _ _ h => ?_)
        exact (setMb_matches h _ _).bind (fun _ _ _ h => .pure _ h)
      · exact (setMb_matches h _ _).bind (fun _ _ _ h => .pure _ h)

end Spacefish
