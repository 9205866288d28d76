import Mathlib.Algebra.BigOperators.Group.List.Basic
import Mathlib.Data.List.Perm.Subperm
import Spacefish.Data
import Spacefish.Lib.LinkedArray

/-!
Well-formed data segments. A bucket that is not in use is fresh, every link
leads to a bucket in use, and no bucket holds more bytes than its buffer. The
content of a chain is what its buckets hold, one after the other.
-/

namespace Spacefish

open LinkedArray Program Buffer

def DataShm.next (d : DataShm) (b : Nat) : Nat := (d.bucket b).nextIx

/-- A bucket that a chain may contain. -/
def DataShm.Owned (d : DataShm) (b : Nat) : Prop := b < totBuckets ∧ (d.bucket b).inUse = true

/-- The part of well-formedness that concerns allocation and the links. -/
structure LinksOk (d : DataShm) : Prop where
  steps : d.dbucketSteps = totalStepsAllowed
  counter : d.dbucketsInUse = 0
  unlocked : ∀ b, (d.bucket b).lock = false
  fresh : ∀ b, (d.bucket b).inUse = false → d.next b = noIx
  target : ∀ b, d.next b = noIx ∨ d.Owned (d.next b)

structure DataWf (d : DataShm) : Prop extends LinksOk d where
  bytes_le : ∀ b, (d.bucket b).bytes ≤ dbucketBufSize
  empty : ∀ b, (d.bucket b).inUse = false → (d.bucket b).bytes = 0

variable {d d' : DataShm} {b c i off : Nat} {l : List Nat}

theorem DataShm.Owned.ne_noIx (h : d.Owned b) : b ≠ noIx := by
  have hlt := h.1
  unfold totBuckets at hlt
  unfold noIx
  omega

@[simp] theorem set_bucket_self (f : DataBucket → DataBucket) :
    (d.set b f).bucket b = f (d.bucket b) := by
  simp [DataShm.set]

theorem set_bucket_of_ne (f : DataBucket → DataBucket) (hne : c ≠ b) :
    (d.set b f).bucket c = d.bucket c := by
  simp [DataShm.set, hne]

@[simp] theorem set_steps (f : DataBucket → DataBucket) :
    (d.set b f).dbucketSteps = d.dbucketSteps := rfl

/-- `get_dbucket_ptr` of a bucket of the store. -/
theorem getDbucketPtr_eq (hsteps : d.dbucketSteps = totalStepsAllowed) (hb : b < totBuckets) :
    getDbucketPtr b d = .ok (d.bucket b) d := by
  have hlt : ¬ b / dataBucketsStep ≥ d.dbucketSteps := by
    rw [hsteps]
    unfold totBuckets at hb
    unfold dataBucketsStep totalStepsAllowed
    omega
  simp [getDbucketPtr, hlt]

theorem LinksOk.steps_le (hd : LinksOk d) : d.dbucketSteps ≤ totalStepsAllowed :=
  hd.steps.le

/-- `get_dbucket_ptr` of the end marker ends the process. -/
theorem getDbucketPtr_noIx (hle : d.dbucketSteps ≤ totalStepsAllowed) :
    getDbucketPtr noIx d = .error (.exit .stepNotYetCreated) d := by
  have hge : noIx / dataBucketsStep ≥ d.dbucketSteps := hle.trans (by decide)
  rw [getDbucketPtr, run_get_bind, run_ite, if_pos hge, run_throw_bind]

/-! So do the loops over the data of a file, when it has no data. -/

theorem readLoop_noIx {env : Env} (hle : d.dbucketSteps ≤ totalStepsAllowed) (n count : Nat) :
    readLoop env (readFuel n) noIx off count d = .error (.exit .stepNotYetCreated) d := by
  have hpos : 0 < readFuel n := Nat.mul_pos (Nat.succ_pos _) (Nat.succ_pos _)
  have hfuel : readFuel n = readFuel n - 1 + 1 := by omega
  rw [hfuel, readLoop, bind_of_error (getDbucketPtr_noIx hle)]

theorem writeLoop_noIx {bld : Build} {env : Env} (hle : d.dbucketSteps ≤ totalStepsAllowed)
    (buf : List Byte) :
    writeLoop bld env false (writeFuel buf) noIx off buf d =
      .error (.exit .stepNotYetCreated) d := by
  rw [writeFuel, writeLoop, run_ite, if_neg (by simp), bind_of_error (getDbucketPtr_noIx hle)]

theorem truncChain_noIx {bld : Build} (hle : d.dbucketSteps ≤ totalStepsAllowed) :
    truncChain bld noIx d = .error (.exit .stepNotYetCreated) d := by
  rw [truncChain, bind_of_error (getDbucketPtr_noIx hle)]

/-- Every bucket of the store is taken. -/
def DataFull (d : DataShm) : Prop := ∀ b < totBuckets, (d.bucket b).inUse = true

/-- The state after the allocator has handed out `ix`. -/
def DataShm.take (d : DataShm) (ix : Nat) : DataShm :=
  d.set ix (fun db => { db with inUse := true })

/-- The allocator marks a free bucket, or ends the process in a full store. -/
theorem bucketIxAllocAllRandom_cases (hd : LinksOk d) (rand : Nat) :
    (∃ ix < totBuckets, (d.bucket ix).inUse = false ∧
      bucketIxAllocAllRandom rand d = .ok ix (d.take ix)) ∨
    (DataFull d ∧ bucketIxAllocAllRandom rand d = .error (.exit .dataBucketOverUse) d) := by
  unfold bucketIxAllocAllRandom
  rw [run_get_bind, run_ite, if_neg (by rw [hd.counter]; decide)]
  cases hscan : CyclicScan.scan (fun ix => !(d.bucket ix).inUse && !(d.bucket ix).lock)
      (rand % totBuckets) totBuckets totBuckets 0 with
  | some ix =>
      obtain ⟨hlt, hfree⟩ := CyclicScan.full_scan_some hscan
      refine Or.inl ⟨ix, hlt, ?_, rfl⟩
      simp only [hd.unlocked, Bool.and_eq_true, Bool.not_eq_eq_eq_not, Bool.not_true] at hfree
      exact hfree.1
  | none =>
      refine Or.inr ⟨fun b hb => ?_, rfl⟩
      have hbusy := CyclicScan.full_scan_none hscan b hb
      simpa [hd.unlocked] using hbusy

/-! Content of a chain. -/

/-- The bytes a bucket holds. -/
def bucketData (d : DataShm) (b : Nat) : List Byte :=
  slice (d.bucket b).buf 0 (d.bucket b).bytes

def content (d : DataShm) (l : List Nat) : List Byte := l.flatMap (bucketData d)

/-- The sum of `bytes` over a chain. -/
def total (d : DataShm) (l : List Nat) : Nat := (l.map (fun b => (d.bucket b).bytes)).sum

@[simp] theorem bucketData_length : (bucketData d b).length = (d.bucket b).bytes := by
  simp [bucketData]

@[simp] theorem content_nil : content d [] = [] := rfl

@[simp] theorem content_cons : content d (b :: l) = bucketData d b ++ content d l := rfl

theorem content_append {l' : List Nat} : content d (l ++ l') = content d l ++ content d l' := by
  simp [content]

@[simp] theorem total_nil : total d [] = 0 := rfl

@[simp] theorem total_cons : total d (b :: l) = (d.bucket b).bytes + total d l := by
  simp [total]

theorem total_append {l' : List Nat} : total d (l ++ l') = total d l + total d l' := by
  simp [total]

@[simp] theorem content_length : (content d l).length = total d l := by
  induction l with
  | nil => rfl
  | cons b l ih => simp [ih]

theorem content_congr (h : ∀ b ∈ l, d'.bucket b = d.bucket b) : content d' l = content d l := by
  induction l with
  | nil => rfl
  | cons b l ih =>
      rw [content_cons, content_cons, ih (fun c hc => h c (by simp [hc]))]
      simp [bucketData, h b (by simp)]

theorem total_congr (h : ∀ b ∈ l, (d'.bucket b).bytes = (d.bucket b).bytes) :
    total d' l = total d l := by
  simp only [total, List.map_congr_left h]

theorem total_le (h : ∀ b ∈ l, (d.bucket b).bytes ≤ dbucketBufSize) :
    total d l ≤ l.length * dbucketBufSize := by
  induction l with
  | nil => simp
  | cons b l ih =>
      have hb := h b (by simp)
      have hl := ih (fun c hc => h c (by simp [hc]))
      rw [total_cons, List.length_cons, Nat.succ_mul]
      omega

/-- A chain of distinct buckets of the store is no longer than the store. -/
theorem length_le_totBuckets (hnodup : l.Nodup) (hb : ∀ b ∈ l, b < totBuckets) :
    l.length ≤ totBuckets := by
  have hsub : l ⊆ List.range totBuckets := fun b hmem => List.mem_range.mpr (hb b hmem)
  simpa using (List.subperm_of_subset hnodup hsub).length_le

end Spacefish
