import Spacefish.Allocation
import Spacefish.DataWf
import Spacefish.StepCreation

/-!
The five allocation methods of `data_shm.c` in a process that runs alone. Each
has a variant that returns the index of a bucket and one that returns a pointer
to it; the two have the same body. Methods 1 to 4 share the loop that takes the
first free bucket of a range in cyclic order and differ in the range and in the
place where they start; the method in steps grows the store as it goes.
-/

namespace Spacefish

open Program

/-- The data segment with `rough_ind` of each core, `CRI`. -/
structure DataCores where
  data : DataShm
  coreRoughInd : Nat → Nat

/-- A `data_bucket *`: the step and the place in it. -/
structure DbPtr where
  step : Nat
  mod : Nat
  deriving DecidableEq, Repr

/-- `&data_steps[ix / DATA_BUCKETS_STEP][ix % DATA_BUCKETS_STEP]`. -/
def dataStepsPtr (ix : Nat) : DbPtr := ⟨ix / dataBucketsStep, ix % dataBucketsStep⟩

/-- The pointer that `get_dbucket_ptr` returns. -/
def dbucketPtr (ix : Nat) : Op DataShm DbPtr := do
  let _ ← getDbucketPtr ix
  return dataStepsPtr ix

def onBuckets {α : Type} (x : Op DataShm α) : Op DataCores α :=
  zoom DataCores.data (fun d s => { s with data := d }) x

/-! Methods 1 to 4. -/

/-- The loop of methods 1 to 4: of the `size` buckets from `base` on, in cyclic
order from `start`, the first that is free is marked. -/
def takeFirstFree (base start size : Nat) : Op DataShm Nat := do
  let d ← get
  match CyclicScan.scan
      (fun k => !(d.bucket (k + base)).inUse && !(d.bucket (k + base)).lock) start size size 0 with
  | some k =>
      modify (·.set (k + base) (fun db => { db with inUse := true }))
      return k + base
  | none => throw (.exit .dataBucketOverUse)

/-- `bucket_ix_alloc_all_random` and `bucket_ptr_alloc_all_random`; `ret` is what
the variant returns. -/
def allocAllRandom {α : Type} (ret : Nat → α) (rand : Nat) : Op DataCores α := do
  let s ← get
  if s.data.dbucketsInUse = totBuckets then throw (.exit .dataBucketOverUse)
  let ix ← onBuckets (takeFirstFree 0 (rand % totBuckets) totBuckets)
  return ret ix

def DataCores.setRoughInd (s : DataCores) (j : Nat) : DataCores :=
  { s with data := { s.data with dbucketRoughIndex := j } }

/-- `bucket_ix_alloc_all_rough_ind` and `bucket_ptr_alloc_all_rough_ind`. -/
def allocAllRoughInd {α : Type} (ret : Nat → α) : Op DataCores α := do
  modify (fun s =>
    if s.data.dbucketRoughIndex ≥ totBuckets then
      s.setRoughInd (s.data.dbucketRoughIndex % totBuckets)
    else s)
  let s ← get
  let j ← onBuckets (takeFirstFree 0 s.data.dbucketRoughIndex totBuckets)
  modify (·.setRoughInd j)
  return ret j

/-- `bucket_ix_alloc_all_per_core_random` and its variant for pointers. -/
def allocAllPerCoreRandom {α : Type} (ret : Nat → α) (ncores core rand : Nat) :
    Op DataCores α := do
  if bktsPerCore ncores = 0 then throw .undefined
  let j ← onBuckets (takeFirstFree (bktsPerCore ncores * core) (rand % bktsPerCore ncores)
    (bktsPerCore ncores))
  return ret j

def DataCores.setCoreRoughInd (s : DataCores) (core j : Nat) : DataCores :=
  { s with coreRoughInd := Function.update s.coreRoughInd core j }

/-- `bucket_ix_alloc_all_per_core_rough_ind` and its variant for pointers. -/
def allocAllPerCoreRoughInd {α : Type} (ret : Nat → α) (ncores core : Nat) :
    Op DataCores α := do
  if bktsPerCore ncores = 0 then throw .undefined
  modify (fun s =>
    if s.coreRoughInd core ≥ bktsPerCore ncores then
      s.setCoreRoughInd core (s.coreRoughInd core % bktsPerCore ncores)
    else s)
  let s ← get
  let j ← onBuckets (takeFirstFree (bktsPerCore ncores * core) (s.coreRoughInd core)
    (bktsPerCore ncores))
  modify (·.setCoreRoughInd core (j - bktsPerCore ncores * core))
  return ret j

def bucketPtrAllocAllRandom : Nat → Op DataCores DbPtr := allocAllRandom dataStepsPtr

def bucketIxAllocAllRoughInd : Op DataCores Nat := allocAllRoughInd id

def bucketPtrAllocAllRoughInd : Op DataCores DbPtr := allocAllRoughInd dataStepsPtr

def bucketIxAllocAllPerCoreRandom : Nat → Nat → Nat → Op DataCores Nat := allocAllPerCoreRandom id

def bucketPtrAllocAllPerCoreRandom : Nat → Nat → Nat → Op DataCores DbPtr :=
  allocAllPerCoreRandom dataStepsPtr

def bucketIxAllocAllPerCoreRoughInd : Nat → Nat → Op DataCores Nat := allocAllPerCoreRoughInd id

def bucketPtrAllocAllPerCoreRoughInd : Nat → Nat → Op DataCores DbPtr :=
  allocAllPerCoreRoughInd dataStepsPtr

/-! Method 0. -/

def maxDataBucketsSteps : Nat := 2

/-- `try_create_step`. Nobody else holds the lock of `sys_glob` or has made the
shm object of the step. -/
def tryCreateStep (stepsRead : Nat) : Op DataShm Unit := do
  if stepsRead = maxDataBucketsSteps then throw (.exit .maxStepsCreated)
  let d ← get
  if d.dbucketSteps > stepsRead then return ()
  modify (fun d => { d.initStep stepsRead with dbucketSteps := d.dbucketSteps + 1 })

/-- The loop over the current buckets; the round at which a bucket is free. -/
def traverseLoop : Nat → Traversal → Op DataShm (Option Traversal)
  | 0, _ => return none
  | n + 1, q => do
      let db ← getDbucketPtr q.bucket
      if db.inUse || db.lock then traverseLoop n q.next else return some q

/-- The bucket of a round is taken and made ready for use. -/
def DataShm.takeStep (d : DataShm) (q : Traversal) : DataShm :=
  { d.set q.bucket (fun db => { db with inUse := true, nextIx := noIx, bytes := 0 }) with
    dbucketRoughIndex := q.localIx
    dbucketsInUse := (d.dbucketsInUse + 1) % 2 ^ 32 }

/-- The code from the label `traverse_current_buckets` on. -/
def traverseCurrentBuckets : Nat → Op DataShm Traversal
  | 0 => throw .hang
  | fuel + 1 => do
      let d ← get
      let q : Traversal := ⟨d.dbucketSteps, d.dbucketRoughIndex, 0⟩
      match ← traverseLoop q.currentNumBuckets q with
      | some q =>
          modify (·.takeStep q)
          return q
      | none =>
          if q.currentNumBuckets = dataBucketsStep * maxDataBucketsSteps then
            throw (.exit .dataBucketOverUse)
          tryCreateStep q.stepsRead
          traverseCurrentBuckets fuel

/-- `bucket_ix_alloc_steps` and `bucket_ptr_alloc_steps`. Every jump back to the
label has created a step. -/
def allocSteps {α : Type} (ret : Traversal → α) : Op DataShm α := do
  let d ← get
  if d.dbucketsInUse = dataBucketsStep * maxDataBucketsSteps then
    throw (.exit .dataBucketOverUse)
  modify (fun d =>
    if d.dbucketRoughIndex > dataBucketsStep * maxDataBucketsSteps then
      { d with dbucketRoughIndex :=
          d.dbucketRoughIndex % (dataBucketsStep * maxDataBucketsSteps) }
    else d)
  if d.dbucketsInUse = dataBucketsStep * d.dbucketSteps then tryCreateStep d.dbucketSteps
  let q ← traverseCurrentBuckets (maxDataBucketsSteps + 1)
  return ret q

/-- The index is returned as the round has it, not reduced. -/
def bucketIxAllocSteps : Op DataShm Nat := allocSteps Traversal.localIx

def bucketPtrAllocSteps : Op DataShm DbPtr := allocSteps (fun q => dataStepsPtr q.bucket)

/-! The selection arrays. -/

/-- `alloc_method_ind`. -/
inductive AllocMethod where
  | steps
  | allRandom
  | allRoughInd
  | allPerCoreRandom
  | allPerCoreRoughInd
  deriving DecidableEq, Repr

/-- `ix_alloc_arr[alloc_method_ind]`, with the answers of `get_set_core_index` and
`rand`. -/
def getFreeDbucketIx (m : AllocMethod) (ncores core rand : Nat) : Op DataCores Nat :=
  match m with
  | .steps => onBuckets bucketIxAllocSteps
  | .allRandom => onBuckets (bucketIxAllocAllRandom rand)
  | .allRoughInd => bucketIxAllocAllRoughInd
  | .allPerCoreRandom => bucketIxAllocAllPerCoreRandom ncores core rand
  | .allPerCoreRoughInd => bucketIxAllocAllPerCoreRoughInd ncores core

/-- `ptr_alloc_arr[alloc_method_ind]`. -/
def getFreeDbucketPtr (m : AllocMethod) (ncores core rand : Nat) : Op DataCores DbPtr :=
  match m with
  | .steps => onBuckets bucketPtrAllocSteps
  | .allRandom => bucketPtrAllocAllRandom rand
  | .allRoughInd => bucketPtrAllocAllRoughInd
  | .allPerCoreRandom => bucketPtrAllocAllPerCoreRandom ncores core rand
  | .allPerCoreRoughInd => bucketPtrAllocAllPerCoreRoughInd ncores core

/-- The store that `init_mount` leaves: one step for the method in steps, all of
them otherwise. -/
def initCores (m : AllocMethod) : DataCores :=
  { data := { initData with dbucketSteps := if m = .steps then 1 else totalStepsAllowed }
    coreRoughInd := fun _ => 0 }

end Spacefish
