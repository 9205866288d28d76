import Spacefish.Basic
import Spacefish.Lib.CyclicScan

/-!
The data segment: access to a bucket by its index, the allocator of the
default build, release of a bucket, and the copy loops of `read`, `write`,
`pread` and `pwrite`. The loops work on the data segment alone; what they
leave in the metadata is the business of the calls.
-/

namespace Spacefish

open Buffer

def DataShm.set (d : DataShm) (ix : Nat) (f : DataBucket → DataBucket) : DataShm :=
  { d with bucket := Function.update d.bucket ix (f (d.bucket ix)) }

/-- `get_dbucket_ptr` in a process that has mapped every created step, as
`open_map_global_memd` does at start. -/
def getDbucketPtr (ix : Nat) : Op DataShm DataBucket := do
  let d ← get
  if ix / dataBucketsStep ≥ d.dbucketSteps then throw (.exit .stepNotYetCreated)
  return d.bucket ix

/-- `bucket_ix_alloc_all_random`. The bucket is returned as it is found: the
link and the byte count are not set. -/
def bucketIxAllocAllRandom (rand : Nat) : Op DataShm Nat := do
  let d ← get
  if d.dbucketsInUse = totBuckets then throw (.exit .dataBucketOverUse)
  match CyclicScan.scan (fun ix => !(d.bucket ix).inUse && !(d.bucket ix).lock)
      (rand % totBuckets) totBuckets totBuckets 0 with
  | some ix =>
      modify (·.set ix (fun db => { db with inUse := true }))
      return ix
  | none => throw (.exit .dataBucketOverUse)

/-- The build that `config.h` and the `Makefile` select. -/
def defaultBuild : Build :=
  { getFreeDbucketIx := bucketIxAllocAllRandom
    oTruncFree := false
    offsetProcessCache := true }

/-- `release_dbucket`; the counter is a 32-bit unsigned. -/
def releaseDbucket (ix : Nat) : Op DataShm Int := do
  let d ← get
  if (d.bucket ix).inUse then
    modify (fun d => { d.set ix (fun db => { db with inUse := false }) with
      dbucketsInUse := (d.dbucketsInUse + (2 ^ 32 - 1)) % 2 ^ 32 })
    return 0
  else return -1

/-! Copies between a bucket and the caller's buffer. -/

/-- The byte at a position of a bucket's buffer, or of the memory around it. -/
def byteAt (env : Env) (ix : Nat) (db : DataBucket) (pos : Nat) : Byte :=
  if pos < dbucketBufSize then db.buf pos else env.beyond ix pos

/-- `memcpy(dst, db->buf + off, len)`; no object is larger than `PTRDIFF_MAX`. -/
def copyOut {σ : Type} (env : Env) (ix : Nat) (db : DataBucket) (off len : Nat) :
    Op σ (List Byte) :=
  if len < 2 ^ 63 then
    pure ((List.range len).map (fun i => byteAt env ix db (uadd off i)))
  else throw .undefined

/-- The bucket after `chunk` was copied to `buf + off`, with `bytes` raised to
the end of the copy when that lies past it. -/
def DataBucket.put (db : DataBucket) (off : Nat) (chunk : List Byte) : DataBucket :=
  { db with
    buf := memcpy db.buf off chunk
    bytes := if uadd off chunk.length > db.bytes then uadd off chunk.length else db.bytes }

/-- By how much `put` raises `bytes`. -/
def DataBucket.grown (db : DataBucket) (off : Nat) (chunk : List Byte) : Nat :=
  if uadd off chunk.length > db.bytes then usub (uadd off chunk.length) db.bytes else 0

/-- `memcpy(db->buf + off, src, c)` and the update of `bytes` behind it. -/
def copyIn (ix off : Nat) (chunk : List Byte) : Op DataShm Unit := do
  if chunk.length = 0 ∨ off + chunk.length ≤ dbucketBufSize then
    modify (·.set ix (fun db => db.put off chunk))
  else throw .undefined

structure ReadOut where
  data : List Byte
  dbindex : Nat
  off : Nat

/-- No ending walk of `read` takes more rounds: a turn of a cyclic chain that
copies nothing repeats forever. -/
def readFuel (count : Nat) : Nat := (count + 1) * (totBuckets + 1)

/-- The copy loop of `read`. -/
def readLoop (env : Env) : Nat → Nat → Nat → Nat → Op DataShm ReadOut
  | 0, _, _, _ => throw .hang
  | fuel + 1, dbindex, off, c => do
      let db ← getDbucketPtr dbindex
      if c ≤ usub db.bytes off then
        let chunk ← copyOut env dbindex db off c
        return ⟨chunk, dbindex, uadd off c⟩
      else
        let chunk ← copyOut env dbindex db off (usub db.bytes off)
        if db.nextIx ≠ noIx then
          let r ← readLoop env fuel db.nextIx 0 (usub c (usub db.bytes off))
          return { r with data := chunk ++ r.data }
        else return ⟨chunk, dbindex, db.bytes⟩

/-- The copy loop of `pread`. -/
def preadLoop (env : Env) : Nat → Nat → Nat → Nat → Op DataShm (List Byte)
  | 0, _, _, _ => throw .hang
  | fuel + 1, dbindex, off, c => do
      if dbindex = noIx then return []
      let db ← getDbucketPtr dbindex
      if c ≤ usub db.bytes off then
        copyOut env dbindex db off c
      else
        let chunk ← copyOut env dbindex db off (usub db.bytes off)
        let rest ← preadLoop env fuel db.nextIx 0 (usub c (usub db.bytes off))
        return chunk ++ rest

structure WriteOut where
  n : Nat
  sizeInd : Nat
  dbindex : Nat
  off : Nat

/-- The copy loop of `write` and `pwrite`; `guarded` is the loop condition of
`pwrite`, `while (dbindex != -1)`, where `write` has `while (1)`. The argument
`buf` is what remains of the caller's data. -/
def writeLoop (b : Build) (env : Env) (guarded : Bool) :
    Nat → Nat → Nat → List Byte → Op DataShm WriteOut
  | 0, _, _, _ => throw .hang
  | fuel + 1, dbindex, off, buf => do
      if guarded ∧ dbindex = noIx then return ⟨0, 0, dbindex, off⟩
      let db ← getDbucketPtr dbindex
      if buf.length ≤ usub dbucketBufSize off then
        copyIn dbindex off buf
        return ⟨buf.length, db.grown off buf, dbindex, uadd off buf.length⟩
      else
        let chunk := buf.take (usub dbucketBufSize off)
        copyIn dbindex off chunk
        let next ← nextOrNew b env fuel dbindex db.nextIx
        let r ← writeLoop b env guarded fuel next 0 (buf.drop (usub dbucketBufSize off))
        return { r with n := chunk.length + r.n, sizeInd := db.grown off chunk + r.sizeInd }
where
  /-- The next bucket of the chain, appended when there is none. -/
  nextOrNew (b : Build) (env : Env) (round dbindex nextIx : Nat) : Op DataShm Nat := do
    if nextIx = noIx then
      let ix ← b.getFreeDbucketIx (env.rand round)
      modify (·.set dbindex (fun db => { db with nextIx := ix }))
      return ix
    else return nextIx

/-- Every round but the first and the last copies a whole bucket. -/
def writeFuel (buf : List Byte) : Nat := buf.length + 2

/-- The walk of `pread` and `pwrite` to the bucket of an offset; `none` is the
early return of a chain that is too short. -/
def walkLoop : Nat → Nat → Op DataShm (Option Nat)
  | 0, dbindex => return some dbindex
  | rounds + 1, dbindex => do
      if dbindex = noIx then return none
      let db ← getDbucketPtr dbindex
      walkLoop rounds db.nextIx

def walkFuel : Nat := totBuckets + 1

/-- The loop of a truncating `open` over the buckets behind the first. -/
def truncLoop (b : Build) : Nat → Nat → Op DataShm Unit
  | 0, _ => throw .hang
  | fuel + 1, dbindex => do
      if dbindex = noIx then return ()
      let db ← getDbucketPtr dbindex
      if b.oTruncFree then
        let _ ← releaseDbucket dbindex
      else
        modify (·.set dbindex (fun db => { db with bytes := 0 }))
      truncLoop b fuel db.nextIx

/-- The data part of a truncating `open`. -/
def truncChain (b : Build) (first : Nat) : Op DataShm Unit := do
  let db ← getDbucketPtr first
  modify (·.set first (fun db => { db with bytes := 0 }))
  truncLoop b walkFuel db.nextIx
  if b.oTruncFree then
    let _ ← getDbucketPtr first
    modify (·.set first (fun db => { db with nextIx := noIx }))

/-- The loop of an `open` with `O_APPEND`: the test `next_ix >= 0` holds for
every unsigned value, and no branch leaves the loop. -/
def appendLoop : Nat → Nat → Op DataShm Unit
  | 0, _ => throw .hang
  | fuel + 1, dbindex => do
      let db ← getDbucketPtr dbindex
      appendLoop fuel db.nextIx

/-- The data segment after `init_mount` with every step created. -/
def initData : DataShm :=
  { bucket := fun _ =>
      { inUse := false, nextIx := noIx, buf := fun _ => 0, bytes := 0, lock := false }
    dbucketSteps := totalStepsAllowed
    dbucketRoughIndex := 0
    dbucketsInUse := 0 }

end Spacefish
