import Mathlib.Logic.Function.Basic
import Mathlib.Tactic.Common
import Spacefish.Lib.Buffer
import Spacefish.Lib.Ends

/-!
The data model of the store: the configuration constants, the structures that
live in shared memory, the per-process descriptor table, and the ways a call
can fail to return. Index fields keep the source's in-band end marker: the
data-bucket links are `unsigned int` with `-1` read as `2^32 - 1`, the
metadata links are `int` with `-1`.

Everything the code obtains from outside (the kernel, the clock, `rand`,
memory it never wrote) is a field of `Env`, chosen anew for every call.
-/

namespace Spacefish

/-! Constants of `config.h` and the system headers. -/

def hashTableSize : Nat := 16384
def metaBuckets : Nat := 65536
def dataBucketsStep : Nat := 262144
def totalStepsAllowed : Nat := 2
def dbucketBufSize : Nat := 4096
def pathMax : Nat := 4096
def maxNumFd : Nat := 4096
def firstUserFd : Nat := 1024
def offsetProcessCacheSize : Nat := 1

/-- `DATA_BUCKETS_STEP * TOTAL_STEPS_ALLOWED`: the data buckets of the store. -/
def totBuckets : Nat := 524288

/-- The value of `-1` in an `unsigned int`. -/
def noIx : Nat := 4294967295

def oWronly : Nat := 1
def oRdwr : Nat := 2
def oCreat : Nat := 64
def oExcl : Nat := 128
def oTrunc : Nat := 512
def oAppend : Nat := 1024

def hasFlag (flags flag : Nat) : Bool := flags &&& flag != 0

/-- The macro `O_TRUNC_CHECK`. -/
def oTruncCheck (flags : Nat) : Bool :=
  hasFlag flags oTrunc && (hasFlag flags oRdwr || hasFlag flags oWronly)

def stAcs : Nat := 1
def stMod : Nat := 2
def stChg : Nat := 4

/-! `size_t` arithmetic and the conversions between `int` and `size_t`. -/

def uadd (a b : Nat) : Nat := (a + b) % 2 ^ 64

def usub (a b : Nat) : Nat := (a + (2 ^ 64 - b % 2 ^ 64)) % 2 ^ 64

/-- Conversion of a `size_t` or `long` value to `int`. -/
@[irreducible] def toInt (a : Int) : Int := (a + 2 ^ 31) % 2 ^ 32 - 2 ^ 31

/-- Conversion of a signed value to `size_t`. -/
def toSize (a : Int) : Nat := (a % 2 ^ 64).toNat

theorem uadd_eq {a b : Nat} (h : a + b < 2 ^ 64) : uadd a b = a + b :=
  Nat.mod_eq_of_lt h

theorem usub_eq {a b : Nat} (ha : a < 2 ^ 64) (h : b ≤ a) : usub a b = a - b := by
  unfold usub
  omega

theorem toInt_eq {a : Nat} (h : a < 2 ^ 31) : toInt a = a := by
  unfold toInt
  omega

theorem toSize_eq {a : Nat} (h : a < 2 ^ 64) : toSize a = a := by
  unfold toSize
  omega

inductive Errno where
  | ok
  | enoent
  | ebadf
  | efault
  | eexist
  | emfile
  | enospc
  | enametoolong
  /-- Whatever value a forwarded system call left in `errno`. -/
  | os (code : Nat)
  deriving DecidableEq, Repr

abbrev Byte := UInt8

/-- A C string: its bytes before the terminating NUL. -/
abbrev Path := List Byte

structure Timespec where
  tvSec : Int
  tvNsec : Int
  deriving DecidableEq, Repr

/-- The fields of `struct stat` that the store reads or writes. -/
structure Stat where
  stMode : Nat
  stSize : Nat
  stBlocks : Nat
  stBlksize : Nat
  stAtim : Timespec
  stMtim : Timespec
  stCtim : Timespec
  deriving DecidableEq, Repr

structure DataBucket where
  inUse : Bool
  nextIx : Nat
  buf : Nat → Byte
  bytes : Nat
  lock : Bool

structure UrwLock where
  numReaders : Int
  numWriters : Int
  realLock : Bool
  deriving DecidableEq, Repr

structure HashInfo where
  firstIx : Int
  lock : UrwLock

structure MetaBucket where
  inUse : Bool
  nextIx : Int
  path : Path
  s : Stat
  firstDbucket : Nat
  lastDbucket : Nat
  lastDbOffset : Int
  consisent : Bool
  lock : Bool

/-- The data segment of the shared memory with the allocation fields of
`sys_glob`. -/
structure DataShm where
  bucket : Nat → DataBucket
  dbucketSteps : Nat
  dbucketRoughIndex : Nat
  dbucketsInUse : Nat

/-- The metadata segment: the hash table and the array of meta buckets. -/
structure MetaShm where
  row : Nat → HashInfo
  mb : Int → MetaBucket

structure OffDbMappingItem where
  offset : Int
  dbindex : Nat
  deriving DecidableEq, Repr

structure FdInfo where
  mindex : Nat
  flags : Nat
  privS : Stat
  stampType : Nat
  offDbMapping : Nat → OffDbMappingItem
  offDbPtr : Nat
  exclusive : Bool
  empty : Bool

/-- What one process sees while it executes a call: the two shared segments
and its own descriptor table. -/
structure World where
  table : MetaShm
  data : DataShm
  fdTable : Nat → FdInfo

/-- The message with which the code ends the process (`UEHANDLE`). -/
inductive UErr where
  | dataBucketOverUse
  | stepNotYetCreated
  | maxStepsCreated
  | badHashFunctionInput
  | lockRwType
  | unsupportedRename
  | getcwd
  deriving DecidableEq, Repr

/-- The ways a call does not return. `undefined` is behaviour the C standard gives
no meaning to: a store outside an object, or a copy no address space holds. -/
inductive Halt where
  | exit (e : UErr)
  | hang
  | undefined
  deriving DecidableEq, Repr

/-- A program over a state that may stop early; the state it leaves behind is
kept, since other processes see it. -/
abbrev Op (σ : Type) := EStateM Halt σ

/-- The most bytes one `read` system call transfers on Linux. -/
def maxRwCount : Nat := 2147479552

/-- The answers of everything outside the store during one call. -/
structure Env where
  /-- `getcwd`; `none` when it fails. -/
  cwd : Option Path
  realStat : Path → Except Errno Stat
  realLstat : Path → Except Errno Stat
  realFstat : Int → Except Errno Stat
  realOpen : Path → Nat → Int
  realRead : Int → Nat → Int × List Byte
  realRead_le : ∀ fd count, (realRead fd count).1 ≤ maxRwCount
  realRead_length : ∀ fd count, (realRead fd count).2.length = (realRead fd count).1.toNat
  realRename : Path → Path → Int
  /-- Result and data of a call forwarded on a kernel descriptor. -/
  realRet : Int
  realData : List Byte
  realErrno : Errno
  /-- `clock_gettime` for each of the stamped fields. -/
  now : Nat → Timespec
  /-- The draws of `rand` for data buckets, one for each round of a loop. -/
  rand : Nat → Nat
  /-- The draw of `rand` for a metadata bucket. -/
  mrand : Nat
  /-- The byte found at a position outside the buffer of a data bucket. -/
  beyond : Nat → Nat → Byte
  /-- Contents of freshly allocated heap memory. -/
  junk : Nat → Byte
  /-- Whether the memory behind `fdTable` reads as an empty entry. -/
  pastFdTable : Bool

/-- The options a build fixes: the allocator behind `get_free_dbucket_ix`, and
the two macros that change the code of `open`, `pread` and `pwrite`. -/
structure Build where
  getFreeDbucketIx : Nat → Op DataShm Nat
  oTruncFree : Bool
  offsetProcessCache : Bool

/-- What a call returns: its result, `errno`, and what it stored for the
caller. -/
structure Ret where
  ret : Int
  err : Errno
  data : List Byte := []
  stat : Option Stat := none

/-! Lifting an operation on one segment to the whole view of the process. -/

def onMeta {α : Type} (x : Op MetaShm α) : Op World α :=
  Program.zoom World.table (fun t w => { w with table := t }) x

def onData {α : Type} (x : Op DataShm α) : Op World α :=
  Program.zoom World.data (fun d w => { w with data := d }) x

theorem onMeta_of_ok {α : Type} {x : Op MetaShm α} {w : World} {a : α} {t : MetaShm}
    (h : x w.table = .ok a t) : onMeta x w = .ok a { w with table := t } :=
  Program.zoom_of_ok h

theorem onData_of_ok {α : Type} {x : Op DataShm α} {w : World} {a : α} {d : DataShm}
    (h : x w.data = .ok a d) : onData x w = .ok a { w with data := d } :=
  Program.zoom_of_ok h

theorem run_onData_modify {β : Type} (f : DataShm → DataShm) (k : PUnit → Op World β)
    (w : World) : (onData (modify f) >>= k) w = k ⟨⟩ { w with data := f w.data } := rfl

theorem onData_of_error {α : Type} {x : Op DataShm α} {w : World} {e : Halt} {d : DataShm}
    (h : x w.data = .error e d) : onData x w = .error e { w with data := d } :=
  Program.zoom_of_error h

end Spacefish
