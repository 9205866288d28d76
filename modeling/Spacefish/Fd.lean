import Spacefish.Table

/-!
The descriptor table of a process (`fd.c`), the time stamps, and the cache
that `pread` and `pwrite` keep in a descriptor.
-/

namespace Spacefish

def emptyItem : OffDbMappingItem := ⟨-1, 0⟩

/-- `fdTable[i]` after `init_fdTable`, in memory that was zero before. -/
def initFd (i : Nat) : FdInfo :=
  { mindex := noIx, flags := 0, privS := zeroStat, stampType := 0
    offDbMapping := fun _ => emptyItem
    offDbPtr := 0
    exclusive := decide (i < firstUserFd)
    empty := !decide (i < 3) }

def initFdTable : Nat → FdInfo := initFd

def World.setFd (w : World) (fd : Nat) (f : FdInfo → FdInfo) : World :=
  { w with fdTable := Function.update w.fdTable fd (f (w.fdTable fd)) }

/-- `FDDES(fd)`: the macro does not check its argument. -/
def fddes (fd : Int) : Op World FdInfo := do
  let w ← get
  if 0 ≤ fd ∧ fd < maxNumFd then return w.fdTable fd.toNat
  else throw .undefined

def setFddes (fd : Int) (f : FdInfo → FdInfo) : Op World Unit := do
  if 0 ≤ fd ∧ fd < maxNumFd then modify (·.setFd fd.toNat f)
  else throw .undefined

/-- The loop of `get_empty_fd`, `for (i = from; i <= to; i++)`: `n` entries
from `i` on are left, the last of them behind the end of the table. -/
def getEmptyFdLoop (env : Env) : Nat → Nat → Op World (Option Nat)
  | 0, _ => return none
  | n + 1, i => do
      let w ← get
      if i < maxNumFd then
        if (w.fdTable i).empty then
          modify (·.setFd i (fun f => { f with empty := false }))
          return some i
        else getEmptyFdLoop env n (i + 1)
      else if env.pastFdTable then throw .undefined
      else getEmptyFdLoop env n (i + 1)

def getEmptyFd (env : Env) (start stop : Nat) : Op World (Option Nat) :=
  getEmptyFdLoop env (stop + 1 - start) start

/-- The offsets of every cache entry, reset to the empty marker; `dbindex`
keeps its old value. -/
def clearOffsets (m : Nat → OffDbMappingItem) : Nat → OffDbMappingItem := fun j =>
  if j < offsetProcessCacheSize then { m j with offset := -1 } else m j

def resetFd (f : FdInfo) : FdInfo :=
  { f with mindex := noIx, flags := 0, stampType := 0, exclusive := false, empty := true
           offDbMapping := clearOffsets f.offDbMapping }

/-! Time stamps. -/

def hasStamp (type bit : Nat) : Bool := type &&& bit != 0

def stamp (env : Env) (s : Stat) (type : Nat) : Stat :=
  { s with
    stAtim := if hasStamp type stAcs then env.now stAcs else s.stAtim
    stMtim := if hasStamp type stMod then env.now stMod else s.stMtim
    stCtim := if hasStamp type stChg then env.now stChg else s.stCtim }

def timespecComp (a b : Timespec) : Bool :=
  if a.tvSec = b.tvSec then decide (a.tvNsec > b.tvNsec) else decide (a.tvSec > b.tvSec)

/-- The macro `STAMP_CHECK` and the assignment behind it. -/
def stampCheck (type bit : Nat) (a b : Timespec) : Timespec :=
  if hasStamp type bit && timespecComp a b then a else b

/-- The deferred time stamps that `close` moves to the file. -/
def closeStamps (f : FdInfo) (s : Stat) : Stat :=
  { s with
    stAtim := stampCheck f.stampType stAcs f.privS.stAtim s.stAtim
    stMtim := stampCheck f.stampType stMod f.privS.stMtim s.stMtim
    stCtim := stampCheck f.stampType stChg f.privS.stCtim s.stCtim }

/-- The stamp that `read` and `write` leave in the descriptor until `close`. -/
def deferStamp (env : Env) (type : Nat) (f : FdInfo) : FdInfo :=
  { f with privS := stamp env f.privS type, stampType := f.stampType ||| type }

/-! The cache of `pread` and `pwrite`. -/

/-- The lookup loop: the last entry with the offset wins. -/
def cacheLookup (f : FdInfo) (offset : Int) : Nat :=
  (List.range offsetProcessCacheSize).foldl
    (fun ix j => if (f.offDbMapping j).offset = offset then (f.offDbMapping j).dbindex else ix)
    noIx

def cacheFill (offset : Int) (dbindex : Nat) (f : FdInfo) : FdInfo :=
  { f with
    offDbMapping := Function.update f.offDbMapping f.offDbPtr ⟨offset, dbindex⟩
    offDbPtr := (f.offDbPtr + 1) % offsetProcessCacheSize }

end Spacefish
