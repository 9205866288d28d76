import Spacefish.Path
import Spacefish.Lib.CyclicScan

/-!
The metadata hash table: the row locks of `rwlock.c` and the operations of
`meta_shm.c`, as one process runs them with no other process active. A wait
that only another process could end is a hang. Loops over a row carry a fuel
of one more than the number of meta buckets: a walk that takes more steps has
met a bucket twice and never ends.
-/

namespace Spacefish

/-! The readers-writer lock. -/

/-- `lock_rw`: type 1 is a reader, type 2 a writer. -/
def lockRw (type : Nat) : Op UrwLock Unit := do
  if type = 2 then
    modify (fun l => { l with numWriters := l.numWriters + 1 })
    let l ← get
    if l.numReaders ≠ 0 then throw .hang
    if l.realLock then throw .hang
    modify (fun l => { l with realLock := true })
  else if type = 1 then
    let l ← get
    if l.numWriters ≠ 0 then throw .hang
    modify (fun l => { l with numReaders := l.numReaders + 1 })
  else throw (.exit .lockRwType)

def unlockRw (type : Nat) : Op UrwLock Unit := do
  if type = 2 then
    modify (fun l => { l with numWriters := l.numWriters - 1, realLock := false })
  else if type = 1 then
    modify (fun l => { l with numReaders := l.numReaders - 1 })

def MetaShm.setRow (t : MetaShm) (h : Nat) (f : HashInfo → HashInfo) : MetaShm :=
  { t with row := Function.update t.row h (f (t.row h)) }

def MetaShm.setMb (t : MetaShm) (ix : Int) (f : MetaBucket → MetaBucket) : MetaShm :=
  { t with mb := Function.update t.mb ix (f (t.mb ix)) }

def onRowLock (h : Nat) (x : Op UrwLock Unit) : Op MetaShm Unit :=
  Program.zoom (fun t => (t.row h).lock)
    (fun l t => t.setRow h (fun hi => { hi with lock := l })) x

def downRead (h : Nat) : Op MetaShm Unit := onRowLock h (lockRw 1)
def upRead (h : Nat) : Op MetaShm Unit := onRowLock h (unlockRw 1)
def downWrite (h : Nat) : Op MetaShm Unit := onRowLock h (lockRw 2)
def upWrite (h : Nat) : Op MetaShm Unit := onRowLock h (unlockRw 2)

/-- `pthread_spin_lock` on a meta bucket. -/
def spinLockMb (ix : Int) : Op MetaShm Unit := do
  let t ← get
  if (t.mb ix).lock then throw .hang
  modify (·.setMb ix (fun mb => { mb with lock := true }))

def spinUnlockMb (ix : Int) : Op MetaShm Unit :=
  modify (·.setMb ix (fun mb => { mb with lock := false }))

/-! The operations of `meta_shm.c`. A meta bucket pointer is its index. -/

def rowFuel : Nat := metaBuckets + 1

def getMbucketLoop (str : Path) : Nat → Int → Op MetaShm (Option Int)
  | 0, _ => throw .hang
  | fuel + 1, mbIx => do
      if mbIx = -1 then return none
      let t ← get
      if samePath str (t.mb mbIx).path then return some mbIx
      getMbucketLoop str fuel (t.mb mbIx).nextIx

def getMbucket (str : Path) : Op MetaShm (Option Int) := do
  let h ← hashRow str
  downRead h
  let t ← get
  let mb ← getMbucketLoop str rowFuel (t.row h).firstIx
  upRead h
  return mb

/-- `allocate_mbucket`. The trylock fails on a locked bucket, which is then
skipped; run alone, the test under the lock repeats the one before it. -/
def allocateMbucket (rand : Nat) : Op MetaShm Int := do
  let t ← get
  match CyclicScan.scan (fun ix => !(t.mb ix).inUse && !(t.mb ix).lock)
      (rand % metaBuckets) metaBuckets metaBuckets 0 with
  | some ix =>
      modify (·.setMb ix (fun mb => { mb with inUse := true }))
      return ix
  | none => return -1

/-- The walk of `strict_create_mbucket` and `get_or_create_mbucket` to the
last bucket of a row; the first component is a bucket that has the path. -/
def rowEndLoop (str : Path) : Nat → Int → Op MetaShm (Option Int × Int)
  | 0, _ => throw .hang
  | fuel + 1, mb => do
      let t ← get
      if (t.mb mb).nextIx ≠ -1 then
        if samePath str (t.mb mb).path then return (some mb, mb)
        rowEndLoop str fuel (t.mb mb).nextIx
      else if samePath str (t.mb mb).path then return (some mb, mb)
      else return (none, mb)

def getOrCreateMbucket (rand : Nat) (str : Path) : Op MetaShm Int := do
  let h ← hashRow str
  downWrite h
  let t ← get
  let mbIx := (t.row h).firstIx
  if mbIx = -1 then
    let ret ← allocateMbucket rand
    modify (·.setRow h (fun hi => { hi with firstIx := ret }))
    upWrite h
    return ret
  if (t.mb mbIx).nextIx = -1 ∧ samePath str (t.mb mbIx).path then
    upWrite h
    return mbIx
  match ← rowEndLoop str rowFuel mbIx with
  | (some mb, _) =>
      upWrite h
      return mb
  | (none, mb) =>
      let ret ← allocateMbucket rand
      modify (·.setMb mb (fun b => { b with nextIx := ret }))
      upWrite h
      return ret

def strictCreateMbucket (rand : Nat) (str : Path) : Op MetaShm (Option Int) := do
  let h ← hashRow str
  downWrite h
  let t ← get
  let mbIx := (t.row h).firstIx
  if mbIx = -1 then
    let ret ← allocateMbucket rand
    if ret = -1 then
      upWrite h
      return none
    modify (·.setRow h (fun hi => { hi with firstIx := ret }))
    upWrite h
    return some ret
  if (t.mb mbIx).nextIx = -1 ∧ samePath str (t.mb mbIx).path then
    upWrite h
    return none
  match ← rowEndLoop str rowFuel mbIx with
  | (some _, _) =>
      upWrite h
      return none
  | (none, mb) =>
      let ret ← allocateMbucket rand
      if ret = -1 then
        upWrite h
        return none
      modify (·.setMb mb (fun b => { b with nextIx := ret }))
      upWrite h
      return some ret

def getMbAndPrevLoop (path : Path) : Nat → Int → Int → Op MetaShm (Option Int × Option Int)
  | 0, _, _ => throw .hang
  | fuel + 1, mbPrev, ixIter => do
      if ixIter = -1 then return (none, some mbPrev)
      let t ← get
      if samePath path (t.mb ixIter).path then return (some ixIter, some mbPrev)
      getMbAndPrevLoop path fuel ixIter (t.mb ixIter).nextIx

/-- `get_mb_and_prev`: the bucket of a path and its predecessor in the row. -/
def getMbAndPrev (path : Path) : Op MetaShm (Option Int × Option Int) := do
  let h ← hashRow path
  let t ← get
  let mb := (t.row h).firstIx
  if mb = -1 then return (none, none)
  if (t.mb mb).nextIx = -1 then
    if samePath path (t.mb mb).path then return (some mb, none)
    else return (none, some mb)
  else if samePath path (t.mb mb).path then return (some mb, none)
  else getMbAndPrevLoop path rowFuel mb (t.mb mb).nextIx

/-- Point the predecessor of a row position, or the row itself, at `ix`. -/
def linkAfter (h : Nat) (mbPrev : Option Int) (ix : Int) : Op MetaShm Unit :=
  match mbPrev with
  | none => modify (·.setRow h (fun hi => { hi with firstIx := ix }))
  | some p => modify (·.setMb p (fun b => { b with nextIx := ix }))

/-- The link that `linkAfter` sets. -/
def linkBehind (t : MetaShm) (h : Nat) (mbPrev : Option Int) : Int :=
  match mbPrev with
  | none => (t.row h).firstIx
  | some p => (t.mb p).nextIx

def releaseMetaBucket (str : Path) : Op MetaShm Int := do
  let h ← hashRow str
  downWrite h
  match ← getMbAndPrev str with
  | (none, _) =>
      upWrite h
      return -1
  | (some mb, mbPrev) =>
      let t ← get
      linkAfter h mbPrev (t.mb mb).nextIx
      modify (·.setMb mb (fun b => { b with nextIx := -1 }))
      upWrite h
      spinLockMb mb
      modify (·.setMb mb (fun b =>
        { b with inUse := false, firstDbucket := noIx, lastDbucket := noIx,
                 lastDbOffset := 0 }))
      spinUnlockMb mb
      return 0

/-- `mb_chpath`. The exit for an absent `oldpath` leaves both rows locked. -/
def mbChpath (oldpath newpath : Path) : Op MetaShm Int := do
  if samePath oldpath newpath then return 0
  let hiOld ← hashRow oldpath
  let hiNew ← hashRow newpath
  downWrite hiOld
  downWrite hiNew
  let (mbOld, mbOldPrev) ← getMbAndPrev oldpath
  let (mbNew, mbNewPrev) ← getMbAndPrev newpath
  match mbOld with
  | none => return -1
  | some mbOld =>
      let t ← get
      let oldIx := linkBehind t hiOld mbOldPrev
      modify (·.setMb mbOld (fun b => { b with path := newpath.take pathMax }))
      linkAfter hiOld mbOldPrev (t.mb mbOld).nextIx
      match mbNew with
      | some mbNew =>
          let t ← get
          modify (·.setMb mbOld (fun b => { b with nextIx := (t.mb mbNew).nextIx }))
          linkAfter hiNew mbNewPrev oldIx
          spinLockMb mbNew
          modify (·.setMb mbNew (fun b =>
            { b with inUse := false, nextIx := -1, firstDbucket := noIx,
                     lastDbucket := noIx, lastDbOffset := 0 }))
          spinUnlockMb mbNew
          upWrite hiNew
          upWrite hiOld
          return 0
      | none =>
          modify (·.setMb mbOld (fun b => { b with nextIx := -1 }))
          linkAfter hiNew mbNewPrev oldIx
          upWrite hiNew
          upWrite hiOld
          return 0

/-! The initial table of `init_mount`. -/

def zeroTime : Timespec := ⟨0, 0⟩

def zeroStat : Stat := ⟨0, 0, 0, 0, zeroTime, zeroTime, zeroTime⟩

def initUrwLock : UrwLock := ⟨0, 0, false⟩

def initMbucket : MetaBucket :=
  { inUse := false, nextIx := -1, path := [], s := zeroStat,
    firstDbucket := noIx, lastDbucket := noIx, lastDbOffset := 0,
    consisent := true, lock := false }

def initTable : MetaShm :=
  { row := fun _ => { firstIx := -1, lock := initUrwLock }
    mb := fun _ => initMbucket }

end Spacefish
