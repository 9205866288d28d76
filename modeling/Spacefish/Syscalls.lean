import Spacefish.Upload

/-!
The intercepted calls of `file_syscalls.c` and `file_meta.c`. A call on a
kernel descriptor (`exclusive`) is forwarded and leaves the store alone.
-/

namespace Spacefish

/-- The branches of `open` that find, upload, truncate or create the file. -/
def openResolve (b : Build) (env : Env) (pathname fpath : Path) (flags mode : Nat) :
    Op World (Except Errno Int) := do
  if !hasFlag flags oCreat then
    match ← onMeta (getMbucket fpath) with
    | some mb => return .ok mb
    | none => uploadFile b env fpath
  else if oTruncCheck flags then
    match ← onMeta (getMbucket fpath) with
    | some mb =>
        let w ← get
        onData (truncChain b (w.table.mb mb).firstDbucket)
        setMb mb (fun m =>
          { m with s := stamp env { m.s with stSize := 0, stBlocks := 1 } (stMod ||| stChg) })
        mbModify mb
        return .ok mb
    | none => createNewFile b env fpath mode
  else
    match ← onMeta (getMbucket fpath) with
    | some mb => if hasFlag flags oExcl then return .error .eexist else return .ok mb
    | none =>
        match env.realStat pathname with
        | .ok _ =>
            if hasFlag flags oExcl then return .error .eexist
            else uploadFile b env fpath
        | .error _ => createNewFile b env fpath mode

/-- The cursor that `open` leaves in the meta bucket. -/
def openPosition (flags : Nat) (mb : Int) : Op World Unit := do
  let w ← get
  if hasFlag flags oAppend then
    onData (appendLoop walkFuel (w.table.mb mb).firstDbucket)
  else
    setMb mb (fun m => { m with lastDbucket := m.firstDbucket, lastDbOffset := 0 })

def sysOpen (b : Build) (env : Env) (pathname : Path) (flags mode : Nat) : Op World Ret := do
  if exclusivePath pathname then
    let ret := env.realOpen pathname flags
    if ret > 0 then
      setFddes ret (fun f => { f with empty := false, exclusive := true })
    return { ret := ret, err := env.realErrno }
  if pathname.length > pathMax then
    return { ret := -1, err := .enametoolong }
  let fpath ← buildAbsPath1 env pathname
  match ← openResolve b env pathname fpath flags mode with
  | .error e => return { ret := -1, err := e }
  | .ok mb =>
      openPosition flags mb
      match ← getEmptyFd env firstUserFd maxNumFd with
      | none => return { ret := -1, err := .emfile }
      | some fd =>
          setFddes fd (fun f => { f with mindex := mb.toNat })
          return { ret := fd, err := .ok }

def sysClose (env : Env) (fd : Int) : Op World Ret := do
  let f ← fddes fd
  if f.exclusive then
    if env.realRet = 0 then setFddes fd resetFd
    return { ret := env.realRet, err := env.realErrno }
  if f.empty then
    return { ret := -1, err := .ebadf }
  setMb f.mindex (fun m => { m with s := closeStamps f m.s })
  setFddes fd resetFd
  return { ret := 0, err := .ok }

def sysRead (env : Env) (fd : Int) (count : UInt64) : Op World Ret := do
  let f ← fddes fd
  if f.exclusive then
    return { ret := env.realRet, err := env.realErrno, data := env.realData }
  if f.empty then
    return { ret := -1, err := .ebadf }
  let w ← get
  let mb := w.table.mb f.mindex
  let r ← onData (readLoop env (readFuel count.toNat) mb.lastDbucket
    (toSize mb.lastDbOffset) count.toNat)
  if r.data.length > 0 then
    setMb f.mindex (fun m => { m with lastDbucket := r.dbindex, lastDbOffset := toInt r.off })
    setFddes fd (deferStamp env stAcs)
  return { ret := r.data.length, err := .ok, data := r.data }

/-- The size that `write` and `pwrite` leave when their loop has grown the
buckets by `sizeInd`, a `size_t`. -/
def growStat (s : Stat) (sizeInd : Nat) : Stat :=
  if sizeInd % 2 ^ 64 > 0 then
    { s with stSize := uadd sizeInd s.stSize
             stBlocks := uadd (uadd sizeInd s.stSize) (dbucketBufSize - 1) / dbucketBufSize }
  else s

def sysWrite (b : Build) (env : Env) (fd : Int) (buf : List Byte) : Op World Ret := do
  let f ← fddes fd
  if f.exclusive then
    return { ret := env.realRet, err := env.realErrno }
  if f.empty then
    return { ret := -1, err := .ebadf }
  let w ← get
  let mb := w.table.mb f.mindex
  let r ← onData (writeLoop b env false (writeFuel buf) mb.lastDbucket
    (toSize mb.lastDbOffset) buf)
  if r.n > 0 then
    setMb f.mindex (fun m => { m with lastDbucket := r.dbindex, lastDbOffset := toInt r.off })
    setFddes fd (deferStamp env (stMod ||| stChg))
    mbModify f.mindex
  setMb f.mindex (fun m => { m with s := growStat m.s r.sizeInd })
  return { ret := r.n, err := .ok }

/-- Where `pread` and `pwrite` start: the cached bucket of the offset, or the
one found by walking `offset / DBUCKET_BUF_SIZE` links, which is then cached.
The number of links is an `int`. -/
def locate (b : Build) (fd : Int) (f : FdInfo) (first : Nat) (offset : Int) :
    Op World (Option Nat) := do
  let cached := if b.offsetProcessCache then cacheLookup f offset else noIx
  if cached ≠ noIx then return some cached
  match ← onData (walkLoop (toInt (offset.tdiv dbucketBufSize)).toNat first) with
  | none => return none
  | some ix =>
      if b.offsetProcessCache then setFddes fd (cacheFill offset ix)
      return some ix

def sysPread (b : Build) (env : Env) (fd : Int) (count : UInt64) (offset : Int) :
    Op World Ret := do
  let f ← fddes fd
  if f.exclusive then
    return { ret := env.realRet, err := env.realErrno, data := env.realData }
  if f.empty then
    return { ret := -1, err := .ebadf }
  let w ← get
  match ← locate b fd f (w.table.mb f.mindex).firstDbucket offset with
  | none => return { ret := 0, err := .ok }
  | some ix =>
      let data ← onData (preadLoop env (readFuel count.toNat) ix
        (toSize (offset.tmod dbucketBufSize)) count.toNat)
      if data.length > 0 then
        setFddes fd (deferStamp env stAcs)
      return { ret := data.length, err := .ok, data := data }

def sysPwrite (b : Build) (env : Env) (fd : Int) (buf : List Byte) (offset : Int) :
    Op World Ret := do
  let f ← fddes fd
  if f.exclusive then
    return { ret := env.realRet, err := env.realErrno }
  if f.empty then
    return { ret := -1, err := .ebadf }
  let w ← get
  match ← locate b fd f (w.table.mb f.mindex).firstDbucket offset with
  | none => return { ret := 0, err := .ok }
  | some ix =>
      let r ← onData (writeLoop b env true (writeFuel buf) ix
        (toSize (offset.tmod dbucketBufSize)) buf)
      if r.n > 0 then
        setFddes fd (deferStamp env (stMod ||| stChg))
        mbModify f.mindex
      setMb f.mindex (fun m => { m with s := growStat m.s r.sizeInd })
      return { ret := r.n, err := .ok }

/-- `unlink`, with `UNLINK_IGNORE_DISK`. -/
def sysUnlink (env : Env) (pathname : Path) : Op World Ret := do
  if pathname.length > pathMax then
    return { ret := -1, err := .enametoolong }
  let fpath ← buildAbsPath1 env pathname
  let r ← onMeta (releaseMetaBucket fpath)
  if r = 0 then return { ret := 0, err := .ok }
  else return { ret := -1, err := .enoent }

def sysRename (env : Env) (oldpath newpath : Path) : Op World Ret := do
  if oldpath = newpath then
    return { ret := 0, err := .ok }
  if oldpath.length > pathMax ∨ newpath.length > pathMax then
    return { ret := -1, err := .enametoolong }
  let foldpath ← buildAbsPath1 env oldpath
  let fnewpath ← buildAbsPath1 env newpath
  let r ← onMeta (mbChpath foldpath fnewpath)
  if r < 0 then
    let ret := env.realRename oldpath newpath
    if ret = 0 then
      match ← onMeta (getMbucket fnewpath) with
      | some _ => throw (.exit .unsupportedRename)
      | none => return { ret := ret, err := env.realErrno }
    else return { ret := ret, err := env.realErrno }
  else
    match ← onMeta (getMbucket fnewpath) with
    | some mb =>
        mbModify mb
        return { ret := r, err := .ok }
    | none => throw .undefined

/-- `__xstat` and `__lxstat`, which differ in the real call they fall back to. -/
def statPath (env : Env) (real : Path → Except Errno Stat) (path : Path) : Op World Ret := do
  if path.length > pathMax then
    return { ret := -1, err := .enametoolong }
  let fpath ← buildAbsPath1 env path
  match ← onMeta (getMbucket fpath) with
  | some mb =>
      let w ← get
      return { ret := 0, err := .ok, stat := some (w.table.mb mb).s }
  | none =>
      match real path with
      | .ok s => return { ret := 0, err := env.realErrno, stat := some s }
      | .error e => return { ret := -1, err := e }

def sysXstat (env : Env) (path : Path) : Op World Ret := statPath env env.realStat path

def sysLxstat (env : Env) (path : Path) : Op World Ret := statPath env env.realLstat path

def sysFxstat (env : Env) (fd : Int) : Op World Ret := do
  let f ← fddes fd
  if f.exclusive then
    match env.realFstat fd with
    | .ok s => return { ret := 0, err := env.realErrno, stat := some s }
    | .error e => return { ret := -1, err := e }
  if f.empty then
    return { ret := -1, err := .ebadf }
  let w ← get
  if (w.table.mb f.mindex).inUse then
    return { ret := 0, err := .ok, stat := some (w.table.mb f.mindex).s }
  else return { ret := -1, err := .efault }

end Spacefish
