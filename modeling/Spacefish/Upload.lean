import Spacefish.Fd
import Spacefish.Data

/-!
Moving whole files between the disk and the store: `upload_file` and
`write_to_disk` of `util.c`, and `create_new_file`, which makes an empty one.
-/

namespace Spacefish

open Buffer

def setMb (mb : Int) (f : MetaBucket → MetaBucket) : Op World Unit :=
  onMeta (modify (·.setMb mb f))

/-- `strcpy(mb->path, path)` into the `PATH_MAX` bytes of the field. -/
def strcpyPath (mb : Int) (path : Path) : Op World Unit := do
  let p ← inPathBuffer path
  setMb mb (fun b => { b with path := p })

/-- The macro `MB_MODIFY`. -/
def mbModify (mb : Int) : Op World Unit := setMb mb (fun b => { b with consisent := false })

/-- The rounds of `upload_file` that fill whole buckets, from round `i` on;
`prev` is the bucket of the round before. The result is the last bucket. -/
def uploadRounds (b : Build) (env : Env) (mb : Int) (buf : List Byte) :
    Nat → Nat → Nat → Op World Nat
  | 0, _, prev => return prev
  | n + 1, i, prev => do
      let dbindex ← onData (b.getFreeDbucketIx (env.rand i))
      if i = 0 then
        setMb mb (fun m => { m with firstDbucket := dbindex })
      else
        onData (modify (·.set prev (fun db => { db with nextIx := dbindex })))
      let _ ← onData (getDbucketPtr dbindex)
      onData (modify (·.set dbindex (fun db =>
        { db with buf := memcpy db.buf 0 ((buf.drop (i * dbucketBufSize)).take dbucketBufSize)
                  bytes := dbucketBufSize })))
      uploadRounds b env mb buf n (i + 1) dbindex

/-- The bucket of a file that fills no whole bucket. -/
def uploadFirst (b : Build) (env : Env) (mb : Int) (rounds : Int) : Op World Nat := do
  if rounds = 0 then
    let dbindex ← onData (b.getFreeDbucketIx (env.rand 0))
    let _ ← onData (getDbucketPtr dbindex)
    onData (modify (·.set dbindex (fun db => { db with bytes := 0 })))
    setMb mb (fun m => { m with firstDbucket := dbindex })
    return dbindex
  else return noIx

/-- The part of `upload_file` behind the whole buckets; `last` is the bucket the
pointer `db` stands at, which a negative number of rounds leaves uninitialised. -/
def uploadTail (b : Build) (env : Env) (buf : List Byte) (rounds : Int) (off last : Nat) :
    Op World Unit := do
  if off = 0 then return ()
  else if rounds < 0 then throw .undefined
  else
    let w ← get
    if (w.data.bucket last).bytes = 0 then
      onData (modify (·.set last (fun db =>
        { db with buf := memcpy db.buf 0 (buf.take off), bytes := off })))
    else
      let dbindex ← onData (b.getFreeDbucketIx (env.rand rounds.toNat))
      onData (modify (·.set last (fun db => { db with nextIx := dbindex })))
      let _ ← onData (getDbucketPtr dbindex)
      onData (modify (·.set dbindex (fun db =>
        { db with buf := memcpy db.buf 0 ((buf.drop (rounds.toNat * dbucketBufSize)).take off)
                  bytes := off })))

/-- The data part of `upload_file` for the `buf` read from disk. -/
def uploadData (b : Build) (env : Env) (mb : Int) (buf : List Byte) (size : Nat) :
    Op World Unit := do
  let rounds := toInt (size / dbucketBufSize : Nat)
  let first ← uploadFirst b env mb rounds
  let last ← uploadRounds b env mb buf rounds.toNat 0 first
  uploadTail b env buf rounds (size % dbucketBufSize) last

/-- `upload_file`. A short read returns after the bucket was linked into its
row and before its path is stored. -/
def uploadFile (b : Build) (env : Env) (name : Path) : Op World (Except Errno Int) := do
  match env.realStat name with
  | .error e => return .error e
  | .ok s =>
      let fd := env.realOpen name 0
      if fd < 0 then return .error env.realErrno
      match ← onMeta (strictCreateMbucket env.mrand name) with
      | none => return .error .eexist
      | some mb =>
          let (c, buf) := env.realRead fd s.stSize
          if c ≠ s.stSize then return .error env.realErrno
          strcpyPath mb name
          setMb mb (fun m => { m with s := s })
          uploadData b env mb buf s.stSize
          return .ok mb

/-- `create_new_file`. -/
def createNewFile (b : Build) (env : Env) (fpath : Path) (mode : Nat) :
    Op World (Except Errno Int) := do
  match ← onMeta (strictCreateMbucket env.mrand fpath) with
  | none => return .error .enospc
  | some mb =>
      let dbindex ← onData (b.getFreeDbucketIx (env.rand 0))
      setMb mb (fun m =>
        { m with
          firstDbucket := dbindex
          s := { m.s with stMode := mode, stSize := 0, stBlocks := 1,
                          stBlksize := dbucketBufSize } })
      strcpyPath mb fpath
      setMb mb (fun m => { m with s := stamp env m.s (stAcs ||| stMod ||| stChg) })
      mbModify mb
      return .ok mb

/-! Writing a file back, with `WRITE_TO_DISK` defined. -/

/-- The rounds of `write_to_disk` that copy whole buckets to `buf`, from round
`i` on; the result is the buffer and the bucket the walk stands at. -/
def writeToDiskRounds : Nat → Nat → (Nat → Byte) → Nat → Op DataShm ((Nat → Byte) × Nat)
  | 0, _, buf, dbindex => return (buf, dbindex)
  | n + 1, i, buf, dbindex => do
      let db ← getDbucketPtr dbindex
      writeToDiskRounds n (i + 1)
        (memcpy buf (i * dbucketBufSize) (slice db.buf 0 dbucketBufSize)) db.nextIx

/-- `write_to_disk`: the bytes handed to `real_write`. The heap buffer starts
with arbitrary contents. -/
def writeToDisk (env : Env) (mb : Int) : Op World (List Byte) := do
  let w ← get
  let size := (w.table.mb mb).s.stSize
  let rounds := (toInt (size / dbucketBufSize : Nat)).toNat
  let off := size % dbucketBufSize
  let (buf, dbindex) ← onData (writeToDiskRounds rounds 0 env.junk (w.table.mb mb).firstDbucket)
  if off > 0 then
    let db ← onData (getDbucketPtr dbindex)
    return slice (memcpy buf 0 (slice db.buf 0 off)) 0 size
  else return slice buf 0 size

end Spacefish
