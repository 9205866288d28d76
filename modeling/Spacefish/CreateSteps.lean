import Spacefish.Lib.Interleaving
import Spacefish.OpenExisting

/-!
Opens and uploads of several processes, step by step. The search of `get_mbucket`
and the insertion of `strict_create_mbucket`, each under the lock of its row, are one
step; so is every later write to the new meta bucket, which no lock covers. A process
whose steps nobody interrupts does what the call does.
-/

namespace Spacefish

open Interleaving Program

/-- A call that may bring a file into the store: an `open`, or the upload of the file
`pathname` by the daemon. -/
structure OpenCall where
  env : Env
  daemon : Bool
  pathname : Path
  flags : Nat
  mode : Nat

/-- Where a process stands in its call. `p` is the absolute path and `mb` the bucket. -/
inductive OpenPc where
  | start
  /-- Before `get_mbucket`. -/
  | get (p : Path)
  | truncate (p : Path) (mb : Int)
  /-- Before the `strict_create_mbucket` of `create_new_file`. -/
  | create (p : Path)
  | first (p : Path) (mb : Int)
  | fields (p : Path) (mb : Int)
  | name (p : Path) (mb : Int)
  | stamp (p : Path) (mb : Int)
  | modify (p : Path) (mb : Int)
  | upload (p : Path)
  /-- Before the `strict_create_mbucket` of `upload_file`. -/
  | insert (p : Path) (s : Stat)
  | read (p : Path) (s : Stat) (mb : Int)
  | stat (p : Path) (s : Stat) (buf : List Byte) (mb : Int)
  | data (p : Path) (s : Stat) (buf : List Byte) (mb : Int)
  /-- Before the cursor and the descriptor are set. -/
  | place (p : Path) (mb : Int)
  | ret (r : Ret)

section

variable (b : Build) (c : OpenCall)

/-- The search in the table and where it leads. -/
def stepGet (p : Path) : Op World OpenPc := do
  let r ← onMeta (getMbucket p)
  if !hasFlag c.flags oCreat then
    match r with
    | some mb => return .place p mb
    | none => return .upload p
  else if oTruncCheck c.flags then
    match r with
    | some mb => return .truncate p mb
    | none => return .create p
  else
    match r with
    | some mb =>
        if hasFlag c.flags oExcl then return .ret { ret := -1, err := .eexist }
        else return .place p mb
    | none =>
        match c.env.realStat c.pathname with
        | .ok _ =>
            if hasFlag c.flags oExcl then return .ret { ret := -1, err := .eexist }
            else return .upload p
        | .error _ => return .create p

/-- What `open` does before it looks the path up. -/
def stepStart : Op World OpenPc := do
  if c.daemon then return .upload c.pathname
  if exclusivePath c.pathname then
    let ret := c.env.realOpen c.pathname c.flags
    if ret > 0 then
      setFddes ret (fun f => { f with empty := false, exclusive := true })
    return .ret { ret := ret, err := c.env.realErrno }
  if c.pathname.length > pathMax then
    return .ret { ret := -1, err := .enametoolong }
  let fpath ← buildAbsPath1 c.env c.pathname
  return .get fpath

/-- One step of a process. -/
def openStep : OpenPc → Op World OpenPc
  | .start => stepStart c
  | .get p => stepGet c p
  | .truncate p mb => do
      let w ← get
      onData (truncChain b (w.table.mb mb).firstDbucket)
      setMb mb (fun m =>
        { m with s := stamp c.env { m.s with stSize := 0, stBlocks := 1 } (stMod ||| stChg) })
      mbModify mb
      return .place p mb
  | .create p => do
      match ← onMeta (strictCreateMbucket c.env.mrand p) with
      | none => return .ret { ret := -1, err := .enospc }
      | some mb => return .first p mb
  | .first p mb => do
      let dbindex ← onData (b.getFreeDbucketIx (c.env.rand 0))
      setMb mb (fun m => { m with firstDbucket := dbindex })
      return .fields p mb
  | .fields p mb => do
      setMb mb (fun m =>
        { m with s := { m.s with stMode := c.mode, stSize := 0, stBlocks := 1,
                                 stBlksize := dbucketBufSize } })
      return .name p mb
  | .name p mb => do
      strcpyPath mb p
      return .stamp p mb
  | .stamp p mb => do
      setMb mb (fun m => { m with s := stamp c.env m.s (stAcs ||| stMod ||| stChg) })
      return .modify p mb
  | .modify p mb => do
      mbModify mb
      return .place p mb
  | .upload p =>
      match c.env.realStat p with
      | .error e => return .ret { ret := -1, err := e }
      | .ok s =>
          if c.env.realOpen p 0 < 0 then return .ret { ret := -1, err := c.env.realErrno }
          else return .insert p s
  | .insert p s => do
      match ← onMeta (strictCreateMbucket c.env.mrand p) with
      | none => return .ret { ret := -1, err := .eexist }
      | some mb => return .read p s mb
  | .read p s mb => do
      let (n, buf) := c.env.realRead (c.env.realOpen p 0) s.stSize
      if n ≠ s.stSize then return .ret { ret := -1, err := c.env.realErrno }
      strcpyPath mb p
      return .stat p s buf mb
  | .stat p s buf mb => do
      setMb mb (fun m => { m with s := s })
      return .data p s buf mb
  | .data p s buf mb => do
      uploadData b c.env mb buf s.stSize
      return .place p mb
  | .place _ mb => do
      if c.daemon then return .ret { ret := 0, err := .ok }
      let r ← openPlace c.env c.flags mb
      return .ret r
  | .ret r => return .ret r

/-! A process that nobody interrupts. -/

/-- The call as a whole. -/
def OpenCall.op : Op World Ret :=
  if c.daemon then callOp b c.env (.upload c.pathname)
  else sysOpen b c.env c.pathname c.flags c.mode

/-- At most `n` steps of one process. -/
def openRun : Nat → OpenPc → Op World Ret
  | _, .ret r => return r
  | 0, _ => throw .hang
  | n + 1, pc => openStep b c pc >>= openRun n

/-- What follows when the file was found or made, or was not. -/
def settle : Except Errno Int → Op World Ret
  | .error e => return { ret := -1, err := e }
  | .ok mb =>
      if c.daemon then return { ret := 0, err := .ok }
      else openPlace c.env c.flags mb

variable {b c} {p : Path} {mb : Int}

theorem openRun_ret (n : Nat) (r : Ret) : openRun b c n (.ret r) = pure r := by
  cases n <;> rfl

theorem openRun_place (n : Nat) : openRun b c (n + 1) (.place p mb) = settle c (.ok mb) := by
  change openStep b c (.place p mb) >>= openRun b c n = _
  by_cases hdaemon : c.daemon = true
  · simp only [openStep, settle, if_pos hdaemon, pure_bind, openRun_ret]
  · simp only [openStep, settle, if_neg hdaemon, bind_assoc, pure_bind, openRun_ret, bind_pure]

theorem setMb_bind_setMb {α : Type} (f g : MetaBucket → MetaBucket) (k : Op World α) :
    (setMb mb f >>= fun _ => setMb mb g >>= fun _ => k) =
      setMb mb (fun m => g (f m)) >>= fun _ => k := by
  funext w
  rw [run_setMb, run_setMb, run_setMb, setMb_setMb]

/-- The end of `create_new_file`, behind the bucket. -/
theorem openRun_first (n : Nat) :
    openRun b c (n + 6) (.first p mb) = (do
      let dbindex ← onData (b.getFreeDbucketIx (c.env.rand 0))
      setMb mb (fun m =>
        { m with
          firstDbucket := dbindex
          s := { m.s with stMode := c.mode, stSize := 0, stBlocks := 1,
                          stBlksize := dbucketBufSize } })
      strcpyPath mb p
      setMb mb (fun m => { m with s := stamp c.env m.s (stAcs ||| stMod ||| stChg) })
      mbModify mb
      settle c (.ok mb)) := by
  change openStep b c (.first p mb) >>= openRun b c (n + 5) = _
  simp only [openStep, bind_assoc, pure_bind]
  refine congrArg _ (funext fun dbindex => ?_)
  change setMb mb _ >>= (fun _ => openStep b c (.fields p mb) >>= openRun b c (n + 4)) = _
  simp only [openStep, bind_assoc, pure_bind]
  rw [setMb_bind_setMb]
  refine congrArg _ (funext fun _ => ?_)
  change openStep b c (.name p mb) >>= openRun b c (n + 3) = _
  simp only [openStep, bind_assoc, pure_bind]
  refine congrArg _ (funext fun _ => ?_)
  change openStep b c (.stamp p mb) >>= openRun b c (n + 2) = _
  simp only [openStep, bind_assoc, pure_bind]
  refine congrArg _ (funext fun _ => ?_)
  change openStep b c (.modify p mb) >>= openRun b c (n + 1) = _
  simp only [openStep, bind_assoc, pure_bind, openRun_place]

theorem openRun_create (n : Nat) :
    openRun b c (n + 7) (.create p) = createNewFile b c.env p c.mode >>= settle c := by
  change openStep b c (.create p) >>= openRun b c (n + 6) = _
  simp only [openStep, createNewFile, bind_assoc]
  refine congrArg _ (funext fun r => ?_)
  cases r with
  | none => simp only [pure_bind, openRun_ret, settle]
  | some mb => simp only [pure_bind, bind_assoc, openRun_first]

/-- The end of `upload_file`, behind the bucket. -/
theorem openRun_read (n : Nat) (s : Stat) :
    openRun b c (n + 4) (.read p s mb) = (do
      let (x, buf) := c.env.realRead (c.env.realOpen p 0) s.stSize
      if x ≠ s.stSize then settle c (.error c.env.realErrno)
      else do
        strcpyPath mb p
        setMb mb (fun m => { m with s := s })
        uploadData b c.env mb buf s.stSize
        settle c (.ok mb)) := by
  change openStep b c (.read p s mb) >>= openRun b c (n + 3) = _
  simp only [openStep]
  split
  · simp only [pure_bind, openRun_ret, settle]
  · simp only [bind_assoc, pure_bind]
    refine congrArg _ (funext fun _ => ?_)
    change openStep b c (.stat p s _ mb) >>= openRun b c (n + 2) = _
    simp only [openStep, bind_assoc, pure_bind]
    refine congrArg _ (funext fun _ => ?_)
    change openStep b c (.data p s _ mb) >>= openRun b c (n + 1) = _
    simp only [openStep, bind_assoc, pure_bind, openRun_place]

theorem openRun_upload (n : Nat) :
    openRun b c (n + 6) (.upload p) = uploadFile b c.env p >>= settle c := by
  change openStep b c (.upload p) >>= openRun b c (n + 5) = _
  simp only [openStep, uploadFile]
  cases c.env.realStat p with
  | error e => simp only [pure_bind, openRun_ret, settle]
  | ok s =>
      dsimp only
      split
      · simp only [pure_bind, openRun_ret, settle]
      · rw [pure_bind, bind_assoc]
        change openStep b c (.insert p s) >>= openRun b c (n + 4) = _
        simp only [openStep, bind_assoc]
        refine congrArg _ (funext fun r => ?_)
        cases r with
        | none => simp only [pure_bind, openRun_ret, settle]
        | some mb =>
            simp only [pure_bind, openRun_read]
            split
            · simp only [pure_bind]
            · simp only [pure_bind, bind_assoc]

theorem openRun_get (n : Nat) :
    openRun b c (n + 8) (.get p) =
      openResolve b c.env c.pathname p c.flags c.mode >>= settle c := by
  have hplace : ∀ mb, openRun b c (n + 7) (.place p mb) = settle c (.ok mb) :=
    fun _ => openRun_place (n + 6)
  have htrunc : ∀ mb, openRun b c (n + 7) (.truncate p mb) = (do
      let w ← get
      onData (truncChain b (w.table.mb mb).firstDbucket)
      setMb mb (fun m =>
        { m with s := stamp c.env { m.s with stSize := 0, stBlocks := 1 } (stMod ||| stChg) })
      mbModify mb
      settle c (.ok mb)) := by
    intro mb
    change openStep b c (.truncate p mb) >>= openRun b c (n + 6) = _
    simp only [openStep, bind_assoc, pure_bind, openRun_place (n + 5)]
  change stepGet c p >>= openRun b c (n + 7) = _
  unfold stepGet openResolve
  rw [bind_assoc]
  split
  · rw [bind_assoc]
    refine congrArg _ (funext fun r => ?_)
    cases r with
    | none => simp only [pure_bind, openRun_upload (n + 1)]
    | some mb => simp only [pure_bind, hplace]
  · split
    · rw [bind_assoc]
      refine congrArg _ (funext fun r => ?_)
      cases r with
      | none => simp only [pure_bind, openRun_create n]
      | some mb => simp only [pure_bind, bind_assoc, htrunc]
    · rw [bind_assoc]
      refine congrArg _ (funext fun r => ?_)
      cases r with
      | some mb =>
          dsimp only
          split
          · simp only [pure_bind, openRun_ret, settle]
          · simp only [pure_bind, hplace]
      | none =>
          dsimp only
          cases c.env.realStat c.pathname with
          | error e => simp only [pure_bind, openRun_create n]
          | ok st =>
              dsimp only
              split
              · simp only [pure_bind, openRun_ret, settle]
              · simp only [pure_bind, openRun_upload (n + 1)]

/-- The steps of a process that nobody interrupts make up the call. -/
theorem openRun_eq_op : openRun b c 9 .start = c.op b := by
  change stepStart c >>= openRun b c 8 = _
  unfold stepStart OpenCall.op
  split
  · next hdaemon =>
    rw [pure_bind, openRun_upload 2]
    refine congrArg _ (funext fun r => ?_)
    cases r with
    | error e => rfl
    | ok mb => exact if_pos hdaemon
  · next hdaemon =>
    have hsettle : ∀ mb, settle c (.ok mb) = openPlace c.env c.flags mb := fun _ => if_neg hdaemon
    unfold sysOpen
    split
    · dsimp only
      split
      · rw [bind_assoc]
        rfl
      · rfl
    · split
      · rfl
      · rw [bind_assoc]
        refine congrArg _ (funext fun fpath => ?_)
        rw [pure_bind, openRun_get 0]
        refine congrArg _ (funext fun r => ?_)
        cases r with
        | error e => rfl
        | ok mb => exact hsettle mb

end

/-! Processes. -/

/-- A process, with the call it is in. A process that the code has ended stays where it
ended. -/
structure OpenProc where
  fds : Nat → FdInfo
  call : Option (OpenCall × OpenPc)
  stopped : Bool

/-- The store, and the calls that have returned, in their order. -/
structure OpenShared where
  table : MetaShm
  data : DataShm
  log : List (OpenCall × Ret)

/-- What a step of the call `c` at `pc` leaves. A process that would wait takes no step. -/
def afterStep (c : OpenCall) (pc : OpenPc) (s : OpenShared) :
    EStateM.Result Halt World OpenPc → Option (OpenProc × OpenShared)
  | .ok pc' w => some (⟨w.fdTable, some (c, pc'), false⟩, { s with table := w.table, data := w.data })
  | .error .hang _ => none
  | .error _ w => some (⟨w.fdTable, some (c, pc), true⟩, { s with table := w.table, data := w.data })

/-- The next step of a process; `e` is the call it makes when it is in none. -/
def openNext (b : Build) (e : OpenCall) (q : OpenProc) (s : OpenShared) :
    Option (OpenProc × OpenShared) :=
  if q.stopped then none
  else
    match q.call with
    | none => some ({ q with call := some (e, .start) }, s)
    | some (c, .ret r) => some ({ q with call := none }, { s with log := s.log ++ [(c, r)] })
    | some (c, pc) => afterStep c pc s (openStep b c pc ⟨s.table, s.data, q.fds⟩)

theorem openNext_call {b : Build} {e c : OpenCall} {q : OpenProc} {s : OpenShared} {pc : OpenPc}
    (hcall : q.call = some (c, pc)) (hret : ∀ r, pc ≠ .ret r) :
    openNext b e q s = if q.stopped then none
      else afterStep c pc s (openStep b c pc ⟨s.table, s.data, q.fds⟩) := by
  unfold openNext
  rw [hcall]
  cases pc with
  | ret r => exact absurd rfl (hret r)
  | _ => rfl

end Spacefish
