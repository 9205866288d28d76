import Mathlib.Logic.Relation
import Spacefish.Syscalls

/-!
The system: one shared store, any number of processes with a descriptor table
each, and calls executed one at a time. An event is a call of one process
together with everything the outside answers during it. A call that ends its
process leaves the shared segments as they are at that point and takes the
descriptor table with it.
-/

namespace Spacefish

structure Sys where
  table : MetaShm
  data : DataShm
  fds : Nat → Nat → FdInfo

inductive Call where
  | open (pathname : Path) (flags mode : Nat)
  | close (fd : Int)
  | read (fd : Int) (count : UInt64)
  | write (fd : Int) (buf : List Byte)
  | pread (fd : Int) (count : UInt64) (offset : Int)
  | pwrite (fd : Int) (buf : List Byte) (offset : Int)
  | unlink (pathname : Path)
  | rename (oldpath newpath : Path)
  | xstat (path : Path)
  | fxstat (fd : Int)
  /-- An upload by the daemon when it mounts a directory. -/
  | upload (name : Path)

structure Event where
  pid : Nat
  env : Env
  call : Call

def Sys.view (s : Sys) (pid : Nat) : World := ⟨s.table, s.data, s.fds pid⟩

def Sys.put (s : Sys) (pid : Nat) (w : World) : Sys :=
  ⟨w.table, w.data, Function.update s.fds pid w.fdTable⟩

def callOp (b : Build) (env : Env) : Call → Op World Ret
  | .open pathname flags mode => sysOpen b env pathname flags mode
  | .close fd => sysClose env fd
  | .read fd count => sysRead env fd count
  | .write fd buf => sysWrite b env fd buf
  | .pread fd count offset => sysPread b env fd count offset
  | .pwrite fd buf offset => sysPwrite b env fd buf offset
  | .unlink pathname => sysUnlink env pathname
  | .rename oldpath newpath => sysRename env oldpath newpath
  | .xstat path => sysXstat env path
  | .fxstat fd => sysFxstat env fd
  | .upload name => do
      match ← uploadFile b env name with
      | .ok _ => return { ret := 0, err := .ok }
      | .error e => return { ret := -1, err := e }

inductive Out where
  | ret (r : Ret)
  | halt (h : Halt)

def exec (b : Build) (s : Sys) (e : Event) : Out × Sys :=
  match callOp b e.env e.call (s.view e.pid) with
  | .ok r w => (.ret r, s.put e.pid w)
  | .error h w => (.halt h, s.put e.pid { w with fdTable := initFdTable })

/-- The state that `init_mount` and the start of the processes leave. -/
def initSys : Sys := ⟨initTable, initData, fun _ => initFdTable⟩

/-- One event that the caller's conditions admit; they may look at the state
before it and at how the call ended. -/
def Step (b : Build) (allow : Sys → Event → Out → Prop) (s s' : Sys) : Prop :=
  ∃ e out, exec b s e = (out, s') ∧ allow s e out

/-- Any number of admitted events. -/
def Run (b : Build) (allow : Sys → Event → Out → Prop) : Sys → Sys → Prop :=
  Relation.ReflTransGen (Step b allow)

/-- The calls that return. -/
def Returns : Out → Prop
  | .ret _ => True
  | .halt _ => False

/-- The calls that return or end their process with a message. -/
def ReturnsOrExits : Out → Prop
  | .ret _ => True
  | .halt (.exit _) => True
  | .halt _ => False

/-- Whether a call returned. -/
def Out.isRet : Out → Bool
  | .ret _ => true
  | .halt _ => false

theorem Out.isRet_spec {out : Out} (h : out.isRet = true) :
    ReturnsOrExits out ∧ ∀ u, out ≠ .halt u := by
  cases out with
  | ret r => exact ⟨trivial, fun u => nofun⟩
  | halt u => cases h

theorem Out.returns_of_isRet {out : Out} (h : out.isRet = true) : Returns out := by
  cases out with
  | ret r => exact trivial
  | halt u => cases h

theorem Returns.orExits {out : Out} (h : Returns out) : ReturnsOrExits out := by
  cases out with
  | ret r => exact trivial
  | halt u => exact h.elim

theorem Out.ret_of_isRet {out : Out} (h : out.isRet = true) : ∃ r, out = .ret r := by
  cases out with
  | ret r => exact ⟨r, rfl⟩
  | halt u => cases h

/-- The number a call returns. -/
def Out.num : Out → Int
  | .ret r => r.ret
  | .halt _ => -1

/-- The bytes a call delivers to its caller. -/
def Out.data : Out → List Byte
  | .ret r => r.data
  | .halt _ => []

/-- An outside with an empty disk, no clock and a constant `rand`. -/
def emptyDisk : Env :=
  { cwd := none
    realStat := fun _ => .error .enoent
    realLstat := fun _ => .error .enoent
    realFstat := fun _ => .error .ebadf
    realOpen := fun _ _ => -1
    realRead := fun _ _ => (-1, [])
    realRead_le := fun _ _ => by decide
    realRead_length := fun _ _ => rfl
    realRename := fun _ _ => -1
    realRet := -1
    realData := []
    realErrno := .enoent
    now := fun _ => zeroTime
    rand := fun _ => 0
    mrand := 0
    beyond := fun _ _ => 0
    junk := fun _ => 0
    pastFdTable := false }

/-- The state after a list of calls, made by one process on an empty disk. -/
def afterCalls (calls : List Call) : Sys :=
  calls.foldl (fun s c => (exec defaultBuild s ⟨0, emptyDisk, c⟩).2) initSys

/-- Whether all calls of the list return when they are made one after the other. -/
def allReturn : Sys → List Call → Bool
  | _, [] => true
  | s, c :: calls =>
      (exec defaultBuild s ⟨0, emptyDisk, c⟩).1.isRet &&
        allReturn (exec defaultBuild s ⟨0, emptyDisk, c⟩).2 calls

/-- A list of calls that all return is a run. -/
theorem run_of_allReturn {allow : Sys → Event → Out → Prop} {calls : List Call} {s : Sys}
    (hret : allReturn s calls = true)
    (hallow : ∀ c ∈ calls, ∀ s out, out.isRet = true → allow s ⟨0, emptyDisk, c⟩ out) :
    Run defaultBuild allow s
      (calls.foldl (fun s c => (exec defaultBuild s ⟨0, emptyDisk, c⟩).2) s) := by
  induction calls generalizing s with
  | nil => exact .refl
  | cons c calls ih =>
      obtain ⟨hc, hrest⟩ := Bool.and_eq_true_iff.mp hret
      refine .head ⟨⟨0, emptyDisk, c⟩, _, rfl, hallow c (by simp) s _ hc⟩ ?_
      exact ih hrest (fun a ha => hallow a (by simp [ha]))

/-- What holds of the first state and survives every admitted event holds in
every state of the run. -/
theorem Run.invariant {b : Build} {allow : Sys → Event → Out → Prop} {P : Sys → Prop}
    {s s' : Sys} (hrun : Run b allow s s') (hinit : P s)
    (hstep : ∀ s e out s', P s → allow s e out → exec b s e = (out, s') → P s') : P s' := by
  induction hrun with
  | refl => exact hinit
  | tail _ hlast ih =>
      obtain ⟨e, out, hexec, hallow⟩ := hlast
      exact hstep _ e out _ ih hallow hexec

/-- An event ends as the call in it ends. -/
theorem exec_ends {b : Build} {s s' : Sys} {e : Event} {out : Out} {Q : Ret → World → Prop}
    {E : Halt → World → Prop} (hends : Program.Ends (callOp b e.env e.call (s.view e.pid)) Q E)
    (hexec : exec b s e = (out, s')) :
    (∃ r w', out = .ret r ∧ s' = s.put e.pid w' ∧ Q r w') ∨
      ∃ h w', out = .halt h ∧ s' = s.put e.pid { w' with fdTable := initFdTable } ∧ E h w' := by
  unfold exec at hexec
  cases hrun : callOp b e.env e.call (s.view e.pid) with
  | ok r w' =>
      rw [hrun] at hexec hends
      obtain ⟨rfl, rfl⟩ := Prod.mk.inj hexec
      exact Or.inl ⟨r, w', rfl, rfl, hends⟩
  | error h w' =>
      rw [hrun] at hexec hends
      obtain ⟨rfl, rfl⟩ := Prod.mk.inj hexec
      exact Or.inr ⟨h, w', rfl, rfl, hends⟩

end Spacefish
