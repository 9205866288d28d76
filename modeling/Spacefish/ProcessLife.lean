import Spacefish.ProcessSlots
import Spacefish.System
import Spacefish.Lib.OwnSteps

/-!
The life of processes. A forked child has a copy of the memory of its parent, a program
that replaces itself leaves its descriptor table in an object of shared memory named
after its process id, and the constructor of the library takes it back. Each function of
the library is one step here; the steps of the slot functions are those of a process that
runs alone.
-/

namespace Spacefish

open Interleaving

/-! The slots, one call at a time. -/

/-- The variables that the library keeps in a process. `backup_fds` is not among them: it
is NULL until `exec_fd_backup` maps it, and the program does not go on behind that. -/
structure Image where
  pid : Nat
  pidMetaInd : Nat
  pidMetaIndSet : Bool
  deriving DecidableEq, Repr

/-- The slot that the loop of `get_new_pid_meta_ind` stops at. -/
def getNewPidMetaInd (s : PidMeta) : Option Nat :=
  (List.range maxExecHanging).find? (fun i => (s i).pid == 0 && !(s i).lock)

/-- `get_pid_meta_ind` of process `me`; what it returns is the new `pid_meta_ind`. It ends
the process when all slots are taken. -/
@[irreducible] def getPidMetaInd (me : Nat) (im : Image) (s : PidMeta) : Option (Image × PidMeta) :=
  if im.pidMetaIndSet && (s im.pidMetaInd).pid == me then some (im, s)
  else
    match (List.range maxExecHanging).find? (fun j => (s j).pid == me) with
    | some j => some ({ im with pidMetaInd := j, pidMetaIndSet := true }, s)
    | none =>
        match getNewPidMetaInd s with
        | some k =>
            some ({ im with pidMetaInd := k, pidMetaIndSet := true },
              s.set k (fun pi => { pi with pid := me }))
        | none => none

def clearSlot (pi : PidInfo) : PidInfo :=
  { pi with pid := 0, fdsBackedUp := false, firstParentSignaled := false, vforked := false }

def removePidSlot (me : Nat) (im : Image) (s : PidMeta) : Option PidMeta :=
  match getPidMetaInd me im s with
  | some (im, s) => some (s.set im.pidMetaInd clearSlot)
  | none => none

/-! Descriptors and program files. -/

def fdCloexec : Nat := 1

/-- The loop of `close_cloexec`, `n` descriptors from `i` on. -/
def closeCloexecLoop (env : Env) : Nat → Nat → Op World Unit
  | 0, _ => return ⟨⟩
  | n + 1, i => do
      let f ← fddes i
      if !f.empty && f.flags &&& fdCloexec != 0 then
        let _ ← sysClose env i
        closeCloexecLoop env n (i + 1)
      else closeCloexecLoop env n (i + 1)

def closeCloexec (env : Env) : Op World Unit := closeCloexecLoop env maxNumFd 0

/-- `exec_file_in_shm`: the file that is written to the disk, and what it is given. -/
def execFileInShm (env : Env) (path : Path) : Op World (Option (Path × List Byte)) := do
  let fpath ← buildAbsPath1 env path
  match ← onMeta (getMbucket fpath) with
  | some mb =>
      let data ← writeToDisk env mb
      let w ← get
      return some ((w.table.mb mb).path, data)
  | none => return none

/-! The system with its processes. -/

/-- What runs under a process id. A program that the kernel has loaded waits for
`ufs_init`; that it was loaded by an `exec` of the library is known to nobody. -/
inductive Task where
  | none
  | loaded (execed : Bool)
  | running (im : Image)
  deriving DecidableEq, Repr

structure Life where
  sys : Sys
  pidMeta : PidMeta
  /-- The objects that `exec_fd_backup` makes, by the process ids in their names. -/
  backups : Nat → Option (Nat → FdInfo)
  tasks : Nat → Task

/-- `init_mount` has left `s`, and no process has begun. -/
def Life.boot (s : Sys) : Life :=
  ⟨s, fun _ => ⟨0, false, false, false, false⟩, fun _ => none, fun _ => .none⟩

/-- The descriptor table of process `me`. -/
def Life.setFds (l : Life) (me : Nat) (fds : Nat → FdInfo) : Life :=
  { l with sys := { l.sys with fds := Function.update l.sys.fds me fds } }

def Life.setTask (l : Life) (me : Nat) (task : Task) : Life :=
  { l with tasks := Function.update l.tasks me task }

/-- The memory of process `me` is gone. -/
def Life.drop (l : Life) (me : Nat) (task : Task) : Life :=
  (l.setFds me initFdTable).setTask me task

/-- `exit`: first `exit_intercept`, then the destructor `ufs_fin`. A call of `exit` from
there has no meaning in C. -/
def Life.exit (l : Life) (me : Nat) (im : Image) : Option Life :=
  match removePidSlot me im l.pidMeta with
  | some s =>
      some { l.drop me .none with
        pidMeta := s, backups := Function.update l.backups im.pid none }
  | none => none

inductive LifeOut where
  | done
  | ret (r : Ret)
  /-- The kernel has loaded the new program; the library wrote this file before. -/
  | loaded (file : Option (Path × List Byte))
  /-- The process has ended by `exit`. -/
  | ended

def Life.ending (l : Life) (me : Nat) (im : Image) : Option (LifeOut × Life) :=
  (l.exit me im).map (fun l' => (.ended, l'))

/-- A call that a program makes. -/
def Life.call (b : Build) (l : Life) (e : Event) (im : Image) : Option (LifeOut × Life) :=
  match exec b l.sys e with
  | (.ret r, s) => some (.ret r, { l with sys := s })
  | (.halt (.exit _), s) => { l with sys := s }.ending e.pid im
  | (.halt _, _) => none

/-- `execv`, `execvp` and `execve` of process `me`; `found` says whether the kernel loads
the program. `shm_open` fails when the object is there. -/
def Life.exec (l : Life) (me : Nat) (im : Image) (env : Env) (path : Path) (found : Bool) :
    Option (LifeOut × Life) :=
  match getPidMetaInd me { im with pid := me } l.pidMeta with
  | none => none
  | some (im, s) =>
      let l := { l with pidMeta := s }
      if (l.backups me).isSome then l.ending me im
      else
        let l := { l with
          pidMeta := s.set im.pidMetaInd (fun pi => { pi with fdsBackedUp := true })
          backups := Function.update l.backups me (some (l.sys.fds me)) }
        match execFileInShm env path (l.sys.view me) with
        | .ok file w =>
            let l := { l with sys := l.sys.put me w }
            if found then some (.loaded file, l.drop me (.loaded true))
            else l.ending me im
        | .error (.exit _) w => { l with sys := l.sys.put me w }.ending me im
        | .error _ _ => none

/-- `ufs_init` in a loaded program, with `restore_fd_backup` and `close_cloexec`. -/
def Life.start (l : Life) (me : Nat) (env : Env) : Option (LifeOut × Life) :=
  match getPidMetaInd me ⟨me, 0, false⟩ l.pidMeta with
  | none => none
  | some (im, s) =>
      let l := { l with pidMeta := s }.setFds me initFdTable
      if (s im.pidMetaInd).fdsBackedUp then
        match l.backups me with
        | none => l.ending me im
        | some fds =>
            match closeCloexec env ((l.setFds me fds).sys.view me) with
            | .ok _ w =>
                some (.done, { l with
                  sys := l.sys.put me w
                  pidMeta := s.set im.pidMetaInd (fun pi => { pi with fdsBackedUp := false })
                  }.setTask me (.running im))
            | .error (.exit _) w => { l with sys := l.sys.put me w }.ending me im
            | .error _ _ => none
      else some (.done, l.setTask me (.running im))

inductive LifeEvent where
  | call (e : Event)
  /-- `fork`, and `vfork` in a build without `VFORK_SIGNALING`. -/
  | fork (me child : Nat)
  | exec (me : Nat) (env : Env) (path : Path) (found : Bool)
  /-- A program that no process of the file system has loaded. -/
  | spawn (me : Nat)
  | start (me : Nat) (env : Env)
  | exit (me : Nat)
  /-- The end by a signal or by `_exit`. -/
  | kill (me : Nat)

/-- One step; `none` where it cannot be taken or has no meaning. -/
def lifeStep (b : Build) (l : Life) : LifeEvent → Option (LifeOut × Life)
  | .call e =>
      match l.tasks e.pid with
      | .running im => l.call b e im
      | _ => none
  | .fork me child =>
      match l.tasks me, l.tasks child with
      | .running im, .none =>
          if child = 0 then none
          else some (.done, (l.setFds child (l.sys.fds me)).setTask child (.running im))
      | _, _ => none
  | .exec me env path found =>
      match l.tasks me with
      | .running im => l.exec me im env path found
      | _ => none
  | .spawn me =>
      match l.tasks me with
      | .none => if me = 0 then none else some (.done, l.setTask me (.loaded false))
      | _ => none
  | .start me env =>
      match l.tasks me with
      | .loaded _ => l.start me env
      | _ => none
  | .exit me =>
      match l.tasks me with
      | .running im => l.ending me im
      | _ => none
  | .kill me =>
      match l.tasks me with
      | .none => none
      | _ => some (.done, l.drop me .none)

/-- `LifeRun b l es outs l'`: the events are steps from `l` to `l'` with these results. -/
def LifeRun (b : Build) : Life → List LifeEvent → List LifeOut → Life → Prop
  | l, [], [], l' => l' = l
  | l, ev :: es, out :: outs, l' =>
      ∃ l₁, lifeStep b l ev = some (out, l₁) ∧ LifeRun b l₁ es outs l'
  | _, _, _, _ => False

/-- The run as a function, for runs that are evaluated. -/
def runLife (b : Build) : Life → List LifeEvent → Option (List LifeOut × Life)
  | l, [] => some ([], l)
  | l, ev :: es =>
      match lifeStep b l ev with
      | some (out, l₁) => (runLife b l₁ es).map (fun x => (out :: x.1, x.2))
      | none => none

theorem runLife_run {b : Build} {l l' : Life} {es : List LifeEvent} {outs : List LifeOut}
    (hrun : runLife b l es = some (outs, l')) : LifeRun b l es outs l' := by
  induction es generalizing l outs with
  | nil =>
      obtain ⟨rfl, rfl⟩ := Prod.mk.inj (Option.some.inj hrun)
      exact rfl
  | cons ev es ih =>
      rw [runLife] at hrun
      split at hrun
      · next out l₁ hstep =>
        obtain ⟨⟨rest, l₂⟩, hrest, heq⟩ := Option.map_eq_some_iff.mp hrun
        obtain ⟨rfl, rfl⟩ := Prod.mk.inj heq
        exact ⟨l₁, hstep, ih hrest⟩
      · cases hrun

def LifeOut.isLoaded : LifeOut → Bool
  | .loaded _ => true
  | _ => false

def LifeOut.isEnded : LifeOut → Bool
  | .ended => true
  | _ => false

theorem LifeOut.isLoaded_spec {out : LifeOut} (h : out.isLoaded = true) :
    ∃ file, out = .loaded file := by
  cases out with
  | loaded file => exact ⟨file, rfl⟩
  | _ => cases h

theorem LifeOut.isEnded_spec {out : LifeOut} (h : out.isEnded = true) : out = .ended := by
  cases out with
  | ended => rfl
  | _ => cases h

/-- An evaluated run and the step behind it, with what a test says about them. -/
theorem evaluated (es : List LifeEvent) (ev : LifeEvent) (P : Life → LifeOut → Life → Bool)
    (htest : (runLife defaultBuild (Life.boot initSys) es).any (fun x =>
      (lifeStep defaultBuild x.2 ev).any (fun y => P x.2 y.1 y.2)) = true) :
    ∃ outs l out l', LifeRun defaultBuild (Life.boot initSys) es outs l ∧
      lifeStep defaultBuild l ev = some (out, l') ∧ P l out l' = true := by
  obtain ⟨⟨outs, l⟩, hrun, hnext⟩ := (Option.any_eq_true ..).mp htest
  obtain ⟨⟨out, l'⟩, hstep, hP⟩ := (Option.any_eq_true ..).mp hnext
  exact ⟨outs, l, out, l', runLife_run hrun, hstep, hP⟩

/-! A process that runs alone. -/

variable {call : PidCall} {p : PidProc} {s s' : PidMeta} {r : Bool} {i j k n me : Nat}
  {im im' : Image}

/-- The loop of `get_pid_meta_ind`, `n` slots before its end. -/
theorem leads_search (hn : j + n = maxExecHanging) :
    Leads (pidStep call) (p.goTo (.search r j), s)
      (match (List.range' j n).find? (fun j => (s j).pid == p.pid) with
      | some j => ({ p with pidMetaInd := j, pidMetaIndSet := true }.return r j, s)
      | none => (p.goTo (.searchNew r 0), s)) := by
  induction n generalizing j with
  | zero => exact .step (if_neg (by omega)) .refl
  | succ n ih =>
      rw [List.range'_succ, List.find?_cons]
      have hlt : j < maxExecHanging := by omega
      by_cases hpid : (s j).pid = p.pid
      · rw [show ((s j).pid == p.pid) = true from beq_iff_eq.mpr hpid]
        exact .step ((if_pos hlt).trans (if_pos hpid)) (by cases r <;> exact .refl)
      · rw [show ((s j).pid == p.pid) = false from beq_eq_false_iff_ne.mpr hpid]
        exact .step ((if_pos hlt).trans (if_neg hpid)) (ih (by omega))

/-- The loop of `get_new_pid_meta_ind`, with the store of the pid behind it. -/
theorem leads_new (hn : i + n = maxExecHanging) :
    Leads (pidStep call) (p.goTo (.searchNew r i), s)
      (match (List.range' i n).find? (fun i => (s i).pid == 0 && !(s i).lock) with
      | some k => ({ p with pidMetaInd := k, pidMetaIndSet := true }.return r k,
          s.set k (fun pi => { pi with pid := p.pid }))
      | none => (p.goTo .stopped, s)) := by
  induction n generalizing i with
  | zero => exact .step (if_neg (by omega)) .refl
  | succ n ih =>
      rw [List.range'_succ, List.find?_cons]
      have hlt : i < maxExecHanging := by omega
      by_cases hpid : (s i).pid = 0
      · have hstep : pidStep call (p.goTo (.searchNew r i)) s = some (p.goTo (.tryLock r i), s) :=
          (if_pos hlt).trans (if_pos hpid)
        rw [hpid]
        cases hlock : (s i).lock with
        | true => exact .step hstep (.step (if_pos hlock) (ih (by omega)))
        | false =>
            have hset : ((s.set i (fun pi => { pi with lock := true })).set i
                (fun pi => { pi with lock := false })).set i (fun pi => { pi with pid := p.pid }) =
                s.set i (fun pi => { pi with pid := p.pid }) := by
              simp only [PidMeta.set, Function.update_self, Function.update_idem]
              rw [← hlock]
            refine .step hstep (.step (if_neg (by rw [hlock]; simp)) (.step rfl (.step rfl ?_)))
            refine .of_eq (Prod.ext ?_ hset)
            cases r <;> rfl
      · rw [show ((s i).pid == 0) = false from beq_eq_false_iff_ne.mpr hpid]
        exact .step ((if_pos hlt).trans (if_neg hpid)) (ih (by omega))

/-- A process that runs the steps of `get_pid_meta_ind` alone does what the function does at
once. -/
theorem leads_getPidMetaInd (call : PidCall) (p : PidProc) (r : Bool) (im : Image) (s : PidMeta)
    (hpid : p.pid = me) (him : p.pidMetaInd = im.pidMetaInd)
    (hset : p.pidMetaIndSet = im.pidMetaIndSet) :
    Leads (pidStep call) (p.enter r, s)
      (match getPidMetaInd me im s with
      | some (im', s') => ({ p with
          pidMetaInd := im'.pidMetaInd, pidMetaIndSet := im'.pidMetaIndSet }.return r
            im'.pidMetaInd, s')
      | none => (p.goTo .stopped, s)) := by
  subst hpid
  have hsearch : ¬ (im.pidMetaIndSet && (s im.pidMetaInd).pid == p.pid) = true →
      Leads (pidStep call) (p.goTo (.search r 0), s)
        (match getPidMetaInd p.pid im s with
        | some (im', s') => ({ p with
            pidMetaInd := im'.pidMetaInd, pidMetaIndSet := im'.pidMetaIndSet }.return r
              im'.pidMetaInd, s')
        | none => (p.goTo .stopped, s)) := by
    intro hno
    have hfirst : Leads (pidStep call) (p.goTo (.search r 0), s) _ := leads_search (Nat.zero_add _)
    rw [← List.range_eq_range'] at hfirst
    rw [getPidMetaInd, if_neg hno]
    cases hown : (List.range maxExecHanging).find? (fun j => (s j).pid == p.pid) with
    | some j =>
        rw [hown] at hfirst
        exact hfirst
    | none =>
        have hsecond : Leads (pidStep call) (p.goTo (.searchNew r 0), s) _ :=
          leads_new (Nat.zero_add _)
        rw [← List.range_eq_range'] at hsecond
        rw [hown] at hfirst
        refine hfirst.trans ?_
        dsimp only [getNewPidMetaInd]
        cases hnew : (List.range maxExecHanging).find? (fun i => (s i).pid == 0 && !(s i).lock) with
        | some k =>
            rw [hnew] at hsecond
            exact hsecond
        | none =>
            rw [hnew] at hsecond
            exact hsecond
  rw [PidProc.enter, hset]
  cases hind : im.pidMetaIndSet with
  | false => exact hsearch (by rw [hind]; simp)
  | true =>
      by_cases hpid : (s im.pidMetaInd).pid = p.pid
      · have hhit : (im.pidMetaIndSet && (s im.pidMetaInd).pid == p.pid) = true := by simp [hind, hpid]
        have hstep : pidStep call (p.goTo (.checkInd r)) s = some (p.return r p.pidMetaInd, s) :=
          if_pos (show (s p.pidMetaInd).pid = p.pid by rw [him, hpid])
        rw [getPidMetaInd, if_pos hhit]
        refine .step hstep (.of_eq (Prod.ext ?_ rfl))
        cases r <;> simp [PidProc.return, PidProc.goTo, him, hset]
      · have hmiss : ¬ (s p.pidMetaInd).pid = p.pid := by rwa [him]
        exact .step (if_neg hmiss) (hsearch (by simp [hpid]))

variable {has : List Nat}

theorem getPidMetaInd_alone (hget : getPidMetaInd me im s = some (im', s')) :
    Leads (pidStep .getPidMetaInd) (⟨me, im.pidMetaInd, im.pidMetaIndSet, .idle, has⟩, s)
      (⟨me, im'.pidMetaInd, im'.pidMetaIndSet, .idle, im'.pidMetaInd :: has⟩, s') := by
  have hrun := leads_getPidMetaInd .getPidMetaInd
    ⟨me, im.pidMetaInd, im.pidMetaIndSet, .idle, has⟩ false im s rfl rfl rfl
  rw [hget] at hrun
  exact .step rfl hrun

theorem removePidSlot_alone (hremove : removePidSlot me im s = some s') :
    ∃ im' : Image, Leads (pidStep .removePidSlot)
      (⟨me, im.pidMetaInd, im.pidMetaIndSet, .idle, has⟩, s)
      (⟨me, im'.pidMetaInd, im'.pidMetaIndSet, .idle, []⟩, s') := by
  have hrun := leads_getPidMetaInd .removePidSlot
    ⟨me, im.pidMetaInd, im.pidMetaIndSet, .idle, []⟩ true im s rfl rfl rfl
  rw [removePidSlot] at hremove
  cases hget : getPidMetaInd me im s with
  | none =>
      rw [hget] at hremove
      cases hremove
  | some x =>
      obtain ⟨im', s₁⟩ := x
      rw [hget] at hremove hrun
      obtain rfl := Option.some.inj hremove
      have hclear : (s₁.set im'.pidMetaInd (fun pi => { pi with pid := 0 })).set im'.pidMetaInd
          (fun pi => { pi with
            fdsBackedUp := false, firstParentSignaled := false, vforked := false }) =
          s₁.set im'.pidMetaInd clearSlot := by
        simp only [PidMeta.set, Function.update_self, Function.update_idem]
        rfl
      exact ⟨im', (Leads.step rfl hrun).trans
        (.step rfl (.step rfl (.of_eq (Prod.ext rfl hclear))))⟩

end Spacefish
