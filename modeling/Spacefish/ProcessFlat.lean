import Spacefish.FlatFlush
import Spacefish.ProcessRuns

/-!
Processes on the flat files. In this model a process has the paths it has open and the
process id it remembers; a new program keeps what the old one had open. The slots, the
tables in shared memory and the constructor of the library are not part of it.
-/

namespace Spacefish

open LinkedArray Program Buffer

/-! The model. -/

inductive FlatTask where
  | none
  | loaded (execed : Bool)
  /-- The process remembers the process id `pid`. -/
  | running (pid : Nat)
  deriving DecidableEq

def Task.flat : Task → FlatTask
  | .none => .none
  | .loaded execed => .loaded execed
  | .running im => .running im.pid

/-- The files and what the processes have open, what runs under each process id, and the
process ids whose name for a table is taken. -/
structure FlatLife where
  flat : Flat
  tasks : Nat → FlatTask
  saved : Nat → Bool

def FlatLife.boot (a : Flat) : FlatLife := ⟨a, fun _ => .none, fun _ => false⟩

/-- Process `me`, which remembers the process id `p`, ends by `exit`. It takes the table from
a program that waits for its start under that process id. -/
def FlatLife.finish (a : FlatLife) (me p : Nat) : FlatLife where
  flat := { a.flat with
    fds := fun q i =>
      if q = me ∨ q = p ∧ a.tasks q = .loaded true then startFds i else a.flat.fds q i }
  tasks := Function.update a.tasks me .none
  saved := Function.update a.saved p false

/-- The path of a program cannot be built or looked up. -/
def PathFails (env : Env) (path : Path) : Prop := ∃ u, PathExit env path u

/-- `FlatLifeStep a ev out a'`: the step, taken in `a`, ends with `out` and leaves `a'`. -/
inductive FlatLifeStep (a : FlatLife) : LifeEvent → LifeOut → FlatLife → Prop where
  | call {e : Event} {p : Nat} {r : Ret} {f : Flat} (htask : a.tasks e.pid = .running p)
      (hstep : NameStep a.flat e (.ret r) f) : FlatLifeStep a (.call e) (.ret r) { a with flat := f }
  | callEnds {e : Event} {p : Nat} {u : UErr} {f : Flat} (htask : a.tasks e.pid = .running p)
      (hstep : NameStep a.flat e (.halt (.exit u)) f) :
      FlatLifeStep a (.call e) .ended (FlatLife.finish { a with flat := f } e.pid p)
  /-- The child has the files of the parent open, and remembers what the parent remembers. -/
  | fork {me child p : Nat} (htask : a.tasks me = .running p) (hfree : a.tasks child = .none) :
      FlatLifeStep a (.fork me child) .done
        { a with
          flat := { a.flat with fds := Function.update a.flat.fds child (a.flat.fds me) }
          tasks := Function.update a.tasks child (.running p) }
  /-- The program keeps what the process has open. Its file is written to the disk first, if
  it is one of the file system. -/
  | loaded {me p : Nat} {env : Env} {path q : Path} (htask : a.tasks me = .running p)
      (hsaved : a.saved me = false) (hpath : absPath env path = .ok q) :
      FlatLifeStep a (.exec me env path true)
        (.loaded ((a.flat.files q).map (fun f => (q, flushed env.junk f.content))))
        { a with
          tasks := Function.update a.tasks me (.loaded true)
          saved := Function.update a.saved me true }
  | execEnds {me p : Nat} {env : Env} {path : Path} {found : Bool} (htask : a.tasks me = .running p)
      (hwhy : a.saved me = true ∨ PathFails env path ∨ found = false) :
      FlatLifeStep a (.exec me env path found) .ended (a.finish me me)
  | spawn {me : Nat} (hfree : a.tasks me = .none) :
      FlatLifeStep a (.spawn me) .done
        { a with tasks := Function.update a.tasks me (.loaded false) }
  | start {me : Nat} {env : Env} {execed : Bool} (htask : a.tasks me = .loaded execed)
      (hsaved : execed = true → a.saved me = true) :
      FlatLifeStep a (.start me env) .done { a with tasks := Function.update a.tasks me (.running me) }
  | startEnds {me : Nat} {env : Env} (htask : a.tasks me = .loaded true)
      (hsaved : a.saved me = false) : FlatLifeStep a (.start me env) .ended (a.finish me me)
  | exit {me p : Nat} (htask : a.tasks me = .running p) :
      FlatLifeStep a (.exit me) .ended (a.finish me p)
  | kill {me : Nat} (htask : a.tasks me ≠ .none) :
      FlatLifeStep a (.kill me) .done
        { a with flat := a.flat.leave me, tasks := Function.update a.tasks me .none }

/-- The events end with the given results one after the other. -/
def FlatLifeRun : FlatLife → List LifeEvent → List LifeOut → FlatLife → Prop
  | a, [], [], a' => a' = a
  | a, ev :: es, out :: outs, a' => ∃ a₁, FlatLifeStep a ev out a₁ ∧ FlatLifeRun a₁ es outs a'
  | _, _, _, _ => False

/-! The relation. -/

/-- The tables of the processes, the one of a program that waits for its start taken from
shared memory. -/
def Life.heldFds (l : Life) (q : Nat) : Nat → FdInfo :=
  match l.tasks q with
  | .loaded true => (l.backups q).getD initFdTable
  | _ => l.sys.fds q

def Life.held (l : Life) : Sys := { l.sys with fds := l.heldFds }

structure LifeRep (l : Life) (rows : Nat → List Int) (ch : Int → List Nat) (a : FlatLife) : Prop where
  inv : LifeInv l
  flat : FlatInv l.held rows ch a.flat
  tasks : ∀ p, a.tasks p = (l.tasks p).flat
  saved : ∀ p, a.saved p = (l.backups p).isSome
  idle : ∀ p, (∀ im, l.tasks p ≠ .running im) → l.sys.fds p = initFdTable
  fresh : ∀ p, l.tasks p = .loaded false → ¬ BackedUp l.pidMeta p

variable {l l' : Life} {a a' : FlatLife} {rows rows' : Nat → List Int} {ch ch' : Int → List Nat}
  {s : Sys} {b : Flat} {me pid p q : Nat} {im : Image} {out : LifeOut} {ev : LifeEvent} {e : Event}
  {env : Env} {path : Path} {w : World} {o : Out} {file : Option (Path × List Byte)}

/-- Processes whose tables are tables of the other processes, or empty. -/
theorem FlatInv.tables {fds : Nat → Nat → FdInfo} {g : Nat → Nat → FlatFd}
    (hinv : FlatInv s rows ch b)
    (hfrom : ∀ q, (fds q = initFdTable ∧ ∀ i, g q i = startFds i) ∨
      ∃ p, fds q = s.fds p ∧ ∀ i, g q i = b.fds p i) :
    FlatInv { s with fds := fds } rows ch { b with fds := g } := by
  have hheld : ∀ m, Held { s with fds := fds } m → Held s m := by
    rintro m ⟨q, i, hempty, hexcl, hm⟩
    rcases hfrom q with ⟨hq, _⟩ | ⟨p, hq, _⟩
    · have huser : (initFdTable i).isUser = true := by
        rw [← hq]
        exact FdInfo.isUser_iff.mpr ⟨hexcl, hempty⟩
      rw [initFdTable_unopened i] at huser
      cases huser
    · have hqi : fds q i = s.fds p i := congrFun hq i
      exact ⟨p, i, hqi ▸ hempty, hqi ▸ hexcl, hqi ▸ hm⟩
  refine ⟨⟨⟨hinv.rep.wf.store, fun q i => ?_⟩, hinv.rep.sized, hinv.rep.live,
    fun m hm => hinv.rep.placed m (hheld m hm)⟩, hinv.named, hinv.idle, hinv.tight,
    ⟨hinv.sim.toFilesAre.recore rfl (fun _ => rfl), fun q i => ?_⟩⟩
  · change SlotOk _ i (fds q i)
    rcases hfrom q with ⟨hq, _⟩ | ⟨p, hq, _⟩
    · rw [hq]
      exact initFd_slotOk _ i
    · rw [hq]
      exact hinv.rep.wf.slots p i
  · change g q i = (fds q i).flat s.table
    rcases hfrom q with ⟨hq, hg⟩ | ⟨p, hq, hg⟩
    · rw [hq, hg]
      exact (initFd_flat _ i).symm
    · rw [hq, hg]
      exact hinv.sim.fds p i

/-! The program files. -/

/-- What `exec_file_in_shm` writes. -/
theorem FlatInv.execFileInShm (hinv : FlatInv s rows ch b) (env : Env) (path : Path) (pid : Nat) :
    Ends (Spacefish.execFileInShm env path (s.view pid))
      (fun file w => w = s.view pid ∧ ∃ q, absPath env path = .ok q ∧
        file = (b.files q).map (fun f => (q, flushed env.junk f.content)))
      (fun h w => w = s.view pid ∧ ∀ u, h = .exit u → PathFails env path) := by
  unfold Spacefish.execFileInShm
  rcases absPath_cases env path with ⟨q, hpath, hrun⟩ | ⟨h, _, herr, hrun⟩
  swap
  · rw [bind_of_error (hrun _)]
    exact ⟨rfl, fun u hu => ⟨u, Or.inl (hu ▸ herr)⟩⟩
  rw [bind_of_ok (hrun _)]
  rcases hash_cases q with ⟨h, _, hok⟩ | herr
  swap
  · have hlook : onMeta (getMbucket q) (s.view pid) =
        .error (.exit .badHashFunctionInput) (s.view pid) :=
      zoom_of_error (by rw [getMbucket, hashRow_error herr]; rfl)
    rw [bind_of_error hlook]
    exact ⟨rfl, fun u hu => ⟨_, Or.inr ⟨q, hpath, herr⟩⟩⟩
  have hlook : onMeta (getMbucket q) (s.view pid) =
      .ok (findPath s.table q (rows h)) (s.view pid) :=
    onMeta_of_ok (hinv.tableWf.getMbucket_eq hok (hinv.idle h))
  rw [bind_of_ok hlook]
  cases hfind : findPath s.table q (rows h) with
  | none =>
      have hnone := hinv.absent hok hfind
      exact ⟨rfl, q, hpath, by rw [hnone]; rfl⟩
  | some m =>
      obtain ⟨hm, hmq⟩ := hinv.found_path hok hfind
      obtain ⟨f, hfile, hf⟩ := hinv.sim.file m hm
      rw [hmq] at hfile
      have hwrite := hinv.writeToDisk hm hf env pid
      dsimp only
      rw [bind_of_ok hwrite]
      refine ⟨rfl, q, hpath, ?_⟩
      rw [hfile, show ((s.view pid).table.mb m).path = q from hmq]
      rfl

/-! The steps. -/

theorem heldFds_running (htask : l.tasks p = .running im) : l.heldFds p = l.sys.fds p := by
  rw [Life.heldFds, htask]

theorem heldFds_loaded (htask : l.tasks p = .loaded true) :
    l.heldFds p = (l.backups p).getD initFdTable := by
  rw [Life.heldFds, htask]

theorem heldFds_of_ne (htask : l.tasks p ≠ .loaded true) : l.heldFds p = l.sys.fds p := by
  rw [Life.heldFds]
  split
  · next heq => exact absurd heq htask
  · rfl

theorem heldFds_congr (htask : l'.tasks q = l.tasks q) (hfds : l'.sys.fds q = l.sys.fds q)
    (hback : l'.backups q = l.backups q) : l'.heldFds q = l.heldFds q := by
  rw [Life.heldFds, Life.heldFds, htask, hfds, hback]

theorem held_view (htask : l.tasks p = .running im) : l.held.view p = l.sys.view p := by
  change World.mk l.sys.table l.sys.data (l.heldFds p) = _
  rw [heldFds_running htask]
  rfl

/-- A call does in the tables that are held what it does in the tables of the processes. -/
theorem exec_held {b : Build} (htask : l.tasks e.pid = .running im) (hexec : exec b l.sys e = (o, s)) :
    exec b l.held e = (o, { l with sys := s }.held) := by
  have hfds : ∀ w : World, Function.update l.heldFds e.pid w.fdTable =
      Life.heldFds { l with sys := l.sys.put e.pid w } := by
    intro w
    funext q
    rw [Function.update_apply]
    split
    · next hq =>
      rw [hq, heldFds_running (l := { l with sys := l.sys.put e.pid w }) htask]
      change w.fdTable = Function.update l.sys.fds e.pid w.fdTable e.pid
      rw [Function.update_self]
    · next hq =>
      rw [Life.heldFds, Life.heldFds]
      dsimp only
      rw [show (l.sys.put e.pid w).fds q = l.sys.fds q from Function.update_of_ne hq _ _]
  have hput : ∀ w : World, l.held.put e.pid w = Life.held { l with sys := l.sys.put e.pid w } :=
    fun w => congrArg (Sys.mk w.table w.data) (hfds w)
  rw [exec] at hexec ⊢
  rw [held_view htask]
  split at hexec
  · next r w hrun =>
    obtain ⟨rfl, rfl⟩ := Prod.mk.inj hexec
    exact congrArg (Prod.mk _) (hput w)
  · next h w hrun =>
    obtain ⟨rfl, rfl⟩ := Prod.mk.inj hexec
    exact congrArg (Prod.mk _) (hput _)

/-- The tables after the end of a process. -/
theorem Ended.flat {t : MetaShm} {d : DataShm} (hend : Ended l me p t d l')
    (hinv : FlatInv ⟨t, d, l.heldFds⟩ rows ch a.flat) (htasks : ∀ q, a.tasks q = (l.tasks q).flat) :
    FlatInv l'.held rows ch (a.finish me p).flat := by
  have hsys : l'.held = { (⟨t, d, l.heldFds⟩ : Sys) with fds := l'.heldFds } := by
    rw [Life.held, hend.sys]
  rw [hsys]
  refine hinv.tables (fun q => ?_)
  have htask : q ≠ me → l'.tasks q = l.tasks q := by
    intro hq
    rw [hend.tasks]
    exact Function.update_of_ne hq _ _
  have hfds : q ≠ me → l'.sys.fds q = l.sys.fds q := by
    intro hq
    rw [hend.sys]
    exact Function.update_of_ne hq _ _
  by_cases hq : q = me
  · left
    have hnone : l'.tasks q = .none := by
      rw [hend.tasks, hq]
      exact Function.update_self ..
    rw [heldFds_of_ne (by rw [hnone]; simp), hend.sys, hq]
    exact ⟨Function.update_self .., fun i => if_pos (Or.inl rfl)⟩
  · by_cases htaken : q = p ∧ a.tasks q = .loaded true
    · left
      obtain ⟨rfl, htask'⟩ := htaken
      have hloaded : l.tasks q = .loaded true := by
        rw [htasks] at htask'
        cases hq' : l.tasks q with
        | loaded execed =>
            rw [hq'] at htask'
            exact congrArg Task.loaded (FlatTask.loaded.inj htask')
        | _ =>
            rw [hq'] at htask'
            cases htask'
      rw [heldFds_loaded ((htask hq).trans hloaded), hend.backups, Function.update_self]
      exact ⟨rfl, fun i => if_pos (Or.inr ⟨rfl, htask'⟩)⟩
    · right
      refine ⟨q, ?_, fun i => if_neg (fun h => h.elim hq htaken)⟩
      change l'.heldFds q = l.heldFds q
      by_cases hloaded : l.tasks q = .loaded true
      · have hqp : q ≠ p := by
          rintro rfl
          exact htaken ⟨rfl, by rw [htasks, hloaded]; rfl⟩
        rw [heldFds_loaded ((htask hq).trans hloaded), heldFds_loaded hloaded, hend.backups,
          Function.update_of_ne hqp]
      · rw [heldFds_of_ne (by rw [htask hq]; exact hloaded), heldFds_of_ne hloaded, hfds hq]

/-- The parts of the relation that a step of process `me` changes at `me` only. -/
theorem LifeRep.next {fds : Nat → FdInfo} (hrep : LifeRep l rows ch a) (me : Nat) (task : Task)
    (hinv : LifeInv l') (hflat : FlatInv l'.held rows ch a'.flat)
    (hslots : SlotsKept me l.pidMeta l'.pidMeta) (htasks : l'.tasks = Function.update l.tasks me task)
    (hfds : l'.sys.fds = Function.update l.sys.fds me fds)
    (hidle : (∀ im, task ≠ .running im) → fds = initFdTable)
    (hfresh : task = .loaded false → ¬ BackedUp l'.pidMeta me)
    (htask : a'.tasks = Function.update a.tasks me task.flat)
    (hsaved : ∀ p, a'.saved p = (l'.backups p).isSome) : LifeRep l' rows ch a' := by
  refine ⟨hinv, hflat, fun p => ?_, hsaved, fun p hp => ?_, fun p hp => ?_⟩
  · rw [htask, htasks]
    by_cases hpm : p = me
    · rw [hpm, Function.update_self, Function.update_self]
    · rw [Function.update_of_ne hpm, Function.update_of_ne hpm]
      exact hrep.tasks p
  · rw [htasks] at hp
    rw [hfds]
    by_cases hpm : p = me
    · rw [hpm, Function.update_self] at hp ⊢
      exact hidle hp
    · rw [Function.update_of_ne hpm] at hp ⊢
      exact hrep.idle p hp
  · rw [htasks] at hp
    by_cases hpm : p = me
    · rw [hpm, Function.update_self] at hp
      rw [hpm]
      exact hfresh hp
    · rw [Function.update_of_ne hpm] at hp
      have hzero : p ≠ 0 := hrep.inv.nonzero (by rw [hp]; simp)
      exact fun hup => hrep.fresh p hp ((hslots.others p hzero hpm).1.mp hup)

/-- The end of a process. -/
theorem LifeRep.ended (hrep : LifeRep l rows ch a) (hend : Ended l me p l.sys.table l.sys.data l')
    (hme : me ≠ 0) : LifeRep l' rows ch (a.finish me p) := by
  refine hrep.next _ _ (hend.lifeInv hrep.inv hme) (hend.flat hrep.flat hrep.tasks) hend.slots hend.tasks
    (by rw [hend.sys]) (fun _ => rfl) (fun h => nomatch h) rfl (fun q => ?_)
  rw [hend.backups]
  change Function.update a.saved p false q = _
  rw [Function.update_apply, Function.update_apply]
  split
  · rfl
  · exact hrep.saved q

/-- The calls are admitted as before, with the tables that wait in shared memory counted among
the open ones, and a process id that is used again by a program from outside has no table
left. -/
def LifeAllowed (l : Life) : LifeEvent → Prop
  | .call e => NameAllowed l.held e (Spacefish.exec defaultBuild l.held e).1
  | .spawn me => ¬ BackedUp l.pidMeta me
  | _ => True

theorem LifeRep.flat_running (hrep : LifeRep l rows ch a) (htask : l.tasks me = .running im) :
    a.tasks me = .running im.pid := by
  rw [hrep.tasks, htask]
  rfl

theorem LifeRep.flat_loaded {execed : Bool} (hrep : LifeRep l rows ch a)
    (htask : l.tasks me = .loaded execed) : a.tasks me = .loaded execed := by
  rw [hrep.tasks, htask]
  rfl

theorem exec_others {b : Build} {s' : Sys} (hexec : Spacefish.exec b s e = (o, s')) (hq : q ≠ e.pid) :
    s'.fds q = s.fds q := by
  rw [Spacefish.exec] at hexec
  split at hexec
  · obtain ⟨_, rfl⟩ := Prod.mk.inj hexec
    exact Function.update_of_ne hq _ _
  · obtain ⟨_, rfl⟩ := Prod.mk.inj hexec
    exact Function.update_of_ne hq _ _

theorem LifeRep.call (hrep : LifeRep l rows ch a) (htask : l.tasks e.pid = .running im)
    (hallow : NameAllowed l.held e (Spacefish.exec defaultBuild l.held e).1)
    (hexec : Spacefish.exec defaultBuild l.sys e = (o, s)) :
    ∃ b rows' ch', NameStep a.flat e o b ∧
      LifeRep { l with sys := s } rows' ch' { a with flat := b } := by
  have hheld := exec_held htask hexec
  rw [hheld] at hallow
  obtain ⟨b, rows', ch', hstep, hflat⟩ := hrep.flat.nameStep hallow hheld
  refine ⟨b, rows', ch', hstep, ⟨hrep.inv.slots, hrep.inv.ind, hrep.inv.zero, hrep.inv.execed,
    hrep.inv.flags.exec hexec, hrep.inv.saved⟩, hflat, hrep.tasks, hrep.saved, fun p hp => ?_,
    hrep.fresh⟩
  have hpe : p ≠ e.pid := by
    rintro rfl
    exact hp im htask
  exact (exec_others hexec hpe).trans (hrep.idle p hp)

theorem LifeRep.fork {child : Nat} (hrep : LifeRep l rows ch a) (htask : l.tasks me = .running im)
    (hfree : l.tasks child = .none) (hchild : child ≠ 0) :
    LifeRep ((l.setFds child (l.sys.fds me)).setTask child (.running im)) rows ch
      { a with
        flat := { a.flat with fds := Function.update a.flat.fds child (a.flat.fds me) }
        tasks := Function.update a.tasks child (.running im.pid) } := by
  have hinv := (LifeCase.fork (b := defaultBuild) htask hfree hchild).lifeInv hrep.inv
  refine hrep.next child (.running im) hinv ?_ (.refl hrep.inv.slots) rfl rfl
    (fun h => absurd rfl (h im)) (fun h => nomatch h) rfl hrep.saved
  refine hrep.flat.tables (fun q => Or.inr ?_)
  by_cases hq : q = child
  · refine ⟨me, ?_, fun i => ?_⟩
    · rw [heldFds_running (by rw [hq]; exact Function.update_self ..), hq]
      change Function.update l.sys.fds child (l.sys.fds me) child = l.heldFds me
      rw [Function.update_self, heldFds_running htask]
    · rw [hq, Function.update_self]
  · exact ⟨q, heldFds_congr (Function.update_of_ne hq _ _) (Function.update_of_ne hq _ _) rfl,
      fun i => by rw [Function.update_of_ne hq]⟩

/-- The tables that are held stay the same where process `me` only hands its table on. -/
theorem LifeRep.same_held {task : Task} {fds : Nat → FdInfo} (hrep : LifeRep l rows ch a)
    (hsys : l'.sys = ⟨l.sys.table, l.sys.data, Function.update l.sys.fds me fds⟩)
    (htasks : l'.tasks = Function.update l.tasks me task)
    (hself : l'.heldFds me = l.heldFds me) (hback : ∀ q, q ≠ me → l'.backups q = l.backups q) :
    FlatInv l'.held rows ch a.flat := by
  have hfds : l'.heldFds = l.heldFds := by
    funext q
    by_cases hq : q = me
    · rw [hq, hself]
    · refine heldFds_congr ?_ ?_ (hback q hq)
      · rw [htasks, Function.update_of_ne hq]
      · rw [hsys]
        exact Function.update_of_ne hq _ _
  have hheld : l'.held = l.held := by
    rw [Life.held, Life.held, hfds, hsys]
  rw [hheld]
  exact hrep.flat

theorem LifeRep.loaded (hrep : LifeRep l rows ch a) (htask : l.tasks me = .running im)
    (hhand : LeftTable l me (l.sys.view me) l') (hinv : LifeInv l') :
    LifeRep l' rows ch { a with
      tasks := Function.update a.tasks me (.loaded true)
      saved := Function.update a.saved me true } := by
  refine hrep.next _ _ hinv ?_ hhand.slots hhand.tasks (by rw [hhand.sys]) (fun _ => rfl)
    (fun h => nomatch Task.loaded.inj h) rfl (fun q => ?_)
  · refine hrep.same_held hhand.sys hhand.tasks ?_ (fun q hq => ?_)
    · rw [heldFds_loaded (by rw [hhand.tasks]; exact Function.update_self ..), hhand.backups,
        Function.update_self, heldFds_running htask]
      rfl
    · rw [hhand.backups]
      exact Function.update_of_ne hq _ _
  · change Function.update a.saved me true q = _
    rw [hhand.backups, Function.update_apply, Function.update_apply]
    split
    · rfl
    · exact hrep.saved q

theorem LifeRep.started {fds : Nat → FdInfo} (hrep : LifeRep l rows ch a)
    (hstart : Started l me fds l') (hself : fds = l.heldFds me) (hinv : LifeInv l') :
    LifeRep l' rows ch { a with tasks := Function.update a.tasks me (.running me) } := by
  obtain ⟨k, _, htasks⟩ := hstart.tasks
  refine hrep.next _ _ hinv ?_ hstart.slots htasks (by rw [hstart.sys]) (fun h => absurd rfl (h _))
    (fun h => nomatch h) rfl (fun q => by rw [hstart.backups]; exact hrep.saved q)
  refine hrep.same_held hstart.sys htasks ?_ (fun q _ => by rw [hstart.backups])
  rw [heldFds_running (by rw [htasks]; exact Function.update_self ..), hstart.sys, ← hself]
  exact Function.update_self ..

theorem LifeRep.spawn (hrep : LifeRep l rows ch a) (hfree : l.tasks me = .none) (hme : me ≠ 0)
    (hfresh : ¬ BackedUp l.pidMeta me) :
    LifeRep (l.setTask me (.loaded false)) rows ch
      { a with tasks := Function.update a.tasks me (.loaded false) } := by
  have hinv := (LifeCase.spawn (b := defaultBuild) hfree hme).lifeInv hrep.inv
  have hsame : Function.update l.sys.fds me (l.sys.fds me) = l.sys.fds := Function.update_eq_self ..
  have hsys : (l.setTask me (.loaded false)).sys =
      ⟨l.sys.table, l.sys.data, Function.update l.sys.fds me (l.sys.fds me)⟩ := by
    rw [hsame]
    rfl
  refine hrep.next me (.loaded false) hinv ?_ (.refl hrep.inv.slots) rfl hsame.symm
    (fun _ => hrep.idle me (by rw [hfree]; simp)) (fun _ => hfresh) rfl hrep.saved
  refine hrep.same_held hsys rfl ?_ (fun _ _ => rfl)
  have hnew : (l.setTask me (.loaded false)).tasks me ≠ .loaded true := by
    rw [show (l.setTask me (.loaded false)).tasks me = .loaded false from Function.update_self ..]
    simp
  rw [heldFds_of_ne hnew, heldFds_of_ne (by rw [hfree]; simp)]
  rfl

theorem LifeRep.kill (hrep : LifeRep l rows ch a) (htask : l.tasks me ≠ .none) :
    LifeRep (l.drop me .none) rows ch
      { a with flat := a.flat.leave me, tasks := Function.update a.tasks me .none } := by
  have hinv := (LifeCase.kill (b := defaultBuild) htask).lifeInv hrep.inv
  refine hrep.next me .none hinv ?_ (.refl hrep.inv.slots) rfl rfl (fun _ => rfl)
    (fun h => nomatch h) rfl hrep.saved
  refine hrep.flat.tables (fun q => ?_)
  by_cases hq : q = me
  · left
    rw [hq, heldFds_of_ne]
    · refine ⟨Function.update_self .., fun i => ?_⟩
      rw [Function.update_self]
    · rw [show (l.drop me .none).tasks me = .none from Function.update_self ..]
      simp
  · exact Or.inr ⟨q, heldFds_congr (Function.update_of_ne hq _ _) (Function.update_of_ne hq _ _) rfl,
      fun i => by rw [Function.update_of_ne hq]⟩

/-- What `exec_file_in_shm` does in the tables of a running process. -/
theorem LifeRep.execFile (hrep : LifeRep l rows ch a) (htask : l.tasks me = .running im)
    (env : Env) (path : Path) :
    Ends (execFileInShm env path (l.sys.view me))
      (fun file w => w = l.sys.view me ∧ ∃ q, absPath env path = .ok q ∧
        file = (a.flat.files q).map (fun f => (q, flushed env.junk f.content)))
      (fun h w => w = l.sys.view me ∧ ∀ u, h = .exit u → PathFails env path) := by
  have hends := hrep.flat.execFileInShm env path me
  rw [held_view htask] at hends
  exact hends

theorem LifeRep.execFails {found : Bool} {t : MetaShm} {d : DataShm} (hrep : LifeRep l rows ch a)
    (htask : l.tasks me = .running im) (hfails : ExecFails l me env path found t d) :
    t = l.sys.table ∧ d = l.sys.data ∧
      (a.saved me = true ∨ PathFails env path ∨ found = false) := by
  have hfile := hrep.execFile htask env path
  cases hfails with
  | taken hsaved => exact ⟨rfl, rfl, Or.inl (by rw [hrep.saved, hsaved]; rfl)⟩
  | path hsaved hrun =>
      rw [hrun] at hfile
      obtain ⟨rfl, hwhy⟩ := hfile
      exact ⟨rfl, rfl, Or.inr (Or.inl (hwhy _ rfl))⟩
  | lost hsaved hrun hfound =>
      rw [hrun] at hfile
      obtain ⟨rfl, _⟩ := hfile
      exact ⟨rfl, rfl, Or.inr (Or.inr hfound)⟩

/-- Every admitted step is a step of the model. -/
theorem LifeRep.step (hrep : LifeRep l rows ch a) (hallow : LifeAllowed l ev)
    (hstep : lifeStep defaultBuild l ev = some (out, l')) :
    ∃ a' rows' ch', FlatLifeStep a ev out a' ∧ LifeRep l' rows' ch' a' := by
  have hcase := hrep.inv.cases hstep
  have hinv := hcase.lifeInv hrep.inv
  cases hcase with
  | call htask hexec =>
      obtain ⟨b, rows', ch', hname, hrep'⟩ := hrep.call htask hallow hexec
      exact ⟨_, rows', ch', .call (hrep.flat_running htask) hname, hrep'⟩
  | callEnds htask hexec hend =>
      obtain ⟨b, rows', ch', hname, hrep'⟩ := hrep.call htask hallow hexec
      exact ⟨_, rows', ch', .callEnds (hrep.flat_running htask) hname,
        hrep'.ended hend (hrep.inv.nonzero (by rw [htask]; simp))⟩
  | @fork me child im htask hfree hchild =>
      refine ⟨_, rows, ch, .fork (hrep.flat_running htask) ?_, hrep.fork htask hfree hchild⟩
      rw [hrep.tasks, hfree]
      rfl
  | @loaded me im env path file w _ htask hsaved hfile hhand =>
      have hends := hrep.execFile htask env path
      rw [hfile] at hends
      obtain ⟨rfl, q, hpath, rfl⟩ := hends
      refine ⟨_, rows, ch, .loaded (hrep.flat_running htask) ?_ hpath, hrep.loaded htask hhand hinv⟩
      rw [hrep.saved, hsaved]
      rfl
  | execEnds htask hfails hend =>
      obtain ⟨rfl, rfl, hwhy⟩ := hrep.execFails htask hfails
      exact ⟨_, rows, ch, .execEnds (hrep.flat_running htask) hwhy,
        hrep.ended hend (hrep.inv.nonzero (by rw [htask]; simp))⟩
  | spawn hfree hme =>
      refine ⟨_, rows, ch, .spawn ?_, hrep.spawn hfree hme hallow⟩
      rw [hrep.tasks, hfree]
      rfl
  | @fresh me env execed _ htask hclear hstart =>
      have hexeced : execed = false := by
        rw [Bool.eq_false_iff]
        rintro rfl
        exact hclear (hrep.inv.execed me htask)
      subst hexeced
      have hself : initFdTable = l.heldFds me := by
        rw [heldFds_of_ne (by rw [htask]; simp), hrep.idle me (by rw [htask]; simp)]
      exact ⟨_, rows, ch, .start (hrep.flat_loaded htask) (fun h => absurd h Bool.false_ne_true),
        hrep.started hstart hself hinv⟩
  | @restored me env execed fds _ htask hup hsaved hstart =>
      have hexeced : execed = true := by
        cases execed with
        | true => rfl
        | false => exact absurd hup (hrep.fresh me htask)
      subst hexeced
      have hself : fds = l.heldFds me := by
        rw [heldFds_loaded htask, hsaved]
        rfl
      refine ⟨_, rows, ch, .start (hrep.flat_loaded htask) (fun _ => ?_),
        hrep.started hstart hself hinv⟩
      rw [hrep.saved, hsaved]
      rfl
  | @startEnds me env execed _ htask hup hsaved hend =>
      have hexeced : execed = true := by
        cases execed with
        | true => rfl
        | false => exact absurd hup (hrep.fresh me htask)
      subst hexeced
      refine ⟨_, rows, ch, .startEnds (hrep.flat_loaded htask) ?_,
        hrep.ended hend (hrep.inv.nonzero (by rw [htask]; simp))⟩
      rw [hrep.saved, hsaved]
      rfl
  | exit htask hend =>
      exact ⟨_, rows, ch, .exit (hrep.flat_running htask),
        hrep.ended hend (hrep.inv.nonzero (by rw [htask]; simp))⟩
  | @kill me htask =>
      refine ⟨_, rows, ch, .kill ?_, hrep.kill htask⟩
      rw [hrep.tasks]
      cases htask' : l.tasks me with
      | none => exact absurd htask' htask
      | _ => simp [Task.flat]

/-- Every step of the events is admitted. -/
def LifeAlong : Life → List LifeEvent → Prop
  | _, [] => True
  | l, ev :: es => LifeAllowed l ev ∧
      ∀ out l₁, lifeStep defaultBuild l ev = some (out, l₁) → LifeAlong l₁ es

theorem LifeRep.run {es : List LifeEvent} {outs : List LifeOut} (hrep : LifeRep l rows ch a)
    (hes : LifeAlong l es) (hrun : LifeRun defaultBuild l es outs l') :
    ∃ a' rows' ch', FlatLifeRun a es outs a' ∧ LifeRep l' rows' ch' a' := by
  induction es generalizing l outs rows ch a with
  | nil =>
      cases outs with
      | cons _ _ => exact hrun.elim
      | nil =>
          obtain rfl : l' = l := hrun
          exact ⟨a, rows, ch, rfl, hrep⟩
  | cons ev es ih =>
      cases outs with
      | nil => exact hrun.elim
      | cons out outs =>
          obtain ⟨l₁, hstep, hrest⟩ := hrun
          obtain ⟨hallow, hes⟩ := hes
          obtain ⟨a₁, rows₁, ch₁, hflat, hrep₁⟩ := hrep.step hallow hstep
          obtain ⟨a', rows', ch', hruns, hrep'⟩ := ih hrep₁ (hes out l₁ hstep) hrest
          exact ⟨a', rows', ch', ⟨a₁, hflat, hruns⟩, hrep'⟩

theorem boot_rep : LifeRep (Life.boot initSys) (fun _ => []) (fun _ => []) (.boot .start) := by
  refine ⟨boot_lifeInv (fun _ => rfl), initSys_flatInv, fun _ => rfl, fun _ => rfl, fun _ _ => rfl,
    fun _ h => nomatch h⟩

/-- The results of every run of processes that call, fork, replace themselves and end are
results of the model, and the state it reaches represents the files and what each process has
open. -/
theorem processes_refine_flat {es : List LifeEvent} {outs : List LifeOut}
    (hes : LifeAlong (Life.boot initSys) es)
    (hrun : LifeRun defaultBuild (Life.boot initSys) es outs l) :
    ∃ a, FlatLifeRun (.boot .start) es outs a ∧ Represents l.held a.flat ∧
      ∀ p, a.tasks p = (l.tasks p).flat := by
  obtain ⟨a, _, _, hflat, hrep⟩ := boot_rep.run hes hrun
  exact ⟨a, hflat, hrep.flat.sim, hrep.tasks⟩

theorem boot_not_backedUp : ¬ BackedUp (Life.boot s).pidMeta p := by
  rintro ⟨_, _, _, hup⟩
  cases hup

/-- Process 1 uploads a program that its child then runs. -/
def runsUploaded : List LifeEvent :=
  [.spawn 1, .start 1 emptyDisk, .call ⟨1, twoBytes, .upload pathA⟩, .fork 1 2,
    .exec 2 emptyDisk pathA true, .start 2 emptyDisk, .exit 1]

theorem processes_refine_flat_runsUploaded : ∃ outs l a,
    LifeRun defaultBuild (Life.boot initSys) runsUploaded outs l ∧
      FlatLifeRun (.boot .start) runsUploaded outs a ∧ Represents l.held a.flat ∧
      a.tasks 1 = .none ∧ a.tasks 2 = .running 2 := by
  have hret : ((lifeStep defaultBuild (Life.boot initSys) (.spawn 1)).bind (fun x =>
      lifeStep defaultBuild x.2 (.start 1 emptyDisk))).all (fun x =>
        (exec defaultBuild x.2.held ⟨1, twoBytes, .upload pathA⟩).1.isRet) = true := by
    decide +kernel
  have hread : ¬ ShortRead twoBytes pathA := by
    rintro ⟨st, hst, _, hne⟩
    obtain rfl := Except.ok.inj hst
    exact hne rfl
  have hes : LifeAlong (Life.boot initSys) runsUploaded := by
    refine ⟨boot_not_backedUp, fun out₁ l₁ h₁ => ⟨trivial, fun out₂ l₂ h₂ => ⟨?_, fun _ _ _ =>
      ⟨trivial, fun _ _ _ => ⟨trivial, fun _ _ _ => ⟨trivial, fun _ _ _ =>
        ⟨trivial, fun _ _ _ => trivial⟩⟩⟩⟩⟩⟩⟩
    rw [h₁, Option.bind_some, h₂] at hret
    exact ⟨hread, (Out.isRet_spec hret).2 _, (Out.isRet_spec hret).2 _⟩
  obtain ⟨outs, l, out, l', hrun, _, htest⟩ := evaluated runsUploaded (.kill 2)
    (fun l _ _ => l.tasks 1 == .none && (l.tasks 2).flat == .running 2) (by decide +kernel)
  obtain ⟨hone, htwo⟩ := Bool.and_eq_true_iff.mp htest
  obtain ⟨a, hflat, hrep, htasks⟩ := processes_refine_flat hes hrun
  refine ⟨outs, l, a, hrun, hflat, hrep, ?_, ?_⟩
  · rw [htasks, beq_iff_eq.mp hone]
    rfl
  · rw [htasks, beq_iff_eq.mp htwo]

end Spacefish
