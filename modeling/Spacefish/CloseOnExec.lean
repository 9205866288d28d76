import Spacefish.FdFrames
import Spacefish.FileCalls
import Spacefish.ProcessLife

/-!
No call sets the close-on-exec flag of a descriptor, whatever `open` was asked for, so
`close_cloexec` closes nothing and a new program has every descriptor of the old one.
-/

namespace Spacefish

open Program

variable {b : Build} {env : Env} {w w' : World} {s s' : Sys} {e : Event} {out : Out}
  {fds : Nat → FdInfo}

def NoFlags (fds : Nat → FdInfo) : Prop := ∀ i, (fds i).flags = 0

theorem initFdTable_noFlags : NoFlags initFdTable := fun _ => rfl

theorem flags_unstamped : Unstamped FdInfo.flags := ⟨fun _ _ _ => rfl, fun _ _ _ => rfl⟩

theorem NoFlags.of_view {α : Type} {x : Op World α} (hno : NoFlags w.fdTable)
    (hx : Frames (fdView FdInfo.flags) x) :
    Ends (x w) (fun _ w' => NoFlags w'.fdTable) (fun _ _ => True) :=
  (hx w).mono (fun _ _ heq i => (congrFun heq i).trans (hno i)) (fun _ _ _ => trivial)

/-- What leaves the table alone leaves the flags alone. -/
theorem flags_of_fds {α : Type} {x : Op World α} (hx : Frames World.fdTable x) :
    Frames (fdView FdInfo.flags) x :=
  hx.map (fun fds i => (fds i).flags)

theorem getEmptyFdLoop_flags (n i : Nat) :
    Frames (fdView FdInfo.flags) (getEmptyFdLoop env n i) := by
  induction n generalizing i with
  | zero => exact (Keeps.pure _).frames
  | succ n ih =>
      refine Keeps.get.frames.bind (fun w =>
        .ite (.ite ?_ (ih _)) (.ite (Keeps.throw _).frames (ih _)))
      refine Frames.bind (.modify (fun w => funext (fun j => ?_))) (fun _ => (Keeps.pure _).frames)
      by_cases hj : j = i
      · subst hj
        simp [fdView, World.setFd]
      · simp [fdView, World.setFd, hj]

theorem sysOpen_flags (pathname : Path) (flags mode : Nat) :
    Frames (fdView FdInfo.flags) (sysOpen b env pathname flags mode) := by
  refine .ite ?_ (.ite (Keeps.pure _).frames
    ((flags_of_fds (buildAbsPath1_fds env pathname)).bind (fun p => ?_)))
  · exact .ite (Frames.bind (setFddes_view _ (fun _ => rfl)) (fun _ => (Keeps.pure _).frames))
      (Keeps.pure _).frames
  refine (flags_of_fds (openResolve_fds b env pathname p flags mode)).bind (fun r => ?_)
  cases r with
  | error err => exact (Keeps.pure _).frames
  | ok mb =>
      refine Frames.bind (flags_of_fds (openPosition_fds flags mb)) (fun _ => ?_)
      refine Frames.bind (getEmptyFdLoop_flags _ _) (fun r => ?_)
      cases r with
      | none => exact (Keeps.pure _).frames
      | some fd =>
          dsimp only
          generalize (fd : Int) = i
          exact Frames.bind (setFddes_view i (fun _ => rfl)) (fun _ => (Keeps.pure _).frames)

theorem NoFlags.setFd {f : FdInfo → FdInfo} (hno : NoFlags w.fdTable) (i : Nat)
    (hf : (f (w.fdTable i)).flags = 0) : NoFlags (w.setFd i f).fdTable := by
  intro j
  by_cases hj : j = i
  · subst hj
    simp only [World.setFd, Function.update_self]
    exact hf
  · simp only [World.setFd, Function.update_of_ne hj]
    exact hno j

theorem NoFlags.close (hno : NoFlags w.fdTable) (fd : Int) :
    Ends (sysClose env fd w) (fun _ w' => NoFlags w'.fdTable) (fun _ _ => True) := by
  refine (sysClose_ends env fd w).mono ?_ (fun _ _ _ => trivial)
  rintro r w' ⟨_, _, hclose⟩
  cases hclose with
  | kernel hexcl hret => exact hno.setFd _ rfl
  | refused hexcl hret => exact hno
  | unopened hexcl hempty => exact hno
  | store hu => exact NoFlags.setFd (w := { w with table := _ }) hno _ rfl

theorem NoFlags.call (hno : NoFlags w.fdTable) (call : Call) :
    Ends (callOp b env call w) (fun _ w' => NoFlags w'.fdTable) (fun _ _ => True) := by
  cases call with
  | «open» pathname flags mode => exact hno.of_view (sysOpen_flags pathname flags mode)
  | close fd => exact hno.close fd
  | read fd count => exact hno.of_view (sysRead_view env flags_unstamped fd count)
  | write fd buf => exact hno.of_view (sysWrite_view b env flags_unstamped fd buf)
  | pread fd count offset =>
      exact hno.of_view (sysPread_view b env flags_unstamped fd count offset)
  | pwrite fd buf offset => exact hno.of_view (sysPwrite_view b env flags_unstamped fd buf offset)
  | unlink pathname => exact hno.of_view (flags_of_fds (sysUnlink_fds env pathname))
  | rename old new => exact hno.of_view (flags_of_fds (sysRename_fds env old new))
  | xstat path => exact hno.of_view (flags_of_fds (sysXstat_fds env path))
  | fxstat fd => exact hno.of_view (flags_of_fds (sysFxstat_fds env fd))
  | upload name => exact hno.of_view (flags_of_fds (upload_fds b env name))

/-- No process has a close-on-exec descriptor. -/
def AllNoFlags (s : Sys) : Prop := ∀ pid, NoFlags (s.fds pid)

theorem AllNoFlags.setFds (hno : AllNoFlags s) (hfds : NoFlags fds) (pid : Nat) :
    AllNoFlags { s with fds := Function.update s.fds pid fds } := by
  intro q
  by_cases hq : q = pid
  · subst hq
    simp only [Function.update_self]
    exact hfds
  · simp only [Function.update_of_ne hq]
    exact hno q

theorem AllNoFlags.exec (hno : AllNoFlags s) (hexec : Spacefish.exec b s e = (out, s')) :
    AllNoFlags s' := by
  rcases exec_ends ((hno e.pid).call e.call) hexec with ⟨r, w', _, rfl, hno'⟩ | ⟨h, w', _, rfl, _⟩
  · exact AllNoFlags.setFds (s := ⟨w'.table, w'.data, s.fds⟩) hno hno' e.pid
  · exact AllNoFlags.setFds (s := ⟨w'.table, w'.data, s.fds⟩) hno initFdTable_noFlags e.pid

/-- `close_cloexec` closes nothing. -/
theorem closeCloexec_eq (hno : NoFlags w.fdTable) : closeCloexec env w = .ok ⟨⟩ w := by
  have hloop : ∀ n i, i + n ≤ maxNumFd → closeCloexecLoop env n i w = .ok ⟨⟩ w := by
    intro n
    induction n with
    | zero => exact fun _ _ => rfl
    | succ n ih =>
        intro i hle
        have hin : (0 : Int) ≤ i ∧ (i : Int) < maxNumFd := by omega
        rw [closeCloexecLoop, fddes, bind_assoc, run_get_bind, if_pos hin, run_pure_bind]
        rw [Int.toNat_natCast, hno i, Nat.zero_and]
        rw [if_neg (by simp)]
        exact ih (i + 1) (by omega)
  exact hloop maxNumFd 0 (by omega)

end Spacefish
