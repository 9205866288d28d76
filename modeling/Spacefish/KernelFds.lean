import Spacefish.FdFrames

/-!
Which descriptors are forwarded to the kernel. The `exclusive` mark of an entry
decides it; the calls leave the marks alone but for two: an `open` that the kernel
answers sets the mark of its descriptor, and `close` clears it with the rest of the
entry, also for a descriptor of the kernel.
-/

namespace Spacefish

open Program Buffer

/-- The marks of a descriptor table. -/
def exclusives (w : World) : Nat → Bool := fun i => (w.fdTable i).exclusive

/-- Exactly the descriptors below `FIRST_USER_FD` are forwarded. -/
def KernelFds (fds : Nat → FdInfo) : Prop := ∀ i, (fds i).exclusive = decide (i < firstUserFd)

theorem initFdTable_kernel : KernelFds initFdTable := fun _ => rfl

/-- The marks are neither stamps nor part of the cache. -/
theorem exclusives_unstamped : Unstamped FdInfo.exclusive := ⟨fun _ _ _ => rfl, fun _ _ _ => rfl⟩

/-- What leaves the table alone leaves the marks alone. -/
theorem exclusives_of_fds {α : Type} {x : Op World α} (hx : Frames World.fdTable x) :
    Frames exclusives x :=
  hx.map (fun fds i => (fds i).exclusive)

section

variable (env : Env)

theorem getEmptyFdLoop_exclusives (n i : Nat) :
    Frames exclusives (getEmptyFdLoop env n i) := by
  induction n generalizing i with
  | zero => exact (Keeps.pure _).frames
  | succ n ih =>
      refine Keeps.get.frames.bind (fun w => .ite (.ite ?_ (ih _)) (.ite (Keeps.throw _).frames (ih _)))
      refine Frames.bind (.modify (fun w => funext (fun j => ?_))) (fun _ => (Keeps.pure _).frames)
      by_cases hj : j = i
      · subst hj
        simp [exclusives, World.setFd]
      · simp [exclusives, World.setFd, hj]

theorem openPlace_exclusives (flags : Nat) (mb : Int) :
    Frames exclusives (openPlace env flags mb) := by
  refine Frames.bind (exclusives_of_fds (openPosition_fds flags mb)) (fun _ => ?_)
  refine Frames.bind (getEmptyFdLoop_exclusives env _ _) (fun r => ?_)
  cases r with
  | none => exact (Keeps.pure _).frames
  | some fd =>
      dsimp only
      generalize (fd : Int) = i
      refine Frames.bind (setFddes_view (φ := FdInfo.exclusive) i ?_) (fun _ => (Keeps.pure _).frames)
      exact fun _ => rfl

end

/-! The marks after a call. -/

/-- The calls that use the descriptor table. -/
def FdCall : Call → Prop
  | .open _ _ _ => True
  | .close _ => True
  | .read _ _ => True
  | .write _ _ => True
  | .pread _ _ _ => True
  | .pwrite _ _ _ => True
  | _ => False

/-- The kernel answers an `open` with a descriptor below `FIRST_USER_FD`. -/
def OpensBelow (e : Event) : Prop :=
  ∀ pathname flags mode, e.call = .open pathname flags mode →
    e.env.realOpen pathname flags < firstUserFd

/-- A `close` of a descriptor of the kernel that the kernel carries out. -/
def ClosesKernel (e : Event) : Prop :=
  ∃ fd, e.call = .close fd ∧ 0 ≤ fd ∧ fd < firstUserFd ∧ e.env.realRet = 0

variable {b : Build} {env : Env} {w : World}

theorem KernelFds.congr {w' : World} (hk : KernelFds w.fdTable)
    (heq : exclusives w' = exclusives w) : KernelFds w'.fdTable :=
  fun i => (congrFun heq i).trans (hk i)

/-- `open` marks at most the descriptor that the kernel hands out. -/
theorem sysOpen_marks (w : World) (pathname : Path) (flags mode : Nat) :
    Ends (sysOpen b env pathname flags mode w)
      (fun _ w' => exclusives w' = exclusives w ∨ (exclusivePath pathname = true ∧
        0 < env.realOpen pathname flags ∧
        exclusives w' = Function.update (exclusives w) (env.realOpen pathname flags).toNat true))
      (fun _ _ => True) := by
  have hkeep : ∀ {x : Op World Ret}, Frames exclusives x →
      Ends (x w) (fun _ w' => exclusives w' = exclusives w ∨ (exclusivePath pathname = true ∧
        0 < env.realOpen pathname flags ∧
        exclusives w' = Function.update (exclusives w) (env.realOpen pathname flags).toNat true))
        (fun _ _ => True) :=
    fun hx => (hx w).mono (fun _ _ heq => Or.inl heq) (fun _ _ _ => trivial)
  unfold sysOpen
  rw [run_ite]
  split
  · next hexcl =>
    dsimp only
    rw [run_ite]
    split
    · next hpos =>
      by_cases hlt : env.realOpen pathname flags < maxNumFd
      · rw [setFddes_eq (by omega) hlt]
        refine Or.inr ⟨hexcl, hpos, funext (fun i => ?_)⟩
        by_cases hi : i = (env.realOpen pathname flags).toNat
        · subst hi
          simp only [exclusives, World.setFd, Function.update_self]
        · simp only [exclusives, World.setFd, Function.update_of_ne hi]
      · rw [setFddes, if_neg (fun hin => hlt hin.2)]
        exact trivial
    · exact Or.inl rfl
  · refine hkeep (.ite (Keeps.pure _).frames (Frames.bind ?_ (fun p => ?_)))
    · exact exclusives_of_fds (buildAbsPath1_fds env pathname)
    · refine (exclusives_of_fds (openResolve_fds b env pathname p flags mode)).bind (fun r => ?_)
      cases r with
      | error e => exact (Keeps.pure _).frames
      | ok mb => exact openPlace_exclusives env flags mb

theorem sysOpen_kernel (hk : KernelFds w.fdTable) (pathname : Path) (flags mode : Nat)
    (hbelow : env.realOpen pathname flags < firstUserFd) :
    Ends (sysOpen b env pathname flags mode w) (fun _ w' => KernelFds w'.fdTable)
      (fun _ _ => True) := by
  refine (sysOpen_marks w pathname flags mode).mono ?_ (fun _ _ _ => trivial)
  rintro _ w' (heq | ⟨_, hpos, heq⟩)
  · exact hk.congr heq
  · intro i
    refine (congrFun heq i).trans ?_
    by_cases hi : i = (env.realOpen pathname flags).toNat
    · subst hi
      rw [Function.update_self]
      exact (decide_eq_true (by omega)).symm
    · rw [Function.update_of_ne hi]
      exact hk i

/-- `close` breaks the rule exactly when it clears the entry of a descriptor of the
kernel. -/
theorem sysClose_kernel (hk : KernelFds w.fdTable) (fd : Int) :
    Ends (sysClose env fd w)
      (fun _ w' => KernelFds w'.fdTable ↔ ¬ (0 ≤ fd ∧ fd < firstUserFd ∧ env.realRet = 0))
      (fun _ _ => ¬ (0 ≤ fd ∧ fd < firstUserFd ∧ env.realRet = 0)) := by
  have hreset : ∀ w₁ : World, KernelFds w₁.fdTable → 0 ≤ fd →
      (KernelFds (w₁.setFd fd.toNat resetFd).fdTable ↔ ¬ fd < firstUserFd) := by
    intro w₁ hk₁ hpos
    constructor
    · intro hk' hlt
      have hself := hk' fd.toNat
      simp only [World.setFd, Function.update_self, resetFd] at hself
      exact absurd hself.symm (by simp; omega)
    · intro hge i
      by_cases hi : i = fd.toNat
      · subst hi
        simp only [World.setFd, Function.update_self, resetFd]
        exact (decide_eq_false (by omega)).symm
      · simp only [World.setFd, Function.update_of_ne hi]
        exact hk₁ i
  refine (sysClose_ends env fd w).mono ?_ ?_
  · rintro r w' ⟨hpos, _, hclose⟩
    have hlow : (w.fdTable fd.toNat).exclusive = true ↔ fd < firstUserFd := by
      rw [hk, decide_eq_true_iff]
      omega
    cases hclose with
    | kernel hexcl hret =>
        exact (hreset w hk hpos).trans (by simp [hpos, hlow.mp hexcl, hret])
    | refused _ hret => exact iff_of_true hk (fun h => hret h.2.2)
    | unopened hexcl =>
        exact iff_of_true hk (fun h => by simp [hlow.mpr h.2.1] at hexcl)
    | store hu =>
        have hge : ¬ fd < firstUserFd := by
          intro hlt
          rw [hu.exclusive] at hlow
          exact absurd (hlow.mpr hlt) (by simp)
        exact iff_of_true ((hreset _ hk hpos).mpr hge) (fun h => hge h.2.1)
  · rintro e w' ⟨_, _, hout⟩ ⟨hpos, hlt, _⟩
    refine hout ⟨hpos, ?_⟩
    simp only [firstUserFd, maxNumFd] at hlt ⊢
    omega

/-- A call keeps the rule exactly when it does not close a descriptor of the kernel. -/
theorem call_kernel (hk : KernelFds w.fdTable) {e : Event} (hcall : FdCall e.call)
    (hopen : OpensBelow e) :
    Ends (callOp b e.env e.call w) (fun _ w' => KernelFds w'.fdTable ↔ ¬ ClosesKernel e)
      (fun _ _ => ¬ ClosesKernel e) := by
  have hkeep : ∀ {x : Op World Ret}, (∀ fd, e.call ≠ .close fd) → Frames exclusives x →
      Ends (x w) (fun _ w' => KernelFds w'.fdTable ↔ ¬ ClosesKernel e)
        (fun _ _ => ¬ ClosesKernel e) := by
    intro x hno hx
    have hnot : ¬ ClosesKernel e := fun ⟨fd, hfd, _⟩ => hno fd hfd
    exact (hx w).mono (fun _ _ heq => iff_of_true (hk.congr heq) hnot) (fun _ _ _ => hnot)
  obtain ⟨pid, env, call⟩ := e
  cases call with
  | «open» pathname flags mode =>
      have hnot : ¬ ClosesKernel ⟨pid, env, .open pathname flags mode⟩ := fun ⟨fd, hfd, _⟩ => nomatch hfd
      refine (sysOpen_kernel hk pathname flags mode (hopen pathname flags mode rfl)).mono ?_ ?_
      · exact fun _ _ hk' => iff_of_true hk' hnot
      · exact fun _ _ _ => hnot
  | close fd =>
      have hiff : ClosesKernel ⟨pid, env, .close fd⟩ ↔
          0 ≤ fd ∧ fd < firstUserFd ∧ env.realRet = 0 := by
        constructor
        · rintro ⟨_, ⟨⟩, h⟩
          exact h
        · exact fun h => ⟨fd, rfl, h⟩
      rw [hiff]
      exact sysClose_kernel hk fd
  | read fd count => exact hkeep (fun _ => nofun) (sysRead_view env exclusives_unstamped fd count)
  | write fd buf => exact hkeep (fun _ => nofun) (sysWrite_view b env exclusives_unstamped fd buf)
  | pread fd count offset =>
      exact hkeep (fun _ => nofun) (sysPread_view b env exclusives_unstamped fd count offset)
  | pwrite fd buf offset =>
      exact hkeep (fun _ => nofun) (sysPwrite_view b env exclusives_unstamped fd buf offset)
  | unlink pathname => exact hcall.elim
  | rename old new => exact hcall.elim
  | xstat path => exact hcall.elim
  | fxstat fd => exact hcall.elim
  | upload name => exact hcall.elim

/-! Runs. -/

/-- The rule holds for every process. -/
def AllKernelFds (s : Sys) : Prop := ∀ pid, KernelFds (s.fds pid)

theorem exec_kernel {s : Sys} (hk : AllKernelFds s) {e : Event} (hcall : FdCall e.call)
    (hopen : OpensBelow e) : AllKernelFds (exec b s e).2 ↔ ¬ ClosesKernel e := by
  have hput : ∀ w' : World, AllKernelFds (s.put e.pid w') ↔ KernelFds w'.fdTable := by
    intro w'
    constructor
    · intro hall
      have hself := hall e.pid
      simp only [Sys.put, Function.update_self] at hself
      exact hself
    · intro hk' pid
      by_cases hp : pid = e.pid
      · subst hp
        simp only [Sys.put, Function.update_self]
        exact hk'
      · simp only [Sys.put, Function.update_of_ne hp]
        exact hk pid
  rcases exec_ends (call_kernel (hk e.pid) hcall hopen) (Prod.eta _).symm with
    ⟨r, w', _, hs, hiff⟩ | ⟨h, w', _, hs, hnot⟩
  · rw [hs, hput]
    exact hiff
  · rw [hs, hput]
    exact iff_of_true initFdTable_kernel hnot

theorem events_kernel {s : Sys} (hk : AllKernelFds s) {es : List Event}
    (hcalls : ∀ e ∈ es, FdCall e.call ∧ OpensBelow e) :
    (∀ pre, pre <+: es → AllKernelFds (pre.foldl (fun s e => (exec b s e).2) s)) ↔
      ∀ e ∈ es, ¬ ClosesKernel e := by
  induction es generalizing s with
  | nil =>
      simp only [List.prefix_nil, forall_eq, List.foldl_nil, List.not_mem_nil, false_implies,
        implies_true, iff_true]
      exact hk
  | cons e es ih =>
      obtain ⟨⟨hcall, hopen⟩, hrest⟩ := List.forall_mem_cons.mp hcalls
      have hstep := exec_kernel (b := b) hk hcall hopen
      rw [List.forall_mem_cons]
      constructor
      · intro hall
        have hone : AllKernelFds (exec b s e).2 := hall [e] (by simp)
        refine ⟨hstep.mp hone, (ih hone hrest).mp (fun pre hpre => ?_)⟩
        exact hall (e :: pre) (by simpa using hpre)
      · rintro ⟨hnot, hnone⟩ pre hpre
        cases pre with
        | nil => exact hk
        | cons e' pre =>
            obtain ⟨rfl, htail⟩ := List.cons_prefix_cons.mp hpre
            exact (ih (hstep.mpr hnot) hrest).mpr hnone pre htail

/-- In every state of a run exactly the descriptors below `FIRST_USER_FD` are
forwarded, if and only if the run closes no descriptor of the kernel. -/
theorem kernel_descriptors_forwarded {es : List Event}
    (hcalls : ∀ e ∈ es, FdCall e.call ∧ OpensBelow e) :
    (∀ pre, pre <+: es → AllKernelFds (pre.foldl (fun s e => (exec b s e).2) initSys)) ↔
      ∀ e ∈ es, ¬ ClosesKernel e :=
  events_kernel (fun _ => initFdTable_kernel) hcalls

/-- A kernel that opens `/dev/a` as descriptor 3 and closes what it is asked to. -/
def kernelThree : Env := { emptyDisk with realOpen := fun _ _ => 3, realRet := 0 }

theorem kernelThree_below {pid : Nat} {call : Call} : OpensBelow ⟨pid, kernelThree, call⟩ := by
  intro _ _ _ _
  change (3 : Int) < firstUserFd
  decide

def devA : Path := [47, 100, 101, 118, 47, 97]

/-- Two opens of `/dev/a` and a read. -/
def deviceReads : List Event :=
  [⟨0, kernelThree, .open devA 0 0⟩, ⟨0, kernelThree, .read 3 1⟩, ⟨1, kernelThree, .open devA 0 0⟩]

theorem deviceReads_forwarded :
    AllKernelFds (deviceReads.foldl (fun s e => (exec defaultBuild s e).2) initSys) := by
  refine (kernel_descriptors_forwarded ?_).mpr ?_ deviceReads List.prefix_rfl
  · intro e he
    simp only [deviceReads, List.mem_cons, List.not_mem_nil, or_false] at he
    rcases he with rfl | rfl | rfl <;> exact ⟨trivial, kernelThree_below⟩
  · intro e he
    simp only [deviceReads, List.mem_cons, List.not_mem_nil, or_false] at he
    rcases he with rfl | rfl | rfl <;> exact fun ⟨_, hno, _⟩ => nomatch hno

/-- Closing a descriptor of the kernel takes it out of those that are forwarded: the
next file the kernel opens under the number is not reached by `read`. -/
theorem closed_kernel_descriptor_not_forwarded :
    ¬ ∀ es : List Event, (∀ e ∈ es, FdCall e.call ∧ OpensBelow e) →
      AllKernelFds (es.foldl (fun s e => (exec defaultBuild s e).2) initSys) := by
  intro hall
  have hk := hall [⟨0, kernelThree, .open devA 0 0⟩, ⟨0, kernelThree, .close 3⟩] (by
    intro e he
    simp only [List.mem_cons, List.not_mem_nil, or_false] at he
    rcases he with rfl | rfl <;> exact ⟨trivial, kernelThree_below⟩) 0 3
  exact absurd hk (by decide +kernel)

end Spacefish
