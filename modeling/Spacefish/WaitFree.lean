import Spacefish.Allocation
import Spacefish.ProcessSlots
import Spacefish.CoreSlots
import Spacefish.Lib.OwnSteps

/-!
Which calls can be held up by other processes. The allocators of methods 1 to 4,
`allocate_mbucket`, `release_dbucket` and the searches for the slot of a process or of a
core take locks by trylock only and go on to the next place when one is held. Such a call
ends after a number of its own steps that depends on the size of the table alone.
-/

namespace Spacefish

open Interleaving

/-! The allocators of buckets. -/

/-- The steps that a process takes at most until its call has ended. -/
def AllocPc.rank (ncores : Nat) : AllocPc → Nat
  | .idle => 0
  | .wrapIndex q => 4 * (q.alloc.rounds ncores - q.i) + 4
  | .probe q => 4 * (q.alloc.rounds ncores - q.i) + 3
  | .tryLock q _ => 4 * (q.alloc.rounds ncores - q.i - 1) + 6
  | .recheck q _ => 4 * (q.alloc.rounds ncores - q.i - 1) + 5
  | .unlockSkip q _ => 4 * (q.alloc.rounds ncores - q.i - 1) + 4
  | .setRoughInd _ _ => 4
  | .setInUse _ _ => 3
  | .unlock _ _ => 2
  | .setCoreRoughInd _ _ => 1
  | .releaseTest _ => 3
  | .releaseClear _ => 2
  | .releaseCount => 1
  | .stopped => 0

/-- The process is in a call. -/
def AllocProc.calling (p : AllocProc) : Bool :=
  match p.pc with
  | .idle => false
  | .stopped => false
  | _ => true

/-- The bound of a call. -/
def AllocCall.bound (ncores : Nat) : AllocCall → Nat
  | .alloc a _ => 4 * a.rounds ncores + 4
  | .release _ => 3

variable {ncores : Nat} {call : AllocCall} {p : AllocProc} {s : AllocShm} {x : AllocProc × AllocShm}
  {q : Search} {a : Allocator} {b : Bucket}

theorem rank_next : (AllocPc.probe q.next).rank ncores =
    4 * (q.alloc.rounds ncores - q.i - 1) + 3 := by
  rw [Nat.sub_sub]
  rfl

theorem enter_rank_le (a : Allocator) (ncores rand : Nat) (s : AllocShm) :
    (a.enter ncores rand s).rank ncores ≤ 4 * a.rounds ncores + 4 := by
  cases a <;> simp only [Allocator.enter] <;> repeat' split
  all_goals simp only [AllocPc.rank, Nat.sub_zero]; omega

/-- Every step of a call brings its process closer to the end. -/
theorem allocStep_closer (hcalling : p.calling = true)
    (hstep : allocStep ncores call p s = some x) :
    x.1.pc.rank ncores < p.pc.rank ncores := by
  obtain ⟨pc, owned⟩ := p
  cases pc with
  | idle => cases hcalling
  | stopped => cases hcalling
  | probe q =>
      simp only [allocStep] at hstep
      split at hstep
      next hlt =>
        have hrank : (AllocPc.probe q).rank ncores = 4 * (q.alloc.rounds ncores - q.i) + 3 := rfl
        split at hstep <;> obtain rfl := Option.some.inj hstep
        · change (AllocPc.probe q.next).rank ncores < _
          rw [rank_next, hrank]
          omega
        · change 4 * (q.alloc.rounds ncores - q.i - 1) + 6 < _
          rw [hrank]
          omega
      · obtain rfl := Option.some.inj hstep
        cases hq : q.alloc <;> simp [AllocProc.goTo, Allocator.overUse, hq, AllocPc.rank]
  | tryLock q b =>
      simp only [allocStep] at hstep
      split at hstep <;> obtain rfl := Option.some.inj hstep
      · change (AllocPc.probe q.next).rank ncores < 4 * (q.alloc.rounds ncores - q.i - 1) + 6
        rw [rank_next]
        omega
      · exact Nat.lt_succ_self _
  | recheck q b =>
      simp only [allocStep] at hstep
      split at hstep
      · obtain rfl := Option.some.inj hstep
        exact Nat.lt_succ_self _
      · split at hstep <;> obtain rfl := Option.some.inj hstep <;>
          simp only [AllocProc.goTo, AllocPc.rank] <;> omega
  | unlockSkip q b =>
      obtain rfl := Option.some.inj hstep
      change (AllocPc.probe q.next).rank ncores < 4 * (q.alloc.rounds ncores - q.i - 1) + 4
      rw [rank_next]
      omega
  | unlock q b =>
      simp only [allocStep] at hstep
      split at hstep <;> obtain rfl := Option.some.inj hstep <;> simp [AllocProc.goTo, AllocPc.rank]
  | releaseTest ix =>
      simp only [allocStep] at hstep
      split at hstep <;> obtain rfl := Option.some.inj hstep <;> simp [AllocProc.goTo, AllocPc.rank]
  | _ =>
      obtain rfl := Option.some.inj hstep
      simp [AllocProc.goTo, AllocPc.rank]

/-- No step of a call waits for another process. -/
theorem allocStep_enabled (hcalling : p.calling = true) :
    (allocStep ncores call p s).isSome = true := by
  obtain ⟨pc, owned⟩ := p
  cases pc with
  | idle => cases hcalling
  | stopped => cases hcalling
  | _ =>
      simp only [allocStep]
      repeat' split
      all_goals rfl

theorem allocStep_first (hidle : p.calling = false) (hstep : allocStep ncores call p s = some x) :
    x.1.pc.rank ncores ≤ call.bound ncores := by
  obtain ⟨pc, owned⟩ := p
  cases pc with
  | idle =>
      cases call with
      | alloc a rand =>
          obtain rfl := Option.some.inj hstep
          exact enter_rank_le ..
      | release ix =>
          simp only [allocStep] at hstep
          split at hstep
          · obtain rfl := Option.some.inj hstep
            exact Nat.le_refl _
          · cases hstep
  | stopped => cases hstep
  | _ => cases hidle

/-! The slots of the processes. -/

def PidPc.rank : PidPc → Nat
  | .idle => 0
  | .checkInd _ => 3 * maxExecHanging + 7
  | .search _ j => maxExecHanging - j + 2 * maxExecHanging + 6
  | .searchNew _ i => 2 * (maxExecHanging - i) + 5
  | .tryLock _ i => 2 * (maxExecHanging - i - 1) + 6
  | .unlock _ _ => 4
  | .store _ _ => 3
  | .clearPid => 2
  | .clearRest => 1
  | .stopped => 0

def PidProc.calling (p : PidProc) : Bool :=
  match p.pc with
  | .idle => false
  | .stopped => false
  | _ => true

section

variable {call : PidCall} {p : PidProc} {s : PidMeta} {x : PidProc × PidMeta} {r : Bool} {k : Nat}

theorem return_rank_le : (p.return r k).pc.rank ≤ 2 := by
  cases r
  · exact Nat.zero_le _
  · exact Nat.le_refl _

theorem pidEnter_rank_le : (p.enter r).pc.rank ≤ 3 * maxExecHanging + 7 := by
  rw [PidProc.enter, PidProc.goTo]
  split <;> simp only [PidPc.rank] <;> omega

theorem pidStep_closer (hcalling : p.calling = true) (hstep : pidStep call p s = some x) :
    x.1.pc.rank < p.pc.rank := by
  obtain ⟨pid, ind, set, pc, has⟩ := p
  cases pc with
  | idle => cases hcalling
  | stopped => cases hcalling
  | checkInd r =>
      simp only [pidStep] at hstep
      split at hstep <;> obtain rfl := Option.some.inj hstep
      · refine Nat.lt_of_le_of_lt return_rank_le ?_
        simp only [PidPc.rank]
        omega
      · simp only [PidProc.goTo, PidPc.rank]
        omega
  | search r j =>
      simp only [pidStep] at hstep
      split at hstep
      · split at hstep <;> obtain rfl := Option.some.inj hstep
        · refine Nat.lt_of_le_of_lt return_rank_le ?_
          simp only [PidPc.rank]
          omega
        · simp only [PidProc.goTo, PidPc.rank]
          omega
      · obtain rfl := Option.some.inj hstep
        simp only [PidProc.goTo, PidPc.rank]
        omega
  | searchNew r i =>
      simp only [pidStep] at hstep
      split at hstep
      · split at hstep <;> obtain rfl := Option.some.inj hstep <;>
          simp only [PidProc.goTo, PidPc.rank] <;> omega
      · obtain rfl := Option.some.inj hstep
        simp only [PidProc.goTo, PidPc.rank]
        omega
  | tryLock r i =>
      simp only [pidStep] at hstep
      split at hstep <;> obtain rfl := Option.some.inj hstep <;>
        simp only [PidProc.goTo, PidPc.rank] <;> omega
  | store r k =>
      obtain rfl := Option.some.inj hstep
      exact Nat.lt_of_le_of_lt return_rank_le (Nat.lt_succ_self _)
  | _ =>
      obtain rfl := Option.some.inj hstep
      exact Nat.lt_succ_self _

theorem pidStep_first (hidle : p.calling = false) (hstep : pidStep call p s = some x) :
    x.1.pc.rank ≤ 3 * maxExecHanging + 7 := by
  obtain ⟨pid, ind, set, pc, has⟩ := p
  cases pc with
  | idle =>
      cases call <;> obtain rfl := Option.some.inj hstep <;> exact pidEnter_rank_le
  | stopped => cases hstep
  | _ => cases hidle

theorem pidStep_enabled (hcalling : p.calling = true) : (pidStep call p s).isSome = true := by
  obtain ⟨pid, ind, set, pc, has⟩ := p
  cases pc with
  | idle => cases hcalling
  | stopped => cases hcalling
  | _ =>
      simp only [pidStep]
      repeat' split
      all_goals rfl

end

/-! The slots of the cores. -/

def CorePc.rank (ncores : Nat) : CorePc → Nat
  | .idle => 0
  | .checkInUse _ i => 4 * (ncores - i) + 3
  | .checkCoreN _ i => 4 * (ncores - i - 1) + 4
  | .tryLock _ i => 4 * (ncores - i - 1) + 6
  | .recheck _ i => 4 * (ncores - i - 1) + 5
  | .unlockSkip _ i => 4 * (ncores - i - 1) + 4
  | .setInUse _ _ => 3
  | .setCoreN _ _ => 2
  | .unlock _ _ => 1
  | .stopped => 0

def CoreProc.calling (p : CoreProc) : Bool :=
  match p.pc with
  | .idle => false
  | .stopped => false
  | _ => true

section

variable {cpu : Nat} {p : CoreProc} {s : CoreMem} {x : CoreProc × CoreMem}

theorem coreStep_closer (hcalling : p.calling = true) (hstep : coreStep ncores cpu p s = some x) :
    x.1.pc.rank ncores < p.pc.rank ncores := by
  obtain ⟨num, ix, pc⟩ := p
  cases pc with
  | idle => cases hcalling
  | stopped => cases hcalling
  | checkInUse cnum i =>
      simp only [coreStep] at hstep
      split at hstep
      · split at hstep <;> obtain rfl := Option.some.inj hstep <;>
          simp only [CoreProc.goTo, CorePc.rank] <;> omega
      · obtain rfl := Option.some.inj hstep
        simp only [CoreProc.goTo, CorePc.rank]
        omega
  | checkCoreN cnum i =>
      simp only [coreStep] at hstep
      split at hstep <;> obtain rfl := Option.some.inj hstep <;>
        simp only [CoreProc.goTo, CoreProc.return, CorePc.rank] <;> omega
  | tryLock cnum i =>
      simp only [coreStep] at hstep
      split at hstep <;> obtain rfl := Option.some.inj hstep <;>
        simp only [CoreProc.goTo, CorePc.rank] <;> omega
  | recheck cnum i =>
      simp only [coreStep] at hstep
      split at hstep <;> obtain rfl := Option.some.inj hstep <;>
        simp only [CoreProc.goTo, CorePc.rank] <;> omega
  | _ =>
      obtain rfl := Option.some.inj hstep
      simp only [CoreProc.goTo, CoreProc.return, CorePc.rank]
      omega

theorem coreStep_first (hidle : p.calling = false) (hstep : coreStep ncores cpu p s = some x) :
    x.1.pc.rank ncores ≤ 4 * ncores + 3 := by
  obtain ⟨num, ix, pc⟩ := p
  cases pc with
  | idle =>
      simp only [coreStep] at hstep
      split at hstep <;> obtain rfl := Option.some.inj hstep <;>
        simp only [CoreProc.goTo, CorePc.rank] <;> omega
  | stopped => cases hstep
  | _ => cases hidle

theorem coreStep_enabled (hcalling : p.calling = true) :
    (coreStep ncores cpu p s).isSome = true := by
  obtain ⟨num, ix, pc⟩ := p
  cases pc with
  | idle => cases hcalling
  | stopped => cases hcalling
  | _ =>
      simp only [coreStep]
      repeat' split
      all_goals rfl

end

/-- No process can hold up another one in these calls: each ends after a number of its own
steps that the others have no part in, and none of its steps waits. -/
theorem calls_wait_free (ι : Type*) [DecidableEq ι] (ncores : Nat) :
    WaitFree ι (allocStep ncores) AllocProc.calling (AllocCall.bound ncores) ∧
      WaitFree ι pidStep PidProc.calling (fun _ => 3 * maxExecHanging + 7) ∧
      WaitFree ι (coreStep ncores) CoreProc.calling (fun _ => 4 * ncores + 3) :=
  ⟨waitFree_of_rank (fun p => p.pc.rank ncores) (fun _ _ _ _ => allocStep_first)
      (fun _ _ _ _ => allocStep_closer) (fun _ _ _ => allocStep_enabled),
    waitFree_of_rank (fun p => p.pc.rank) (fun _ _ _ _ => pidStep_first)
      (fun _ _ _ _ => pidStep_closer) (fun _ _ _ => pidStep_enabled),
    waitFree_of_rank (fun p => p.pc.rank ncores) (fun _ _ _ _ => coreStep_first)
      (fun _ _ _ _ => coreStep_closer) (fun _ _ _ => coreStep_enabled)⟩

/-- Two processes search for a data bucket. The second one has seen bucket 0 free when the
first one locks it. -/
def twoAllocating : List (Nat × AllocCall) :=
  [(1, .alloc .allRandom 0), (0, .alloc .allRandom 0), (0, .alloc .allRandom 0),
    (0, .alloc .allRandom 0), (1, .alloc .allRandom 0)]

/-- The second one does not wait for the lock and goes on to bucket 1. -/
theorem calls_wait_free_two : ∃ c : Config Nat AllocProc AllocShm,
    (c.proc 0).pc.locked = some (.data 0) ∧ (c.proc 1).pc = .probe ⟨.allRandom, 0, 1⟩ ∧
      ownSteps 1 twoAllocating < AllocCall.bound 1 (.alloc .allRandom 0) ∧
      ∀ e, (allocStep 1 e (c.proc 1) c.shared).isSome = true := by
  have hstart : allocStep 1 (.alloc .allRandom 0) ⟨.idle, []⟩ initAlloc =
      some (⟨.probe ⟨.allRandom, 0, 0⟩, []⟩, initAlloc) := rfl
  have hrun : ((play (allocStep 1) (inCall AllocProc.calling 1) ((idleAlloc initAlloc).move (1 : Nat)
      (⟨.probe ⟨.allRandom, 0, 0⟩, []⟩, initAlloc)) twoAllocating).any (fun c =>
        (c.proc 0).pc.locked == some (.data 0) &&
          (c.proc 1).pc == .probe ⟨.allRandom, 0, 1⟩)) = true := by
    decide +kernel
  obtain ⟨c, hplay, hc⟩ := (Option.any_eq_true _ _).mp hrun
  rw [Bool.and_eq_true, beq_iff_eq, beq_iff_eq] at hc
  have hcalling : (c.proc 1).calling = true := by
    rw [AllocProc.calling, hc.2]
  have hfree := (calls_wait_free Nat 1).1 _ c 1 _ _ twoAllocating rfl hstart hplay
  obtain ⟨hbound, hnext⟩ := hfree.2 hcalling
  exact ⟨c, hc.1, hc.2, hbound, hnext⟩

end Spacefish
