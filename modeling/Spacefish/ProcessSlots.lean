import Spacefish.Basic
import Spacefish.Lib.Interleaving

/-!
The process slots of `process.c` under concurrency. Each access to the pid of a
slot, each trylock and each unlock is one step. A slot is claimed by a test of
its pid, a trylock, an unlock and a store of the own pid, and nothing is tested
again in between; a slot belongs to one process when no other one stands between
the test and the trylock during the last two.
-/

namespace Spacefish

open Interleaving

def maxExecHanging : Nat := 4096 * 2

structure PidInfo where
  pid : Nat
  fdsBackedUp : Bool
  firstParentSignaled : Bool
  vforked : Bool
  lock : Bool
  deriving DecidableEq, Repr

/-- The array `pid_meta`. -/
abbrev PidMeta := Nat → PidInfo

def PidMeta.set (s : PidMeta) (k : Nat) (f : PidInfo → PidInfo) : PidMeta :=
  Function.update s k (f (s k))

/-- Where a process stands; `removing` says that `get_pid_meta_ind` was called by
`remove_pid_slot`. -/
inductive PidPc where
  | idle
  /-- The test of the slot that `pid_meta_ind` names. -/
  | checkInd (removing : Bool)
  /-- The loop of `get_pid_meta_ind` over the slots. -/
  | search (removing : Bool) (j : Nat)
  /-- The loop of `get_new_pid_meta_ind`. -/
  | searchNew (removing : Bool) (i : Nat)
  | tryLock (removing : Bool) (i : Nat)
  | unlock (removing : Bool) (i : Nat)
  /-- The store of the own pid, after `get_new_pid_meta_ind` has returned. -/
  | store (removing : Bool) (k : Nat)
  | clearPid
  | clearRest
  /-- The process has ended. -/
  | stopped
  deriving DecidableEq, Repr

/-- A process; `has` records the indices that `get_pid_meta_ind` has returned to it
since its last `remove_pid_slot`. -/
structure PidProc where
  pid : Nat
  pidMetaInd : Nat
  pidMetaIndSet : Bool
  pc : PidPc
  has : List Nat

def PidProc.goTo (p : PidProc) (pc : PidPc) : PidProc := { p with pc := pc }

/-- `get_pid_meta_ind` returns `k`, to its caller or to `remove_pid_slot`. -/
def PidProc.return (p : PidProc) (removing : Bool) (k : Nat) : PidProc :=
  if removing then p.goTo .clearPid else { p with pc := .idle, has := k :: p.has }

/-- The start of `get_pid_meta_ind`. -/
def PidProc.enter (p : PidProc) (removing : Bool) : PidProc :=
  p.goTo (if p.pidMetaIndSet then .checkInd removing else .search removing 0)

inductive PidCall where
  | getPidMetaInd
  | removePidSlot
  deriving DecidableEq, Repr

/-- The next step of a process. -/
def pidStep (call : PidCall) (p : PidProc) (s : PidMeta) : Option (PidProc × PidMeta) :=
  match p.pc with
  | .idle =>
      match call with
      | .getPidMetaInd => some (p.enter false, s)
      | .removePidSlot => some ({ p with has := [] }.enter true, s)
  | .checkInd removing =>
      if (s p.pidMetaInd).pid = p.pid then some (p.return removing p.pidMetaInd, s)
      else some (p.goTo (.search removing 0), s)
  | .search removing j =>
      if j < maxExecHanging then
        if (s j).pid = p.pid then
          some ({ p with pidMetaInd := j, pidMetaIndSet := true }.return removing j, s)
        else some (p.goTo (.search removing (j + 1)), s)
      else some (p.goTo (.searchNew removing 0), s)
  | .searchNew removing i =>
      if i < maxExecHanging then
        if (s i).pid = 0 then some (p.goTo (.tryLock removing i), s)
        else some (p.goTo (.searchNew removing (i + 1)), s)
      else some (p.goTo .stopped, s)
  | .tryLock removing i =>
      if (s i).lock then some (p.goTo (.searchNew removing (i + 1)), s)
      else
        some ({ p with pidMetaInd := i, pidMetaIndSet := true, pc := .unlock removing i },
          s.set i (fun pi => { pi with lock := true }))
  | .unlock removing i =>
      some (p.goTo (.store removing i), s.set i (fun pi => { pi with lock := false }))
  | .store removing k => some (p.return removing k, s.set k (fun pi => { pi with pid := p.pid }))
  | .clearPid => some (p.goTo .clearRest, s.set p.pidMetaInd (fun pi => { pi with pid := 0 }))
  | .clearRest =>
      some (p.goTo .idle, s.set p.pidMetaInd (fun pi =>
        { pi with fdsBackedUp := false, firstParentSignaled := false, vforked := false }))
  | .stopped => none

/-! What the place of a process says about the slots. -/

/-- The slot that the process has locked and not yet stored its pid in. -/
def PidPc.claims : PidPc → Option Nat
  | .unlock _ k => some k
  | .store _ k => some k
  | _ => none

/-- The slot whose lock the process holds. -/
def PidPc.locks : PidPc → Option Nat
  | .unlock _ k => some k
  | _ => none

/-- The slot between whose test and trylock the process stands. -/
def PidPc.testedSlot : PidPc → Option Nat
  | .tryLock _ k => some k
  | _ => none

/-- The slot that the process has unlocked again and stores its pid in next. -/
def PidPc.storesTo : PidPc → Option Nat
  | .store _ k => some k
  | _ => none

def PidPc.removing : PidPc → Bool
  | .checkInd r => r
  | .search r _ => r
  | .searchNew r _ => r
  | .tryLock r _ => r
  | .unlock r _ => r
  | .store r _ => r
  | .clearPid => true
  | _ => false

structure Fits (s : PidMeta) (p : PidProc) : Prop where
  nonzero : p.pid ≠ 0
  has : ∀ k ∈ p.has, (s k).pid = p.pid
  removing : p.pc.removing = true → p.has = []
  clearing : p.pc = .clearPid → (s p.pidMetaInd).pid = p.pid
  free : ∀ k, p.pc.claims = some k → (s k).pid = 0
  ind : ∀ k, p.pc.claims = some k → p.pidMetaInd = k
  locked : ∀ k, p.pc.locks = some k → (s k).lock = true

variable {ι : Type*} {c : Config ι PidProc PidMeta} {i : ι} {p q : PidProc} {s s' : PidMeta}
  {call : PidCall} {x : PidProc × PidMeta} {k : Nat} {r : Bool} {pc : PidPc}

structure PidInv (c : Config ι PidProc PidMeta) : Prop where
  fits : ∀ i, Fits c.shared (c.proc i)
  apart : ∀ i j, (c.proc i).pid = (c.proc j).pid → i = j
  mutex : ∀ i j k, (c.proc i).pc.claims = some k → (c.proc j).pc.claims = some k → i = j

/-- A process that does not move still fits when its slots are left alone. -/
theorem Fits.stable (hp : Fits s p) (hkeep : ∀ k, (s k).pid = p.pid → (s' k).pid = p.pid)
    (hfree : ∀ k, p.pc.claims = some k → (s' k).pid = (s k).pid)
    (hlock : ∀ k, p.pc.locks = some k → (s' k).lock = (s k).lock) : Fits s' p where
  nonzero := hp.nonzero
  has k hk := hkeep k (hp.has k hk)
  removing := hp.removing
  clearing h := hkeep _ (hp.clearing h)
  free k hk := (hfree k hk).trans (hp.free k hk)
  ind := hp.ind
  locked k hk := (hlock k hk).trans (hp.locked k hk)

theorem PidPc.claims_of_locks (h : pc.locks = some k) : pc.claims = some k := by
  cases pc with
  | unlock r i => exact h
  | _ => cases h

/-- A process that goes on with no slot claimed and none to clear. -/
theorem Fits.goTo (hp : Fits s p) (hr : pc.removing = true → p.has = [])
    (hclear : pc ≠ .clearPid) (hclaims : pc.claims = none) : Fits s (p.goTo pc) where
  nonzero := hp.nonzero
  has := hp.has
  removing := hr
  clearing h := absurd h hclear
  free k hk := by
    rw [show (p.goTo pc).pc = pc from rfl, hclaims] at hk
    cases hk
  ind k hk := by
    rw [show (p.goTo pc).pc = pc from rfl, hclaims] at hk
    cases hk
  locked k hk := by
    have hk' := PidPc.claims_of_locks hk
    rw [show (p.goTo pc).pc = pc from rfl, hclaims] at hk'
    cases hk'

/-- The return of `get_pid_meta_ind` with a slot that holds the own pid. -/
theorem Fits.return (hzero : p.pid ≠ 0) (hhas : ∀ k ∈ p.has, (s k).pid = p.pid)
    (hr : r = true → p.has = []) (hk : (s k).pid = p.pid) (hind : p.pidMetaInd = k) :
    Fits s (p.return r k) := by
  cases r with
  | true =>
      refine ⟨hzero, hhas, fun _ => hr rfl, fun _ => ?_, fun _ h => ?_, fun _ h => ?_,
        fun _ h => ?_⟩
      · change (s p.pidMetaInd).pid = p.pid
        rw [hind, hk]
      all_goals cases h
  | false =>
      refine ⟨hzero, ?_, fun h => ?_, fun h => ?_, fun _ h => ?_, fun _ h => ?_, fun _ h => ?_⟩
      · intro k' hk'
        rcases List.mem_cons.mp hk' with rfl | hk'
        · exact hk
        · exact hhas k' hk'
      all_goals cases h

@[simp] theorem return_pid : (p.return r k).pid = p.pid := by
  cases r <;> rfl

@[simp] theorem return_claims : (p.return r k).pc.claims = none := by
  cases r <;> rfl

theorem Fits.forget (hp : Fits s p) : Fits s { p with has := [] } :=
  ⟨hp.nonzero, (fun _ h => by cases h), fun _ => rfl, hp.clearing, hp.free, hp.ind, hp.locked⟩

theorem Fits.enter (hp : Fits s p) (hr : r = true → p.has = []) : Fits s (p.enter r) := by
  unfold PidProc.enter
  split
  · exact hp.goTo hr (by simp) rfl
  · exact hp.goTo hr (by simp) rfl

@[simp] theorem enter_claims : (p.enter r).pc.claims = none := by
  unfold PidProc.enter
  split <;> rfl

@[simp] theorem set_self (f : PidInfo → PidInfo) : s.set k f k = f (s k) := Function.update_self ..

theorem set_of_ne {k' : Nat} (f : PidInfo → PidInfo) (hne : k' ≠ k) : s.set k f k' = s k' :=
  Function.update_of_ne hne ..

/-- A store that leaves all pids alone. -/
theorem set_pid {f : PidInfo → PidInfo} (hf : ∀ pi, (f pi).pid = pi.pid) (k' : Nat) :
    (s.set k f k').pid = (s k').pid := by
  by_cases hk : k' = k
  · subst hk
    rw [set_self, hf]
  · rw [set_of_ne f hk]

/-- The slots that `get_pid_meta_ind` has returned carry the pid of the process and
were returned to no other, also not inside of `remove_pid_slot`. -/
def SlotsExclusive (c : Config ι PidProc PidMeta) : Prop :=
  ∀ i, ∀ k ∈ (c.proc i).has, (c.shared k).pid = (c.proc i).pid ∧
    ∀ j, j ≠ i → k ∉ (c.proc j).has ∧ ((c.proc j).pc = .clearPid → (c.proc j).pidMetaInd ≠ k)

theorem PidInv.exclusive (hinv : PidInv c) : SlotsExclusive c := by
  intro i k hk
  have hpid := (hinv.fits i).has k hk
  refine ⟨hpid, fun j hj => ⟨fun hk' => hj (hinv.apart j i ?_), fun hpc hk' => ?_⟩⟩
  · rw [← (hinv.fits j).has k hk', hpid]
  · subst hk'
    exact hj (hinv.apart j i (((hinv.fits j).clearing hpc).symm.trans hpid))

variable [DecidableEq ι]

theorem PidInv.move (hinv : PidInv c) (hpid : q.pid = (c.proc i).pid) (hself : Fits s' q)
    (hother : ∀ j ≠ i, Fits s' (c.proc j))
    (hclaims : ∀ k, q.pc.claims = some k → ∀ j ≠ i, (c.proc j).pc.claims ≠ some k) :
    PidInv (c.move i (q, s')) := by
  have hpids : ∀ j, ((c.move i (q, s')).proc j).pid = (c.proc j).pid :=
    c.forall_move (fun j p => p.pid = (c.proc j).pid) hpid (fun _ _ => rfl)
  refine ⟨c.forall_move (fun _ p => Fits s' p) hself hother, ?_, ?_⟩
  · intro j j' hj
    rw [hpids, hpids] at hj
    exact hinv.apart j j' hj
  · intro j j' k
    exact c.unique_move (fun p => p.pc.claims = some k) (fun j j' => hinv.mutex j j' k)
      (hclaims k) j j'

/-- A step that leaves the slots alone and claims none. -/
theorem PidInv.quiet (hinv : PidInv c) (hpid : p.pid = (c.proc i).pid) (hself : Fits c.shared p)
    (hclaims : p.pc.claims = none) : PidInv (c.move i (p, c.shared)) := by
  refine hinv.move hpid hself (fun j _ => hinv.fits j) (fun k hk => ?_)
  rw [hclaims] at hk
  cases hk

theorem PidInv.tryLock (hinv : PidInv c) (hpc : (c.proc i).pc = .tryLock r k)
    (hfree : (c.shared k).lock = false)
    (hstill : (c.shared k).pid = 0 ∧ ∀ j r', (c.proc j).pc ≠ .store r' k) :
    PidInv (c.move i ({ c.proc i with pidMetaInd := k, pidMetaIndSet := true, pc := .unlock r k },
      c.shared.set k (fun pi => { pi with lock := true }))) := by
  have hpids : ∀ k', (c.shared.set k (fun pi => { pi with lock := true }) k').pid =
      (c.shared k').pid := set_pid (fun _ => rfl)
  have hp := hinv.fits i
  refine hinv.move rfl ?_ ?_ ?_
  · refine ⟨hp.nonzero, ?_, ?_, (fun h => by cases h), ?_, (fun _ h => Option.some.inj h), ?_⟩
    · intro k' hk'
      rw [hpids]
      exact hp.has k' hk'
    · intro hr
      exact hp.removing (by rw [hpc]; exact hr)
    · intro k' hk'
      obtain rfl : k = k' := Option.some.inj hk'
      rw [hpids]
      exact hstill.1
    · intro k' hk'
      obtain rfl : k = k' := Option.some.inj hk'
      rw [set_self]
  · intro j _
    refine (hinv.fits j).stable (fun k' hk' => (hpids k').trans hk') (fun k' _ => hpids k') ?_
    intro k' hk'
    by_cases heq : k' = k
    · subst heq
      rw [(hinv.fits j).locked k' hk'] at hfree
      cases hfree
    · rw [set_of_ne _ heq]
  · intro k' hk' j _ hj
    obtain rfl : k = k' := Option.some.inj hk'
    cases hpcj : (c.proc j).pc with
    | unlock r' k' =>
        rw [hpcj] at hj
        obtain rfl : k' = k := Option.some.inj hj
        have hlock := (hinv.fits j).locked k' (by rw [hpcj]; rfl)
        rw [hfree] at hlock
        cases hlock
    | store r' k' =>
        rw [hpcj] at hj
        obtain rfl : k' = k := Option.some.inj hj
        exact hstill.2 j r' hpcj
    | _ =>
        rw [hpcj] at hj
        cases hj

theorem PidInv.unlock (hinv : PidInv c) (hpc : (c.proc i).pc = .unlock r k) :
    PidInv (c.move i ((c.proc i).goTo (.store r k),
      c.shared.set k (fun pi => { pi with lock := false }))) := by
  have hpids : ∀ k', (c.shared.set k (fun pi => { pi with lock := false }) k').pid =
      (c.shared k').pid := set_pid (fun _ => rfl)
  have hp := hinv.fits i
  have hclaim : (c.proc i).pc.claims = some k := by rw [hpc]; rfl
  refine hinv.move rfl ?_ ?_ ?_
  · refine ⟨hp.nonzero, ?_, ?_, (fun h => by cases h), ?_, ?_, (fun _ h => by cases h)⟩
    · intro k' hk'
      rw [hpids]
      exact hp.has k' hk'
    · intro hr
      exact hp.removing (by rw [hpc]; exact hr)
    · intro k' hk'
      obtain rfl : k = k' := Option.some.inj hk'
      rw [hpids]
      exact hp.free k hclaim
    · intro k' hk'
      obtain rfl : k = k' := Option.some.inj hk'
      exact hp.ind k hclaim
  · intro j hj
    refine (hinv.fits j).stable (fun k' hk' => (hpids k').trans hk') (fun k' _ => hpids k') ?_
    intro k' hk'
    have hne : k' ≠ k := by
      rintro rfl
      exact hj (hinv.mutex j i k' (PidPc.claims_of_locks hk') hclaim)
    rw [set_of_ne _ hne]
  · intro k' hk' j hj hjk
    obtain rfl : k = k' := Option.some.inj hk'
    exact hj (hinv.mutex j i k hjk hclaim)

/-- A store to the pid of a slot that no other process uses. -/
theorem PidInv.setPid {v : Nat} (hinv : PidInv c) (hpid : p.pid = (c.proc i).pid)
    (hself : Fits (c.shared.set k (fun pi => { pi with pid := v })) p)
    (hclaims : p.pc.claims = none) (hslot : ∀ j ≠ i, (c.shared k).pid ≠ (c.proc j).pid)
    (hfree : ∀ j ≠ i, (c.proc j).pc.claims = some k → v = 0) :
    PidInv (c.move i (p, c.shared.set k (fun pi => { pi with pid := v }))) := by
  refine hinv.move hpid hself ?_ ?_
  · intro j hj
    refine (hinv.fits j).stable ?_ ?_ ?_
    · intro k' hk'
      have hne : k' ≠ k := by
        rintro rfl
        exact hslot j hj hk'
      rw [set_of_ne _ hne, hk']
    · intro k' hk'
      by_cases heq : k' = k
      · subst heq
        rw [set_self, hfree j hj hk', (hinv.fits j).free k' hk']
      · rw [set_of_ne _ heq]
    · intro k' _
      by_cases heq : k' = k
      · subst heq
        rw [set_self]
      · rw [set_of_ne _ heq]
  · intro k' hk'
    rw [hclaims] at hk'
    cases hk'

theorem PidInv.store (hinv : PidInv c) (hpc : (c.proc i).pc = .store r k) :
    PidInv (c.move i ((c.proc i).return r k,
      c.shared.set k (fun pi => { pi with pid := (c.proc i).pid }))) := by
  have hp := hinv.fits i
  have hclaim : (c.proc i).pc.claims = some k := by rw [hpc]; rfl
  have hzero := hp.free k hclaim
  refine hinv.setPid return_pid (Fits.return hp.nonzero ?_ ?_ ?_ (hp.ind k hclaim)) return_claims ?_ ?_
  · intro k' hk'
    by_cases heq : k' = k
    · subst heq
      rw [set_self]
    · rw [set_of_ne _ heq]
      exact hp.has k' hk'
  · intro hr
    exact hp.removing (by rw [hpc]; exact hr)
  · rw [set_self]
  · intro j _ heq
    exact (hinv.fits j).nonzero (by rw [← heq, hzero])
  · intro j hj hjk
    exact absurd (hinv.mutex j i k hjk hclaim) hj

theorem PidInv.clear (hinv : PidInv c) (hpc : (c.proc i).pc = .clearPid) :
    PidInv (c.move i ((c.proc i).goTo .clearRest,
      c.shared.set (c.proc i).pidMetaInd (fun pi => { pi with pid := 0 }))) := by
  have hp := hinv.fits i
  have hown := hp.clearing hpc
  have hnil : (c.proc i).has = [] := hp.removing (by rw [hpc]; rfl)
  refine hinv.setPid rfl ?_ rfl ?_ (fun _ _ _ => rfl)
  · refine ⟨hp.nonzero, ?_, (fun h => by cases h), (fun h => by cases h), (fun _ h => by cases h),
      (fun _ h => by cases h), (fun _ h => by cases h)⟩
    intro k hk
    rw [show ((c.proc i).goTo .clearRest).has = (c.proc i).has from rfl, hnil] at hk
    cases hk
  · intro j hj heq
    exact hj (hinv.apart j i (by rw [← heq, hown]))

theorem PidInv.clearRest (hinv : PidInv c) {f : PidInfo → PidInfo}
    (hf : ∀ pi, (f pi).pid = pi.pid ∧ (f pi).lock = pi.lock) :
    PidInv (c.move i ((c.proc i).goTo .idle, c.shared.set k f)) := by
  have hpids : ∀ k', (c.shared.set k f k').pid = (c.shared k').pid := set_pid (fun pi => (hf pi).1)
  have hlocks : ∀ k', (c.shared.set k f k').lock = (c.shared k').lock := by
    intro k'
    by_cases heq : k' = k
    · subst heq
      rw [set_self, (hf _).2]
    · rw [set_of_ne _ heq]
  have hstable : ∀ j, Fits (c.shared.set k f) (c.proc j) := fun j =>
    (hinv.fits j).stable (fun k' hk' => (hpids k').trans hk') (fun k' _ => hpids k')
      (fun k' _ => hlocks k')
  refine hinv.move rfl ?_ (fun j _ => hstable j) (fun _ h => by cases h)
  exact (hstable i).goTo (fun h => by cases h) (by simp) rfl

/-- While a process stands between its unlock of a slot and the store of its pid there,
no other one stands between its test of that pid and its trylock. -/
def SlotWindowsApart (c : Config ι PidProc PidMeta) (_ : ι) (_ : PidCall) : Prop :=
  ∀ i j k, j ≠ i → (c.proc i).pc.storesTo = some k → (c.proc j).pc.testedSlot ≠ some k

/-- What a process has seen in its test still holds at its trylock. -/
def SlotsTested (c : Config ι PidProc PidMeta) : Prop :=
  ∀ i k, (c.proc i).pc.testedSlot = some k → (c.shared k).pid = 0

@[simp] theorem return_testedSlot : (p.return r k).pc.testedSlot = none := by
  cases r <;> rfl

@[simp] theorem enter_testedSlot : (p.enter r).pc.testedSlot = none := by
  unfold PidProc.enter
  split <;> rfl

/-- A process comes to its trylock from the test of the pid only, and a pid is stored by
the step of that name only. -/
theorem pidStep_pid (hstep : pidStep call p s = some x) :
    (∀ k, x.1.pc.testedSlot = some k → (x.2 k).pid = 0) ∧
      ∀ k, p.pc.storesTo ≠ some k → (s k).pid = 0 → (x.2 k).pid = 0 := by
  cases hpc : p.pc with
  | idle =>
      simp only [pidStep, hpc] at hstep
      cases call <;> obtain rfl := Option.some.inj hstep <;> simp
  | checkInd r =>
      simp only [pidStep, hpc] at hstep
      split at hstep <;> obtain rfl := Option.some.inj hstep
      · simp
      · exact ⟨fun _ h => (by cases h), fun _ _ hzero => hzero⟩
  | search r j =>
      simp only [pidStep, hpc] at hstep
      repeat' split at hstep
      all_goals obtain rfl := Option.some.inj hstep
      · simp
      · exact ⟨fun _ h => (by cases h), fun _ _ hzero => hzero⟩
      · exact ⟨fun _ h => (by cases h), fun _ _ hzero => hzero⟩
  | searchNew r n =>
      simp only [pidStep, hpc] at hstep
      repeat' split at hstep
      all_goals obtain rfl := Option.some.inj hstep
      · refine ⟨fun k hk => ?_, fun _ _ hzero => hzero⟩
        obtain rfl : n = k := Option.some.inj hk
        assumption
      · exact ⟨fun _ h => (by cases h), fun _ _ hzero => hzero⟩
      · exact ⟨fun _ h => (by cases h), fun _ _ hzero => hzero⟩
  | store r n =>
      simp only [pidStep, hpc] at hstep
      obtain rfl := Option.some.inj hstep
      refine ⟨by simp, fun k hk hzero => ?_⟩
      have hne : k ≠ n := fun heq => hk (by rw [heq]; rfl)
      dsimp only
      rw [set_of_ne _ hne, hzero]
  | clearPid =>
      simp only [pidStep, hpc] at hstep
      obtain rfl := Option.some.inj hstep
      refine ⟨fun _ h => (by cases h), fun k _ hzero => ?_⟩
      dsimp only
      by_cases hk : k = p.pidMetaInd
      · rw [hk, set_self]
      · rw [set_of_ne _ hk, hzero]
  | stopped => simp [pidStep, hpc] at hstep
  | tryLock r n =>
      simp only [pidStep, hpc] at hstep
      split at hstep <;> obtain rfl := Option.some.inj hstep
      · exact ⟨fun _ h => (by cases h), fun _ _ hzero => hzero⟩
      · refine ⟨fun _ h => (by cases h), fun k _ hzero => (set_pid (fun pi => ?_) k).trans hzero⟩
        rfl
  | _ =>
      simp only [pidStep, hpc] at hstep
      obtain rfl := Option.some.inj hstep
      refine ⟨fun _ h => (by cases h), fun k _ hzero => (set_pid (fun pi => ?_) k).trans hzero⟩
      rfl

theorem SlotsTested.step (htested : SlotsTested c) (hapart : SlotWindowsApart c i call)
    (hstep : pidStep call (c.proc i) c.shared = some x) : SlotsTested (c.move i x) := by
  obtain ⟨hself, hother⟩ := pidStep_pid hstep
  intro j k hk
  by_cases hj : j = i
  · subst hj
    rw [Config.move_self] at hk
    exact hself k hk
  · rw [c.move_other x hj] at hk
    exact hother k (fun hstore => hapart i j k hj hstore hk) (htested j k hk)

theorem PidInv.step (hinv : PidInv c) (htested : SlotsTested c) (hapart : SlotWindowsApart c i call)
    (hstep : pidStep call (c.proc i) c.shared = some x) : PidInv (c.move i x) := by
  have hp := hinv.fits i
  cases hpc : (c.proc i).pc with
  | idle =>
      cases call with
      | getPidMetaInd =>
          simp only [pidStep, hpc, Option.some.injEq] at hstep
          subst hstep
          exact hinv.quiet rfl (hp.enter (fun h => by cases h)) enter_claims
      | removePidSlot =>
          simp only [pidStep, hpc, Option.some.injEq] at hstep
          subst hstep
          exact hinv.quiet rfl (hp.forget.enter (fun _ => rfl)) enter_claims
  | checkInd r =>
      have hr : r = true → (c.proc i).has = [] := fun h => hp.removing (by rw [hpc]; exact h)
      simp only [pidStep, hpc] at hstep
      split at hstep <;> simp only [Option.some.injEq] at hstep <;> subst hstep
      next hfound =>
        exact hinv.quiet return_pid (Fits.return hp.nonzero hp.has hr hfound rfl) return_claims
      next => exact hinv.quiet rfl (hp.goTo hr (by simp) rfl) rfl
  | search r j =>
      have hr : r = true → (c.proc i).has = [] := fun h => hp.removing (by rw [hpc]; exact h)
      simp only [pidStep, hpc] at hstep
      split at hstep
      · split at hstep <;> simp only [Option.some.injEq] at hstep <;> subst hstep
        next hfound =>
          exact hinv.quiet return_pid (Fits.return hp.nonzero hp.has hr hfound rfl) return_claims
        next => exact hinv.quiet rfl (hp.goTo hr (by simp) rfl) rfl
      · simp only [Option.some.injEq] at hstep
        subst hstep
        exact hinv.quiet rfl (hp.goTo hr (by simp) rfl) rfl
  | searchNew r n =>
      have hr : r = true → (c.proc i).has = [] := fun h => hp.removing (by rw [hpc]; exact h)
      simp only [pidStep, hpc] at hstep
      split at hstep
      · split at hstep <;> simp only [Option.some.injEq] at hstep <;> subst hstep
        · exact hinv.quiet rfl (hp.goTo hr (by simp) rfl) rfl
        · exact hinv.quiet rfl (hp.goTo hr (by simp) rfl) rfl
      · simp only [Option.some.injEq] at hstep
        subst hstep
        exact hinv.quiet rfl (hp.goTo (fun h => by cases h) (by simp) rfl) rfl
  | tryLock r k =>
      have hr : r = true → (c.proc i).has = [] := fun h => hp.removing (by rw [hpc]; exact h)
      simp only [pidStep, hpc] at hstep
      split at hstep <;> simp only [Option.some.injEq] at hstep <;> subst hstep
      next => exact hinv.quiet rfl (hp.goTo hr (by simp) rfl) rfl
      next hlock =>
        have hfree : (c.shared k).lock = false := by simpa using hlock
        have hslot : (c.proc i).pc.testedSlot = some k := by rw [hpc]; rfl
        refine hinv.tryLock hpc hfree ⟨htested i k hslot, fun j r' hstore => ?_⟩
        have hj : i ≠ j := by
          rintro rfl
          rw [hpc] at hstore
          cases hstore
        exact hapart j i k hj (by rw [hstore]; rfl) hslot
  | unlock r k =>
      simp only [pidStep, hpc, Option.some.injEq] at hstep
      subst hstep
      exact hinv.unlock hpc
  | store r k =>
      simp only [pidStep, hpc, Option.some.injEq] at hstep
      subst hstep
      exact hinv.store hpc
  | clearPid =>
      simp only [pidStep, hpc, Option.some.injEq] at hstep
      subst hstep
      exact hinv.clear hpc
  | clearRest =>
      simp only [pidStep, hpc, Option.some.injEq] at hstep
      subst hstep
      exact hinv.clearRest (fun _ => ⟨rfl, rfl⟩)
  | stopped => simp [pidStep, hpc] at hstep

/-- The array that `init_pid_meta` leaves. -/
def initPidMeta : PidMeta := fun _ => ⟨0, false, false, false, false⟩

/-- Live processes with distinct nonzero pids, each with whatever `pid_meta_ind` it
has inherited. -/
structure PidStart (c : Config ι PidProc PidMeta) : Prop where
  idle : ∀ i, (c.proc i).pc = .idle
  has : ∀ i, (c.proc i).has = []
  nonzero : ∀ i, (c.proc i).pid ≠ 0
  apart : ∀ i j, (c.proc i).pid = (c.proc j).pid → i = j
  slots : c.shared = initPidMeta

omit [DecidableEq ι] in
theorem PidStart.inv (hc : PidStart c) : PidInv c := by
  refine ⟨fun i => ⟨hc.nonzero i, ?_, fun _ => hc.has i, ?_, ?_, ?_, ?_⟩, hc.apart, ?_⟩
  · intro k hk
    rw [hc.has] at hk
    cases hk
  · intro h
    rw [hc.idle] at h
    cases h
  · intro k h
    rw [hc.idle] at h
    cases h
  · intro k h
    rw [hc.idle] at h
    cases h
  · intro k h
    rw [hc.idle] at h
    cases h
  · intro i j k h
    rw [hc.idle] at h
    cases h

/-- In every interleaving in which no process stands before its trylock of a slot while
another one stands before its store there, the slots that were handed out are exclusive. -/
theorem slots_exclusive {c₀ : Config ι PidProc PidMeta} (hstart : PidStart c₀)
    (hreach : Reach pidStep SlotWindowsApart c₀ c) : SlotsExclusive c := by
  have hinv : PidInv c ∧ SlotsTested c := by
    refine hreach.invariant (P := fun c => PidInv c ∧ SlotsTested c)
      ⟨hstart.inv, fun i k hk => ?_⟩ ?_
    · rw [hstart.idle] at hk
      cases hk
    · rintro c i call x ⟨hinv, htested⟩ hapart hstep
      exact ⟨hinv.step htested hapart hstep, htested.step hapart hstep⟩
  exact hinv.1.exclusive

/-- Two processes that have just started. -/
def twoPids : Config (Fin 2) PidProc PidMeta :=
  ⟨fun i => ⟨i.val + 1, 0, false, .idle, []⟩, initPidMeta⟩

theorem twoPids_start : PidStart twoPids where
  idle _ := rfl
  has _ := rfl
  nonzero _ := Nat.succ_ne_zero _
  apart _ _ h := Fin.ext (Nat.succ.inj h)
  slots := rfl

variable {allow : Config ι PidProc PidMeta → ι → PidCall → Prop}

/-- A process whose pid is in no slot reaches the search for a new one. -/
theorem reach_searchNew (hallow : ∀ c i e, (∀ j r k, (c.proc j).pc ≠ .store r k) → allow c i e)
    (hstore : ∀ j r k, (c.proc j).pc ≠ .store r k) {n m : Nat} (hm : m + n = maxExecHanging)
    (hpc : (c.proc i).pc = .search r m) (hnot : ∀ k, (c.shared k).pid ≠ (c.proc i).pid) :
    Reach pidStep allow c (c.move i ((c.proc i).goTo (.searchNew r 0), c.shared)) := by
  induction n generalizing m c with
  | zero =>
      refine .single ⟨i, .getPidMetaInd, _, hallow _ _ _ hstore, ?_, rfl⟩
      simp [pidStep, hpc, show ¬ m < maxExecHanging by omega]
  | succ n ih =>
      have hstep : Step pidStep allow c
          (c.move i ((c.proc i).goTo (.search r (m + 1)), c.shared)) := by
        refine ⟨i, .getPidMetaInd, _, hallow _ _ _ hstore, ?_, rfl⟩
        simp [pidStep, hpc, show m < maxExecHanging by omega, hnot m]
      have hrest := ih (c := c.move i ((c.proc i).goTo (.search r (m + 1)), c.shared))
        (m := m + 1)
        (c.forall_move (fun _ p => ∀ r k, p.pc ≠ .store r k) (by simp [PidProc.goTo])
          (fun j _ => hstore j))
        (by omega) (by rw [Config.move_self]; rfl) (by rw [Config.move_self]; exact hnot)
      rw [Config.move_self, Config.move_move] at hrest
      exact .head hstep hrest

/-- The first call of a process up to the search for a new slot. -/
theorem reach_firstCall (hallow : ∀ c i e, (∀ j r k, (c.proc j).pc ≠ .store r k) → allow c i e)
    (hstore : ∀ j r k, (c.proc j).pc ≠ .store r k) (hpc : (c.proc i).pc = .idle)
    (hset : (c.proc i).pidMetaIndSet = false) (hnot : ∀ k, (c.shared k).pid ≠ (c.proc i).pid) :
    Reach pidStep allow c (c.move i ((c.proc i).goTo (.searchNew false 0), c.shared)) := by
  have hstep : Step pidStep allow c (c.move i ((c.proc i).goTo (.search false 0), c.shared)) := by
    refine ⟨i, .getPidMetaInd, _, hallow _ _ _ hstore, ?_, rfl⟩
    simp [pidStep, hpc, PidProc.enter, hset]
  have hrest := reach_searchNew (c := c.move i ((c.proc i).goTo (.search false 0), c.shared)) hallow
    (c.forall_move (fun _ p => ∀ r k, p.pc ≠ .store r k) (by simp [PidProc.goTo])
      (fun j _ => hstore j))
    (Nat.zero_add maxExecHanging) (by rw [Config.move_self]; rfl)
    (by rw [Config.move_self]; exact hnot)
  rw [Config.move_self, Config.move_move] at hrest
  exact .head hstep hrest

/-- Both processes in front of the slots, the first loops of their calls behind them. -/
def twoSearching : Config (Fin 2) PidProc PidMeta :=
  (twoPids.move 0 ((twoPids.proc 0).goTo (.searchNew false 0), initPidMeta)).move 1
    ((twoPids.proc 1).goTo (.searchNew false 0), initPidMeta)

theorem reach_twoSearching {allow : Config (Fin 2) PidProc PidMeta → Fin 2 → PidCall → Prop}
    (hallow : ∀ c i e, (∀ j r k, (c.proc j).pc ≠ .store r k) → allow c i e) :
    Reach pidStep allow twoPids twoSearching := by
  have hidle : ∀ j r k, (twoPids.proc j).pc ≠ .store r k := fun j r k h => by cases h
  have hfirst : Reach pidStep allow twoPids _ :=
    reach_firstCall (i := 0) hallow hidle rfl rfl (fun _ h => by cases h)
  have hsecond : Reach pidStep allow
      (twoPids.move 0 ((twoPids.proc 0).goTo (.searchNew false 0), initPidMeta)) twoSearching :=
    reach_firstCall (i := 1) hallow
      (twoPids.forall_move (fun _ p => ∀ r k, p.pc ≠ .store r k) (by simp [PidProc.goTo])
        (fun j _ => hidle j)) rfl rfl (fun _ h => by cases h)
  exact hfirst.trans hsecond

/-- Both processes see the first slot free, and the second one finds it locked. -/
theorem slots_exclusive_first : ∃ c : Config (Fin 2) PidProc PidMeta,
    Reach pidStep SlotWindowsApart twoPids c ∧ 0 ∈ (c.proc 0).has ∧ 1 ∈ (c.proc 1).has ∧
      SlotsExclusive c := by
  have hfirst : Reach pidStep SlotWindowsApart twoPids twoSearching :=
    reach_twoSearching (fun c i e hstore i' j k _ h => by
      have hno := hstore i'
      cases hpc : (c.proc i').pc <;> simp_all [PidPc.storesTo])
  obtain ⟨c, hreach, hc⟩ : ∃ c : Config (Fin 2) PidProc PidMeta,
      Reach pidStep SlotWindowsApart twoSearching c ∧
        decide (0 ∈ (c.proc 0).has ∧ 1 ∈ (c.proc 1).has) = true := by
    refine exists_reach pidStep _ [(0, .getPidMetaInd), (1, .getPidMetaInd), (0, .getPidMetaInd),
        (1, .getPidMetaInd), (0, .getPidMetaInd), (0, .getPidMetaInd), (1, .getPidMetaInd),
        (1, .getPidMetaInd), (1, .getPidMetaInd), (1, .getPidMetaInd)]
      (fun c _ _ => decide (∀ i j, j ≠ i → (c.proc i).pc.storesTo ≠ none →
        (c.proc j).pc.testedSlot ≠ (c.proc i).pc.storesTo)) _ ?_ (by decide +kernel)
    intro c _ _ htest i j k hj hstore
    have hne := of_decide_eq_true htest i j hj (by rw [hstore]; simp)
    rwa [hstore] at hne
  obtain ⟨h₀, h₁⟩ := of_decide_eq_true hc
  exact ⟨c, hfirst.trans hreach, h₀, h₁, slots_exclusive twoPids_start (hfirst.trans hreach)⟩

/-- Both processes see the first slot free, and take it one after the other. -/
theorem slots_shared : ∃ c : Config (Fin 2) PidProc PidMeta,
    PidStart twoPids ∧ Reach pidStep (fun _ _ _ => True) twoPids c ∧ ¬ SlotsExclusive c := by
  have hfirst : Reach pidStep (fun _ _ _ => True) twoPids twoSearching :=
    reach_twoSearching (fun _ _ _ _ => trivial)
  obtain ⟨c, hreach, hc⟩ : ∃ c : Config (Fin 2) PidProc PidMeta,
      Reach pidStep (fun _ _ _ => True) twoSearching c ∧
        decide (0 ∈ (c.proc 0).has ∧ 0 ∈ (c.proc 1).has) = true :=
    exists_reach pidStep _ [(0, .getPidMetaInd), (1, .getPidMetaInd), (0, .getPidMetaInd),
        (0, .getPidMetaInd), (0, .getPidMetaInd), (1, .getPidMetaInd), (1, .getPidMetaInd),
        (1, .getPidMetaInd)]
      (fun _ _ _ => true) _ (fun _ _ _ _ => trivial) (by decide +kernel)
  obtain ⟨h₀, h₁⟩ := of_decide_eq_true hc
  refine ⟨c, twoPids_start, hfirst.trans hreach, fun hex => ?_⟩
  exact ((hex 0 0 h₀).2 1 (by decide)).1 h₁

end Spacefish
