import Spacefish.Basic
import Spacefish.Lib.Interleaving

/-!
The core slots of the per-core allocators, `get_set_core_index` of `data_shm.c`,
under concurrency. Each access to `in_use` and `core_n`, each trylock and each
unlock is one step. A slot becomes visible as used before it carries its CPU
number, and a slot that is locked or was taken meanwhile is passed over without a
look at its number. The slots are registered once as long as no process passes
over the slot of its own CPU.
-/

namespace Spacefish

open Interleaving

/-- The fields of `core_st` that the registration uses. -/
structure CoreSt where
  inUse : Bool
  coreN : Int
  lock : Bool
  deriving DecidableEq, Repr

/-- The array `cmem`. -/
abbrev CoreMem := Nat → CoreSt

def CoreMem.set (s : CoreMem) (k : Nat) (f : CoreSt → CoreSt) : CoreMem :=
  Function.update s k (f (s k))

/-- Where a process stands, with the CPU number it was given and the slot. -/
inductive CorePc where
  | idle
  /-- The head of the loop: the bound and the first test of `in_use`. -/
  | checkInUse (cnum i : Nat)
  | checkCoreN (cnum i : Nat)
  | tryLock (cnum i : Nat)
  /-- The second test of `in_use`, with the lock held. -/
  | recheck (cnum i : Nat)
  | unlockSkip (cnum i : Nat)
  | setInUse (cnum i : Nat)
  | setCoreN (cnum i : Nat)
  | unlock (cnum i : Nat)
  /-- The exit with `core mismatch`. -/
  | stopped
  deriving DecidableEq, Repr

/-- A process with `last_core_num` (`none` for `-1`) and `last_core_ix`. -/
structure CoreProc where
  lastCoreNum : Option Nat
  lastCoreIx : Nat
  pc : CorePc
  deriving DecidableEq, Repr

def CoreProc.goTo (p : CoreProc) (pc : CorePc) : CoreProc := { p with pc := pc }

/-- `get_set_core_index` returns slot `i`. -/
def CoreProc.return (_ : CoreProc) (cnum i : Nat) : CoreProc := ⟨some cnum, i, .idle⟩

/-- The next step of a process; the label is the answer of `sched_getcpu`, which an
idle process asks for. -/
def coreStep (ncores : Nat) (cpu : Nat) (p : CoreProc) (s : CoreMem) :
    Option (CoreProc × CoreMem) :=
  match p.pc with
  | .idle =>
      if p.lastCoreNum = some cpu then some (p, s) else some (p.goTo (.checkInUse cpu 0), s)
  | .checkInUse cnum i =>
      if i < ncores then
        if (s i).inUse then some (p.goTo (.checkCoreN cnum i), s)
        else some (p.goTo (.tryLock cnum i), s)
      else some (p.goTo .stopped, s)
  | .checkCoreN cnum i =>
      if (s i).coreN = cnum then some (p.return cnum i, s)
      else some (p.goTo (.checkInUse cnum (i + 1)), s)
  | .tryLock cnum i =>
      if (s i).lock then some (p.goTo (.checkInUse cnum (i + 1)), s)
      else some (p.goTo (.recheck cnum i), s.set i (fun x => { x with lock := true }))
  | .recheck cnum i =>
      if (s i).inUse then some (p.goTo (.unlockSkip cnum i), s)
      else some (p.goTo (.setInUse cnum i), s)
  | .unlockSkip cnum i =>
      some (p.goTo (.checkInUse cnum (i + 1)), s.set i (fun x => { x with lock := false }))
  | .setInUse cnum i =>
      some (p.goTo (.setCoreN cnum i), s.set i (fun x => { x with inUse := true }))
  | .setCoreN cnum i =>
      some (p.goTo (.unlock cnum i), s.set i (fun x => { x with coreN := cnum }))
  | .unlock cnum i =>
      some (p.return cnum i, s.set i (fun x => { x with lock := false }))
  | .stopped => none

/-! What the place of a process says about the slots. -/

/-- The slot whose lock the process holds. -/
def CorePc.locks : CorePc → Option Nat
  | .recheck _ k => some k
  | .unlockSkip _ k => some k
  | .setInUse _ k => some k
  | .setCoreN _ k => some k
  | .unlock _ k => some k
  | _ => none

/-- The process is about to register slot `k` for CPU `a`. -/
def CorePc.claims (s : CoreMem) (k a : Nat) : CorePc → Prop
  | .recheck b j => b = a ∧ j = k ∧ (s k).inUse = false
  | .setInUse b j => b = a ∧ j = k
  | .setCoreN b j => b = a ∧ j = k
  | _ => False

/-- The CPU number of a search and the number of slots that it has passed over. -/
def CorePc.scan : CorePc → Option (Nat × Nat)
  | .checkInUse a n => some (a, n)
  | .checkCoreN a n => some (a, n)
  | .tryLock a n => some (a, n)
  | .recheck a n => some (a, n)
  | .unlockSkip a n => some (a, n + 1)
  | _ => none

/-- The slot that the current round of the loop is at, behind the test of the bound. -/
def CorePc.slot : CorePc → Option Nat
  | .checkCoreN _ k => some k
  | .tryLock _ k => some k
  | .recheck _ k => some k
  | _ => none

/-- Slot `k` is registered for CPU `a`. -/
def Registered (s : CoreMem) (k a : Nat) : Prop := (s k).inUse = true ∧ (s k).coreN = a

variable {ι : Type*} {c : Config ι CoreProc CoreMem} {i : ι} {p q : CoreProc} {s s' : CoreMem}
  {x : CoreProc × CoreMem} {pc : CorePc} {k a b n ncores cpu : Nat} {cpus : Finset Nat}
  {own own' : Nat → Option Nat}

/-- Slot `k` is registered for CPU `a`, or a process has locked it to register it. -/
def Claimed (c : Config ι CoreProc CoreMem) (k a : Nat) : Prop :=
  Registered c.shared k a ∨ ∃ i, (c.proc i).pc.claims c.shared k a

/-- No CPU number is registered in two slots, every process has the slot of the CPU it
ran on last, and none has ended. -/
def CoresUnique (c : Config ι CoreProc CoreMem) : Prop :=
  (∀ j k a, Registered c.shared j a → Registered c.shared k a → j = k) ∧
  (∀ i a, (c.proc i).lastCoreNum = some a → Registered c.shared (c.proc i).lastCoreIx a) ∧
  ∀ i, (c.proc i).pc ≠ .stopped

/-- A process about to pass over a slot: the slot is not the one of its own CPU. -/
def PassesOthers (c : Config ι CoreProc CoreMem) (i : ι) : Prop :=
  match (c.proc i).pc with
  | .checkCoreN a k => (c.shared k).coreN ≠ a → ¬ Claimed c k a
  | .tryLock a k => (c.shared k).lock = true → ¬ Claimed c k a
  | .recheck a k => (c.shared k).inUse = true → ¬ Claimed c k a
  | _ => True

/-! The invariant. `own` maps a slot to the CPU it is or will be registered for. -/

structure CoreFits (cpus : Finset Nat) (ncores : Nat) (own : Nat → Option Nat) (s : CoreMem)
    (p : CoreProc) : Prop where
  held : ∀ k, p.pc.locks = some k → (s k).lock = true
  checked : ∀ a k, p.pc = .checkCoreN a k → (s k).inUse = true
  claims : ∀ a k, p.pc.claims s k a → own k = some a
  free : ∀ a k, p.pc = .setInUse a k → (s k).inUse = false
  half : ∀ a k, p.pc = .setCoreN a k → (s k).inUse = true ∧ (s k).coreN = -1
  done : ∀ a k, p.pc = .unlock a k → Registered s k a
  last : ∀ a, p.lastCoreNum = some a → Registered s p.lastCoreIx a
  passed : ∀ a n, p.pc.scan = some (a, n) →
    a ∈ cpus ∧ n ≤ ncores ∧ ∀ j < n, ∃ b, own j = some b ∧ b ≠ a
  bound : ∀ k, p.pc.slot = some k → k < ncores
  running : p.pc ≠ .stopped

structure CoreInv (cpus : Finset Nat) (ncores : Nat) (own : Nat → Option Nat)
    (c : Config ι CoreProc CoreMem) : Prop where
  fits : ∀ i, CoreFits cpus ncores own c.shared (c.proc i)
  mutex : ∀ i j k, (c.proc i).pc.locks = some k → (c.proc j).pc.locks = some k → i = j
  claimed : ∀ k a, own k = some a → Claimed c k a
  unowned : ∀ k, own k = none → (c.shared k).inUse = false ∧ (c.shared k).lock = false
  blank : ∀ k, (c.shared k).inUse = false → (c.shared k).coreN = -1
  named : ∀ k (a : Nat), (c.shared k).coreN = a → own k = some a
  inj : ∀ j k a, own j = some a → own k = some a → j = k
  before : ∀ k, own k ≠ none → ∀ j < k, own j ≠ none
  mem : ∀ k a, own k = some a → a ∈ cpus ∧ k < ncores

@[simp] theorem core_set_self (f : CoreSt → CoreSt) : s.set k f k = f (s k) :=
  Function.update_self ..

theorem core_set_of_ne {j : Nat} (f : CoreSt → CoreSt) (hne : j ≠ k) : s.set k f j = s j :=
  Function.update_of_ne hne ..

theorem CorePc.locks_of_claims (h : pc.claims s k a) : pc.locks = some k := by
  cases pc with
  | recheck b j => exact congrArg some h.2.1
  | setInUse b j => exact congrArg some h.2
  | setCoreN b j => exact congrArg some h.2
  | _ => exact h.elim

/-- The claim of a process looks only at the slot it has locked. -/
theorem CorePc.claims_congr (hsame : ∀ k, pc.locks = some k → s' k = s k)
    (h : pc.claims s' k a) : pc.claims s k a := by
  cases pc with
  | recheck b j =>
      obtain ⟨rfl, rfl, huse⟩ := h
      rw [hsame j rfl] at huse
      exact ⟨rfl, rfl, huse⟩
  | setInUse b j => exact h
  | setCoreN b j => exact h
  | _ => exact h

/-- A process that does not move, when the slots it has locked are left alone. -/
theorem CoreFits.stable (hp : CoreFits cpus ncores own s p)
    (hheld : ∀ k, p.pc.locks = some k → s' k = s k)
    (huse : ∀ k, (s k).inUse = true → (s' k).inUse = true)
    (hreg : ∀ k a, Registered s k a → Registered s' k a)
    (hown : ∀ k a, own k = some a → own' k = some a) : CoreFits cpus ncores own' s' p where
  held k hk := by
    rw [hheld k hk]
    exact hp.held k hk
  checked a k h := huse k (hp.checked a k h)
  claims a k h := hown k a (hp.claims a k (CorePc.claims_congr hheld h))
  free a k h := by
    rw [hheld k (by rw [h]; rfl)]
    exact hp.free a k h
  half a k h := by
    rw [hheld k (by rw [h]; rfl)]
    exact hp.half a k h
  done a k h := hreg k a (hp.done a k h)
  last a h := hreg _ a (hp.last a h)
  passed a n h := by
    obtain ⟨hcpu, hle, hall⟩ := hp.passed a n h
    refine ⟨hcpu, hle, fun j hj => ?_⟩
    obtain ⟨b, hb, hne⟩ := hall j hj
    exact ⟨b, hown j b hb, hne⟩
  bound := hp.bound
  running := hp.running

theorem CoreInv.owned_of_locked (hinv : CoreInv cpus ncores own c)
    (h : (c.shared k).lock = true) : ∃ a, own k = some a := by
  cases hown : own k with
  | some a => exact ⟨a, rfl⟩
  | none =>
      rw [(hinv.unowned k hown).2] at h
      cases h

theorem CoreInv.owned_of_inUse (hinv : CoreInv cpus ncores own c)
    (h : (c.shared k).inUse = true) : ∃ a, own k = some a := by
  cases hown : own k with
  | some a => exact ⟨a, rfl⟩
  | none =>
      rw [(hinv.unowned k hown).1] at h
      cases h

/-! The owner that a trylock gives a free slot. -/

theorem update_own_of (hnone : own k = none) {j : Nat} (h : own j = some b) :
    Function.update own k (some a) j = some b := by
  have hjk : j ≠ k := by
    rintro rfl
    rw [hnone] at h
    cases h
  rw [Function.update_of_ne hjk]
  exact h

theorem update_own_cases {j : Nat} (h : Function.update own k (some a) j = some b) :
    (j = k ∧ b = a) ∨ (j ≠ k ∧ own j = some b) := by
  by_cases hjk : j = k
  · subst hjk
    rw [Function.update_self] at h
    exact Or.inl ⟨rfl, (Option.some.inj h).symm⟩
  · rw [Function.update_of_ne hjk] at h
    exact Or.inr ⟨hjk, h⟩

theorem CoreInv.inj_update (hinv : CoreInv cpus ncores own c) (hother : ∀ j ≠ k, own j ≠ some a)
    {j j' : Nat} (hj : Function.update own k (some a) j = some b)
    (hj' : Function.update own k (some a) j' = some b) : j = j' := by
  rcases update_own_cases hj with ⟨rfl, rfl⟩ | ⟨hjk, howned⟩
  · rcases update_own_cases hj' with ⟨rfl, _⟩ | ⟨hjk', hj'⟩
    · rfl
    · exact absurd hj' (hother j' hjk')
  · rcases update_own_cases hj' with ⟨rfl, rfl⟩ | ⟨_, hj'⟩
    · exact absurd howned (hother j hjk)
    · exact hinv.inj j j' b howned hj'

theorem CoreInv.before_update (hinv : CoreInv cpus ncores own c) (hpassed : ∀ j < k, own j ≠ none)
    {j j' : Nat} (hj : Function.update own k (some a) j ≠ none) (hlt : j' < j) :
    Function.update own k (some a) j' ≠ none := by
  by_cases hjk : j' = k
  · rw [hjk, Function.update_self]
    simp
  · rw [Function.update_of_ne hjk]
    by_cases hj' : j = k
    · exact hpassed j' (by omega)
    · rw [Function.update_of_ne hj'] at hj
      exact hinv.before j hj j' hlt

/-- A slot that is neither locked nor in use belongs to nobody. -/
theorem CoreInv.free_slot (hinv : CoreInv cpus ncores own c) (hlock : (c.shared k).lock = false)
    (huse : (c.shared k).inUse = false) :
    own k = none ∧ ∀ j, (c.proc j).pc.locks ≠ some k := by
  have hnolock : ∀ j, (c.proc j).pc.locks ≠ some k := by
    intro j hj
    rw [(hinv.fits j).held k hj] at hlock
    cases hlock
  refine ⟨?_, hnolock⟩
  cases hown : own k with
  | none => rfl
  | some b =>
      rcases hinv.claimed k b hown with hr | ⟨j, hj⟩
      · exact absurd (huse.symm.trans hr.1) Bool.false_ne_true
      · exact absurd (CorePc.locks_of_claims hj) (hnolock j)

theorem set_lock_same (s : CoreMem) (k j : Nat) :
    (s.set k (fun x => { x with lock := true }) j).inUse = (s j).inUse ∧
      (s.set k (fun x => { x with lock := true }) j).coreN = (s j).coreN := by
  by_cases hjk : j = k
  · subst hjk
    rw [core_set_self]
    exact ⟨rfl, rfl⟩
  · rw [core_set_of_ne _ hjk]
    exact ⟨rfl, rfl⟩

theorem Registered.lock (h : Registered s b a) :
    Registered (s.set k (fun x => { x with lock := true })) b a :=
  ⟨(set_lock_same s k b).1.trans h.1, (set_lock_same s k b).2.trans h.2⟩

/-- The process that has locked the slot. -/
theorem CoreFits.lock (hp : CoreFits cpus ncores own s p) (hpc : p.pc = .tryLock a k)
    (hnone : own k = none) : CoreFits cpus ncores (Function.update own k (some a))
      (s.set k (fun x => { x with lock := true })) (p.goTo (.recheck a k)) := by
  obtain ⟨hcpu, _, hpassed⟩ := hp.passed a k (by rw [hpc]; rfl)
  have hbound : k < ncores := hp.bound k (by rw [hpc]; rfl)
  refine ⟨?_, (fun _ _ h => by cases h), ?_, (fun _ _ h => by cases h), (fun _ _ h => by cases h),
    (fun _ _ h => by cases h), fun b hb => (hp.last b hb).lock, ?_, ?_, by simp [CoreProc.goTo]⟩
  · intro k' hk'
    obtain rfl : k = k' := Option.some.inj hk'
    rw [core_set_self]
  · rintro b k' ⟨rfl, rfl, _⟩
    exact Function.update_self ..
  · intro b n hn
    obtain ⟨rfl, rfl⟩ : a = b ∧ k = n := by simpa [CoreProc.goTo, CorePc.scan] using hn
    refine ⟨hcpu, Nat.le_of_lt hbound, fun j hj => ?_⟩
    obtain ⟨b', hb', hne⟩ := hpassed j hj
    exact ⟨b', update_own_of hnone hb', hne⟩
  · intro k' hk'
    obtain rfl : k = k' := Option.some.inj hk'
    exact hbound

/-! The steps. -/

variable [DecidableEq ι]

/-- The claims of the other processes stay. -/
theorem Claimed.move (h : Claimed c k a) (hreg : Registered c.shared k a → Registered s' k a)
    (hheld : ∀ j ≠ i, ∀ k, (c.proc j).pc.locks = some k → s' k = c.shared k)
    (hself : (c.proc i).pc.claims c.shared k a → Registered s' k a ∨ q.pc.claims s' k a) :
    Claimed (c.move i (q, s')) k a := by
  rcases h with hr | ⟨j, hj⟩
  · exact Or.inl (hreg hr)
  · by_cases hji : j = i
    · subst hji
      rcases hself hj with hr | hq
      · exact Or.inl hr
      · exact Or.inr ⟨j, by rw [Config.move_self]; exact hq⟩
    · refine Or.inr ⟨j, ?_⟩
      rw [c.move_other _ hji]
      refine CorePc.claims_congr (s := s') (fun k hk => ?_) hj
      exact (hheld j hji k hk).symm

/-- A step that stores to one slot at most, which no other process has locked and
which stays with its owner. -/
theorem CoreInv.write {f : CoreSt → CoreSt} (hinv : CoreInv cpus ncores own c)
    (hself : CoreFits cpus ncores own (c.shared.set k f) q)
    (hfree : ∀ j ≠ i, (c.proc j).pc.locks ≠ some k)
    (hlocks : ∀ k', q.pc.locks = some k' → k' = k)
    (huse : (c.shared k).inUse = true → (f (c.shared k)).inUse = true)
    (hreg : ∀ a : Nat, Registered c.shared k a → (f (c.shared k)).coreN = a)
    (hclaims : ∀ k' a, (c.proc i).pc.claims c.shared k' a →
      Registered (c.shared.set k f) k' a ∨ q.pc.claims (c.shared.set k f) k' a)
    (hblank : (f (c.shared k)).inUse = false → (f (c.shared k)).coreN = -1)
    (hnamed : ∀ a : Nat, (f (c.shared k)).coreN = a → own k = some a)
    (hown : own k ≠ none) : CoreInv cpus ncores own (c.move i (q, c.shared.set k f)) := by
  have huse' : ∀ j, (c.shared j).inUse = true → (c.shared.set k f j).inUse = true := by
    intro j hj
    by_cases hjk : j = k
    · subst hjk
      rw [core_set_self]
      exact huse hj
    · rw [core_set_of_ne f hjk]
      exact hj
  have hreg' : ∀ j a, Registered c.shared j a → Registered (c.shared.set k f) j a := by
    intro j a hj
    refine ⟨huse' j hj.1, ?_⟩
    by_cases hjk : j = k
    · subst hjk
      rw [core_set_self]
      exact hreg a hj
    · rw [core_set_of_ne f hjk]
      exact hj.2
  have hheld : ∀ j ≠ i, ∀ k', (c.proc j).pc.locks = some k' → c.shared.set k f k' = c.shared k' := by
    intro j hj k' hk'
    refine core_set_of_ne f ?_
    rintro rfl
    exact hfree j hj hk'
  refine ⟨c.forall_move (fun _ p => CoreFits cpus ncores own _ p) hself (fun j hj =>
    (hinv.fits j).stable (hheld j hj) huse' hreg' (fun _ _ h => h)), ?_, ?_, ?_, ?_, ?_, hinv.inj,
    hinv.before, hinv.mem⟩
  · intro j j' k'
    refine c.unique_move (fun p => p.pc.locks = some k') (fun j j' => hinv.mutex j j' k')
      (fun hq => ?_) j j'
    rw [hlocks k' hq]
    exact hfree
  · exact fun j a hj => (hinv.claimed j a hj).move (hreg' j a) hheld (hclaims j a)
  · intro j hj
    have hjk : j ≠ k := by
      rintro rfl
      exact hown hj
    simp only [Config.move_shared, core_set_of_ne f hjk]
    exact hinv.unowned j hj
  · intro j hj
    simp only [Config.move_shared] at hj ⊢
    by_cases hjk : j = k
    · subst hjk
      rw [core_set_self] at hj ⊢
      exact hblank hj
    · rw [core_set_of_ne f hjk] at hj ⊢
      exact hinv.blank j hj
  · intro j a hj
    simp only [Config.move_shared] at hj
    by_cases hjk : j = k
    · subst hjk
      rw [core_set_self] at hj
      exact hnamed a hj
    · rw [core_set_of_ne f hjk] at hj
      exact hinv.named j a hj

/-- A step that leaves the slots alone. -/
theorem CoreInv.quiet (hinv : CoreInv cpus ncores own c)
    (hself : CoreFits cpus ncores own c.shared q)
    (hlocks : ∀ k, q.pc.locks = some k → (c.proc i).pc.locks = some k)
    (hclaims : ∀ k a, (c.proc i).pc.claims c.shared k a → q.pc.claims c.shared k a) :
    CoreInv cpus ncores own (c.move i (q, c.shared)) := by
  refine ⟨c.forall_move (fun _ p => CoreFits cpus ncores own _ p) hself (fun j _ => hinv.fits j), ?_,
    ?_, hinv.unowned, hinv.blank, hinv.named, hinv.inj, hinv.before, hinv.mem⟩
  · intro j j' k
    exact c.unique_move (fun p => p.pc.locks = some k) (fun j j' => hinv.mutex j j' k)
      (fun hq j hj hjk => hj (hinv.mutex j i k hjk (hlocks k hq))) j j'
  · exact fun j a hj => (hinv.claimed j a hj).move id (fun _ _ _ _ => rfl)
      (fun h => Or.inr (hclaims j a h))

/-- The trylock of a slot that nobody owns. -/
theorem CoreInv.take (hinv : CoreInv cpus ncores own c) (hpc : (c.proc i).pc = .tryLock a k)
    (hlock : (c.shared k).lock = false) (huse : (c.shared k).inUse = false) :
    CoreInv cpus ncores (Function.update own k (some a)) (c.move i ((c.proc i).goTo (.recheck a k),
      c.shared.set k (fun x => { x with lock := true }))) := by
  have hp := hinv.fits i
  obtain ⟨hnone, hnolock⟩ := hinv.free_slot hlock huse
  obtain ⟨hcpu, _, hpassed⟩ := hp.passed a k (by rw [hpc]; rfl)
  have hbound : k < ncores := hp.bound k (by rw [hpc]; rfl)
  have hbehind : ∀ j < k, own j ≠ none := by
    intro j hj
    obtain ⟨b, hb, _⟩ := hpassed j hj
    rw [hb]
    simp
  have hother : ∀ j ≠ k, own j ≠ some a := by
    intro j hjk hj
    rcases Nat.lt_or_gt_of_ne hjk with hlt | hgt
    · obtain ⟨b, hb, hne⟩ := hpassed j hlt
      rw [hj] at hb
      exact hne (Option.some.inj hb).symm
    · exact hinv.before j (by rw [hj]; simp) k hgt hnone
  have hsame := set_lock_same c.shared k
  have hheld : ∀ j, ∀ k', (c.proc j).pc.locks = some k' →
      c.shared.set k (fun x => { x with lock := true }) k' = c.shared k' := by
    intro j k' hk'
    refine core_set_of_ne _ ?_
    rintro rfl
    exact hnolock j hk'
  refine ⟨c.forall_move (fun _ p => CoreFits cpus ncores _ _ p) (hp.lock hpc hnone) (fun j _ =>
    (hinv.fits j).stable (hheld j) (fun j hj => (hsame j).1.trans hj) (fun _ _ hj => hj.lock)
      (fun _ _ => update_own_of hnone)), ?_, ?_, ?_, ?_, ?_, fun _ _ _ => hinv.inj_update hother,
    fun _ hj _ hlt => hinv.before_update hbehind hj hlt, ?_⟩
  · intro j j' k'
    refine c.unique_move (fun p => p.pc.locks = some k') (fun j j' => hinv.mutex j j' k')
      (fun hq j _ => ?_) j j'
    obtain rfl : k = k' := Option.some.inj hq
    exact hnolock j
  · intro j b hj
    rcases update_own_cases hj with ⟨rfl, rfl⟩ | ⟨_, hj⟩
    · refine Or.inr ⟨i, ?_⟩
      rw [Config.move_self]
      exact ⟨rfl, rfl, (hsame j).1.trans huse⟩
    · refine (hinv.claimed j b hj).move Registered.lock (fun j _ => hheld j) (fun h => ?_)
      rw [hpc] at h
      exact h.elim
  · intro j hj
    have hjk : j ≠ k := by
      rintro rfl
      rw [Function.update_self] at hj
      cases hj
    rw [Function.update_of_ne hjk] at hj
    simp only [Config.move_shared, core_set_of_ne _ hjk]
    exact hinv.unowned j hj
  · intro j hj
    simp only [Config.move_shared, hsame] at hj ⊢
    exact hinv.blank j hj
  · intro j b hj
    simp only [Config.move_shared, hsame] at hj
    exact update_own_of hnone (hinv.named j b hj)
  · intro j b hj
    rcases update_own_cases hj with ⟨rfl, rfl⟩ | ⟨_, hj⟩
    · exact ⟨hcpu, hbound⟩
    · exact hinv.mem j b hj

end Spacefish
