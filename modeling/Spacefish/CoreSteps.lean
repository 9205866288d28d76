import Mathlib.Data.Fintype.Card
import Spacefish.CoreSlots

/-!
The registration of cores step by step. Every step keeps the map from slots to
the CPUs they are registered for; one slot enters it when a process locks a slot
that nobody owns. A search that has passed over all slots has seen as many other
CPUs, which is one more than there are.
-/

namespace Spacefish

open Interleaving

variable {ι : Type*} {c : Config ι CoreProc CoreMem} {i : ι} {p q : CoreProc} {s : CoreMem}
  {x : CoreProc × CoreMem} {pc : CorePc} {k a n ncores cpu : Nat} {cpus : Finset Nat}
  {own : Nat → Option Nat}

/-- A search that has passed over all slots has seen as many other CPUs. -/
theorem CoreInv.not_all_passed (hinv : CoreInv cpus ncores own c) (hcard : cpus.card ≤ ncores)
    (hpc : (c.proc i).pc = .checkInUse a n) : n < ncores := by
  obtain ⟨hcpu, hle, hall⟩ := (hinv.fits i).passed a n (by rw [hpc]; rfl)
  by_contra hge
  obtain rfl : n = ncores := by omega
  choose f hf using fun j : Fin n => hall j j.isLt
  have hinj : Function.Injective f := by
    intro j j' hjj
    have hj := (hf j).1
    rw [hjj] at hj
    exact Fin.ext (hinv.inj j j' _ hj (hf j').1)
  have hsub : Finset.univ.image f ⊆ cpus.erase a := by
    intro b hb
    obtain ⟨j, _, rfl⟩ := Finset.mem_image.mp hb
    exact Finset.mem_erase.mpr ⟨(hf j).2, (hinv.mem j _ (hf j).1).1⟩
  have hle' := Finset.card_le_card hsub
  rw [Finset.card_image_of_injective _ hinj, Finset.card_univ, Fintype.card_fin,
    Finset.card_erase_of_mem hcpu] at hle'
  have hpos := Finset.card_pos.mpr ⟨a, hcpu⟩
  omega

/-- A slot that belongs to some CPU, but is not claimed for `a`. -/
theorem CoreInv.other_owner (hinv : CoreInv cpus ncores own c) (hown : ∃ b, own k = some b)
    (hnot : ¬ Claimed c k a) : ∃ b, own k = some b ∧ b ≠ a := by
  obtain ⟨b, hb⟩ := hown
  refine ⟨b, hb, ?_⟩
  rintro rfl
  exact hnot (hinv.claimed k b hb)

/-- Nobody else holds the lock that a process holds. -/
theorem CoreInv.sole (hinv : CoreInv cpus ncores own c) (hk : (c.proc i).pc.locks = some k) :
    ∀ j ≠ i, (c.proc j).pc.locks ≠ some k := fun j hj hjk => hj (hinv.mutex j i k hjk hk)

variable [DecidableEq ι]

/-- A process goes on with the locks of `pc` held and the slots of its search passed. -/
theorem CoreFits.goTo (hlast : ∀ a, p.lastCoreNum = some a → Registered s p.lastCoreIx a)
    (hheld : ∀ k, pc.locks = some k → (s k).lock = true)
    (hchecked : ∀ a k, pc = .checkCoreN a k → (s k).inUse = true)
    (hclaims : ∀ a k, pc.claims s k a → own k = some a)
    (hplace : ∀ a k, (pc = .setInUse a k → (s k).inUse = false) ∧
      (pc = .setCoreN a k → (s k).inUse = true ∧ (s k).coreN = -1) ∧
      (pc = .unlock a k → Registered s k a))
    (hpassed : ∀ a n, pc.scan = some (a, n) →
      a ∈ cpus ∧ n ≤ ncores ∧ ∀ j < n, ∃ b, own j = some b ∧ b ≠ a)
    (hbound : ∀ k, pc.slot = some k → k < ncores) (hrun : pc ≠ .stopped) :
    CoreFits cpus ncores own s (p.goTo pc) :=
  ⟨hheld, hchecked, hclaims, fun a k => (hplace a k).1, fun a k => (hplace a k).2.1,
    fun a k => (hplace a k).2.2, hlast, hpassed, hbound, hrun⟩

/-- A search without a lock, `n` slots of which are passed. -/
theorem CoreFits.search (hlast : ∀ a, p.lastCoreNum = some a → Registered s p.lastCoreIx a)
    (hlocks : pc.locks = none) (hscan : pc.scan = some (a, n))
    (hchecked : ∀ a k, pc = .checkCoreN a k → (s k).inUse = true)
    (hpassed : a ∈ cpus ∧ n ≤ ncores ∧ ∀ j < n, ∃ b, own j = some b ∧ b ≠ a)
    (hbound : ∀ k, pc.slot = some k → k < ncores) : CoreFits cpus ncores own s (p.goTo pc) := by
  refine .goTo hlast (fun k h => ?_) hchecked (fun b k h => ?_) (fun b k => ⟨?_, ?_, ?_⟩)
    (fun a' n' h => ?_) hbound ?_
  · rw [hlocks] at h
    cases h
  · rw [CorePc.locks_of_claims h] at hlocks
    cases hlocks
  · rintro rfl
    cases hlocks
  · rintro rfl
    cases hlocks
  · rintro rfl
    cases hlocks
  · rw [hscan] at h
    obtain ⟨rfl, rfl⟩ := Prod.mk.inj (Option.some.inj h)
    exact hpassed
  · rintro rfl
    cases hscan

theorem CoreFits.return (hr : Registered s k a) : CoreFits cpus ncores own s (p.return a k) := by
  refine ⟨(fun _ h => by cases h), (fun _ _ h => by cases h), (fun _ _ h => h.elim),
    (fun _ _ h => by cases h), (fun _ _ h => by cases h), (fun _ _ h => by cases h), ?_,
    (fun _ _ h => by cases h), (fun _ h => by cases h), by simp [CoreProc.return]⟩
  intro a' ha'
  obtain rfl : a = a' := Option.some.inj ha'
  exact hr

/-- One more slot is passed, which is another CPU's. -/
theorem passed_succ (h : a ∈ cpus ∧ n ≤ ncores ∧ ∀ j < n, ∃ b, own j = some b ∧ b ≠ a)
    (hn : n < ncores) (hown : ∃ b, own n = some b ∧ b ≠ a) :
    a ∈ cpus ∧ n + 1 ≤ ncores ∧ ∀ j < n + 1, ∃ b, own j = some b ∧ b ≠ a := by
  refine ⟨h.1, hn, fun j hj => ?_⟩
  rcases Nat.lt_succ_iff_lt_or_eq.mp hj with hlt | rfl
  · exact h.2.2 j hlt
  · exact hown

/-- A step of a search that holds no lock and leaves the slots alone. -/
theorem CoreInv.searches (hinv : CoreInv cpus ncores own c) (hold : (c.proc i).pc.locks = none)
    (hlocks : pc.locks = none) (hscan : pc.scan = some (a, n))
    (hchecked : ∀ a k, pc = .checkCoreN a k → (c.shared k).inUse = true)
    (hpassed : a ∈ cpus ∧ n ≤ ncores ∧ ∀ j < n, ∃ b, own j = some b ∧ b ≠ a)
    (hbound : ∀ k, pc.slot = some k → k < ncores) :
    CoreInv cpus ncores own (c.move i ((c.proc i).goTo pc, c.shared)) := by
  refine hinv.quiet (.search (hinv.fits i).last hlocks hscan hchecked hpassed hbound) ?_ ?_
  · intro k h
    rw [show ((c.proc i).goTo pc).pc = pc from rfl, hlocks] at h
    cases h
  · intro k b h
    rw [CorePc.locks_of_claims h] at hold
    cases hold

/-- A change of a lock leaves the registrations alone. -/
theorem registered_setLock {v : Bool} {j : Nat} (h : Registered s j a) :
    Registered (s.set k (fun x => { x with lock := v })) j a := by
  by_cases hjk : j = k
  · subst hjk
    rw [Registered, core_set_self]
    exact h
  · rw [Registered, core_set_of_ne _ hjk]
    exact h

/-- A change of the lock of a slot that is in use. -/
theorem CoreInv.setLock {v : Bool} (hinv : CoreInv cpus ncores own c)
    (huse : (c.shared k).inUse = true) (hfree : ∀ j ≠ i, (c.proc j).pc.locks ≠ some k)
    (hno : ∀ k' a, ¬ (c.proc i).pc.claims c.shared k' a)
    (hlocks : ∀ k', q.pc.locks = some k' → k' = k)
    (hself : CoreFits cpus ncores own (c.shared.set k (fun x => { x with lock := v })) q) :
    CoreInv cpus ncores own (c.move i (q, c.shared.set k (fun x => { x with lock := v }))) := by
  obtain ⟨b, hb⟩ := hinv.owned_of_inUse huse
  exact hinv.write hself hfree hlocks (fun h => h) (fun _ h => h.2)
    (fun k' a h => absurd h (hno k' a)) (fun h => hinv.blank k h) (fun a h => hinv.named k a h)
    (by rw [hb]; simp)

/-- The trylock of a slot that was taken after the first test. -/
theorem CoreInv.lockUsed (hinv : CoreInv cpus ncores own c) (hpc : (c.proc i).pc = .tryLock a k)
    (hlock : (c.shared k).lock = false) (huse : (c.shared k).inUse = true) :
    CoreInv cpus ncores own (c.move i ((c.proc i).goTo (.recheck a k),
      c.shared.set k (fun x => { x with lock := true }))) := by
  have hp := hinv.fits i
  have hset : (c.shared.set k (fun x => { x with lock := true }) k).inUse = true := by
    rw [core_set_self]
    exact huse
  refine hinv.setLock huse ?_ ?_ (fun _ h => (Option.some.inj h).symm) ?_
  · intro j _ hj
    rw [(hinv.fits j).held k hj] at hlock
    cases hlock
  · intro k' b h
    rw [hpc] at h
    exact h
  · refine .goTo (fun b h => registered_setLock (hp.last b h)) ?_ (fun _ _ h => by cases h) ?_
      (fun _ _ => ⟨(fun h => by cases h), (fun h => by cases h), (fun h => by cases h)⟩) ?_ ?_ (by simp)
    · intro k' h
      obtain rfl : k = k' := Option.some.inj h
      rw [core_set_self]
    · rintro b k' ⟨_, rfl, h⟩
      rw [hset] at h
      cases h
    · intro b n h
      obtain ⟨rfl, rfl⟩ := Prod.mk.inj (Option.some.inj h)
      exact hp.passed a k (by rw [hpc]; rfl)
    · intro k' h
      obtain rfl : k = k' := Option.some.inj h
      exact hp.bound k (by rw [hpc]; rfl)

theorem CoreInv.recheck (hinv : CoreInv cpus ncores own c) (hpc : (c.proc i).pc = .recheck a k)
    (hpass : (c.shared k).inUse = true → ¬ Claimed c k a) :
    ((c.shared k).inUse = true → CoreInv cpus ncores own
      (c.move i ((c.proc i).goTo (.unlockSkip a k), c.shared))) ∧
    ((c.shared k).inUse = false → CoreInv cpus ncores own
      (c.move i ((c.proc i).goTo (.setInUse a k), c.shared))) := by
  have hp := hinv.fits i
  have hlocks : (c.proc i).pc.locks = some k := by rw [hpc]; rfl
  have hheld : ∀ k', some k = some k' → (c.shared k').lock = true := by
    intro k' h
    obtain rfl : k = k' := Option.some.inj h
    exact hp.held k hlocks
  constructor
  · intro huse
    have hown := hinv.other_owner (hinv.owned_of_inUse huse) (hpass huse)
    refine hinv.quiet (.goTo hp.last hheld (fun _ _ h => by cases h) (fun _ _ h => h.elim)
      (fun _ _ => ⟨(fun h => by cases h), (fun h => by cases h), (fun h => by cases h)⟩) ?_
      (fun _ h => by cases h) (by simp)) (fun k' h => hlocks.trans h) ?_
    · intro b n h
      obtain ⟨rfl, rfl⟩ := Prod.mk.inj (Option.some.inj h)
      exact passed_succ (hp.passed a k (by rw [hpc]; rfl)) (hp.bound k (by rw [hpc]; rfl)) hown
    · intro k' b h
      rw [hpc] at h
      obtain ⟨_, rfl, hfree⟩ := h
      rw [huse] at hfree
      cases hfree
  · intro huse
    have hown : own k = some a := hp.claims a k (by rw [hpc]; exact ⟨rfl, rfl, huse⟩)
    refine hinv.quiet (.goTo hp.last hheld (fun _ _ h => by cases h) ?_ ?_ (fun _ _ h => by cases h)
      (fun _ h => by cases h) (by simp)) (fun k' h => hlocks.trans h) ?_
    · rintro b k' ⟨rfl, rfl⟩
      exact hown
    · refine fun b k' => ⟨?_, (fun h => by cases h), (fun h => by cases h)⟩
      intro h
      cases h
      exact huse
    · intro k' b h
      rw [hpc] at h
      exact ⟨h.1, h.2.1⟩

theorem CoreInv.unlockSkip (hinv : CoreInv cpus ncores own c)
    (hpc : (c.proc i).pc = .unlockSkip a k) :
    CoreInv cpus ncores own (c.move i ((c.proc i).goTo (.checkInUse a (k + 1)),
      c.shared.set k (fun x => { x with lock := false }))) := by
  have hp := hinv.fits i
  have hlocks : (c.proc i).pc.locks = some k := by rw [hpc]; rfl
  have hpassed := hp.passed a (k + 1) (by rw [hpc]; rfl)
  obtain ⟨b, hb, _⟩ := hpassed.2.2 k (Nat.lt_succ_self k)
  refine hinv.write (.search (fun b h => registered_setLock (hp.last b h)) rfl rfl
    (fun _ _ h => by cases h) hpassed (fun _ h => by cases h)) (hinv.sole hlocks)
    (fun _ h => by cases h) (fun h => h) (fun _ h => h.2)
    (fun _ _ h => by rw [hpc] at h; exact h.elim) (fun h => hinv.blank k h)
    (fun a h => hinv.named k a h) (by rw [hb]; simp)

theorem CoreInv.setInUse (hinv : CoreInv cpus ncores own c) (hpc : (c.proc i).pc = .setInUse a k) :
    CoreInv cpus ncores own (c.move i ((c.proc i).goTo (.setCoreN a k),
      c.shared.set k (fun x => { x with inUse := true }))) := by
  have hp := hinv.fits i
  have hlocks : (c.proc i).pc.locks = some k := by rw [hpc]; rfl
  have hfree := hp.free a k hpc
  have hblank := hinv.blank k hfree
  have hown : own k = some a := hp.claims a k (by rw [hpc]; exact ⟨rfl, rfl⟩)
  refine hinv.write ?_ (hinv.sole hlocks) (fun _ h => (Option.some.inj h).symm) (fun _ => rfl)
    (fun _ h => h.2) ?_ (fun h => by cases h) (fun b h => hinv.named k b h) (by rw [hown]; simp)
  · refine .goTo ?_ ?_ (fun _ _ h => by cases h) ?_ ?_ (fun _ _ h => by cases h)
      (fun _ h => by cases h) (by simp)
    · intro b h
      obtain ⟨h₁, h₂⟩ := hp.last b h
      have hne : (c.proc i).lastCoreIx ≠ k := by
        intro heq
        rw [heq, hfree] at h₁
        cases h₁
      rw [Registered, core_set_of_ne _ hne]
      exact ⟨h₁, h₂⟩
    · intro k' h
      obtain rfl : k = k' := Option.some.inj h
      rw [core_set_self]
      exact hp.held k hlocks
    · rintro b k' ⟨rfl, rfl⟩
      exact hown
    · refine fun b k' => ⟨(fun h => by cases h), ?_, (fun h => by cases h)⟩
      intro h
      cases h
      rw [core_set_self]
      exact ⟨rfl, hblank⟩
  · intro k' b h
    rw [hpc] at h
    exact Or.inr h

theorem CoreInv.setCoreN (hinv : CoreInv cpus ncores own c) (hpc : (c.proc i).pc = .setCoreN a k) :
    CoreInv cpus ncores own (c.move i ((c.proc i).goTo (.unlock a k),
      c.shared.set k (fun x => { x with coreN := a }))) := by
  have hp := hinv.fits i
  have hlocks : (c.proc i).pc.locks = some k := by rw [hpc]; rfl
  obtain ⟨huse, hblank⟩ := hp.half a k hpc
  have hown : own k = some a := hp.claims a k (by rw [hpc]; exact ⟨rfl, rfl⟩)
  have hreg : Registered (c.shared.set k (fun x => { x with coreN := a })) k a := by
    rw [Registered, core_set_self]
    exact ⟨huse, rfl⟩
  -- the slot carried no number before
  have hnot : ∀ b : Nat, ¬ Registered c.shared k b := by
    intro b h
    have := h.2
    omega
  refine hinv.write ?_ (hinv.sole hlocks) (fun _ h => (Option.some.inj h).symm) (fun h => h)
    (fun b h => absurd h (hnot b)) ?_ (fun h => ?_) (fun b h => ?_) (by rw [hown]; simp)
  · refine .goTo ?_ ?_ (fun _ _ h => by cases h) (fun _ _ h => h.elim) ?_ (fun _ _ h => by cases h)
      (fun _ h => by cases h) (by simp)
    · intro b h
      have hlast := hp.last b h
      have hne : (c.proc i).lastCoreIx ≠ k := by
        intro heq
        rw [heq] at hlast
        exact hnot b hlast
      rw [Registered, core_set_of_ne _ hne]
      exact hlast
    · intro k' h
      obtain rfl : k = k' := Option.some.inj h
      rw [core_set_self]
      exact hp.held k hlocks
    · refine fun b k' => ⟨(fun h => by cases h), (fun h => by cases h), ?_⟩
      intro h
      cases h
      exact hreg
  · intro k' b h
    rw [hpc] at h
    obtain ⟨rfl, rfl⟩ := h
    exact Or.inl hreg
  · exact absurd (huse.symm.trans h) (by simp)
  · rw [hown]
    exact congrArg some (Int.ofNat.inj h)

theorem CoreInv.unlock (hinv : CoreInv cpus ncores own c) (hpc : (c.proc i).pc = .unlock a k) :
    CoreInv cpus ncores own (c.move i ((c.proc i).return a k,
      c.shared.set k (fun x => { x with lock := false }))) := by
  have hdone := (hinv.fits i).done a k hpc
  exact hinv.setLock hdone.1 (hinv.sole (by rw [hpc]; rfl))
    (fun _ _ h => by rw [hpc] at h; exact h) (fun _ h => by cases h)
    (.return (registered_setLock hdone))

theorem CoreInv.step (hinv : CoreInv cpus ncores own c) (hcard : cpus.card ≤ ncores)
    (hcpu : cpu ∈ cpus) (hpass : PassesOthers c i)
    (hstep : coreStep ncores cpu (c.proc i) c.shared = some x) :
    ∃ own', CoreInv cpus ncores own' (c.move i x) := by
  have hp := hinv.fits i
  unfold PassesOthers at hpass
  cases hpc : (c.proc i).pc with
  | idle =>
      have hlocks : (c.proc i).pc.locks = none := by rw [hpc]; rfl
      simp only [coreStep, hpc] at hstep
      split at hstep <;> simp only [Option.some.injEq] at hstep <;> subst hstep
      · exact ⟨own, hinv.quiet hp (fun _ h => h) (fun _ _ h => h)⟩
      · exact ⟨own, hinv.searches hlocks rfl rfl (fun _ _ h => by cases h)
          ⟨hcpu, Nat.zero_le _, fun j hj => absurd hj (Nat.not_lt_zero j)⟩ (fun _ h => by cases h)⟩
  | checkInUse a n =>
      have hlocks : (c.proc i).pc.locks = none := by rw [hpc]; rfl
      have hn := hinv.not_all_passed hcard hpc
      have hpassed := hp.passed a n (by rw [hpc]; rfl)
      simp only [coreStep, hpc, if_pos hn] at hstep
      split at hstep <;> simp only [Option.some.injEq] at hstep <;> subst hstep
      next huse =>
        refine ⟨own, hinv.searches hlocks rfl rfl ?_ hpassed ?_⟩
        · intro a' k h
          cases h
          exact huse
        · intro k h
          cases h
          exact hn
      next =>
        refine ⟨own, hinv.searches hlocks rfl rfl (fun _ _ h => by cases h) hpassed ?_⟩
        intro k h
        cases h
        exact hn
  | checkCoreN a k =>
      have hlocks : (c.proc i).pc.locks = none := by rw [hpc]; rfl
      have huse := hp.checked a k hpc
      rw [hpc] at hpass
      simp only [coreStep, hpc] at hstep
      split at hstep <;> simp only [Option.some.injEq] at hstep <;> subst hstep
      next heq =>
        exact ⟨own, hinv.quiet (.return ⟨huse, heq⟩) (fun _ h => by cases h)
          (fun _ _ h => by rw [hpc] at h; exact h.elim)⟩
      next hne =>
        have hown := hinv.other_owner (hinv.owned_of_inUse huse) (hpass hne)
        exact ⟨own, hinv.searches hlocks rfl rfl (fun _ _ h => by cases h)
          (passed_succ (hp.passed a k (by rw [hpc]; rfl)) (hp.bound k (by rw [hpc]; rfl)) hown)
          (fun _ h => by cases h)⟩
  | tryLock a k =>
      have hlocks : (c.proc i).pc.locks = none := by rw [hpc]; rfl
      rw [hpc] at hpass
      simp only [coreStep, hpc] at hstep
      split at hstep <;> simp only [Option.some.injEq] at hstep <;> subst hstep
      next hlock =>
        have hown := hinv.other_owner (hinv.owned_of_locked hlock) (hpass hlock)
        exact ⟨own, hinv.searches hlocks rfl rfl (fun _ _ h => by cases h)
          (passed_succ (hp.passed a k (by rw [hpc]; rfl)) (hp.bound k (by rw [hpc]; rfl)) hown)
          (fun _ h => by cases h)⟩
      next hlock =>
        have hfree : (c.shared k).lock = false := by simpa using hlock
        cases huse : (c.shared k).inUse with
        | false => exact ⟨_, hinv.take hpc hfree huse⟩
        | true => exact ⟨own, hinv.lockUsed hpc hfree huse⟩
  | recheck a k =>
      rw [hpc] at hpass
      simp only [coreStep, hpc] at hstep
      split at hstep <;> simp only [Option.some.injEq] at hstep <;> subst hstep
      next huse => exact ⟨own, (hinv.recheck hpc hpass).1 huse⟩
      next huse => exact ⟨own, (hinv.recheck hpc hpass).2 (by simpa using huse)⟩
  | unlockSkip a k =>
      simp only [coreStep, hpc, Option.some.injEq] at hstep
      subst hstep
      exact ⟨own, hinv.unlockSkip hpc⟩
  | setInUse a k =>
      simp only [coreStep, hpc, Option.some.injEq] at hstep
      subst hstep
      exact ⟨own, hinv.setInUse hpc⟩
  | setCoreN a k =>
      simp only [coreStep, hpc, Option.some.injEq] at hstep
      subst hstep
      exact ⟨own, hinv.setCoreN hpc⟩
  | unlock a k =>
      simp only [coreStep, hpc, Option.some.injEq] at hstep
      subst hstep
      exact ⟨own, hinv.unlock hpc⟩
  | stopped => simp [coreStep, hpc] at hstep

/-! Whole runs. -/

/-- The slots that `init_mount` leaves. -/
def initCoreMem : CoreMem := fun _ => ⟨false, -1, false⟩

/-- Processes that have not asked for their slot yet. -/
def initCoreConfig (ι : Type*) : Config ι CoreProc CoreMem := ⟨fun _ => ⟨none, 0, .idle⟩, initCoreMem⟩

omit [DecidableEq ι] in
theorem initCoreConfig_inv (cpus : Finset Nat) (ncores : Nat) :
    CoreInv cpus ncores (fun _ => none) (initCoreConfig ι) where
  fits _ :=
    { held := fun _ h => by cases h
      checked := fun _ _ h => by cases h
      claims := fun _ _ h => h.elim
      free := fun _ _ h => by cases h
      half := fun _ _ h => by cases h
      done := fun _ _ h => by cases h
      last := fun _ h => by cases h
      passed := fun _ _ h => by cases h
      bound := fun _ h => by cases h
      running := fun h => by cases h }
  mutex _ _ _ h := by cases h
  claimed _ _ h := by cases h
  unowned _ _ := ⟨rfl, rfl⟩
  blank _ _ := rfl
  named _ a h := by
    change (-1 : Int) = a at h
    omega
  inj _ _ _ h := by cases h
  before _ h := absurd rfl h
  mem _ _ h := by cases h

omit [DecidableEq ι] in
theorem CoreInv.unique (hinv : CoreInv cpus ncores own c) : CoresUnique c :=
  ⟨fun j k a hj hk => hinv.inj j k a (hinv.named j a hj.2) (hinv.named k a hk.2),
    fun i => (hinv.fits i).last, fun i => (hinv.fits i).running⟩

/-- Any number of processes on at most `ncores` CPUs: in every interleaving in which no
process passes over the slot of its own CPU, each CPU has one slot, and no process
ends for lack of one. -/
theorem cores_registered_once (hcard : cpus.card ≤ ncores)
    (hreach : Reach (coreStep ncores) (fun c i cpu => cpu ∈ cpus ∧ PassesOthers c i)
      (initCoreConfig ι) c) : CoresUnique c := by
  obtain ⟨own, hinv⟩ := hreach.invariant (P := fun c => ∃ own, CoreInv cpus ncores own c)
    ⟨_, initCoreConfig_inv cpus ncores⟩ (fun c i cpu x hinv hallow hstep => by
      obtain ⟨own, hinv⟩ := hinv
      exact hinv.step hcard hallow.1 hallow.2 hstep)
  exact hinv.unique

instance (s : CoreMem) (k a : Nat) : Decidable (Registered s k a) :=
  inferInstanceAs (Decidable (_ ∧ _))

instance (s : CoreMem) (k a : Nat) : (pc : CorePc) → Decidable (pc.claims s k a)
  | .recheck b j => inferInstanceAs (Decidable (b = a ∧ j = k ∧ (s k).inUse = false))
  | .setInUse b j => inferInstanceAs (Decidable (b = a ∧ j = k))
  | .setCoreN b j => inferInstanceAs (Decidable (b = a ∧ j = k))
  | .idle => isFalse id
  | .checkInUse _ _ => isFalse id
  | .checkCoreN _ _ => isFalse id
  | .tryLock _ _ => isFalse id
  | .unlockSkip _ _ => isFalse id
  | .unlock _ _ => isFalse id
  | .stopped => isFalse id

instance (c : Config (Fin n) CoreProc CoreMem) (k a : Nat) : Decidable (Claimed c k a) :=
  inferInstanceAs (Decidable (_ ∨ _))

instance (c : Config (Fin n) CoreProc CoreMem) (i : Fin n) : Decidable (PassesOthers c i) :=
  match hpc : (c.proc i).pc with
  | .checkCoreN a k =>
      decidable_of_iff ((c.shared k).coreN ≠ a → ¬ Claimed c k a) (by rw [PassesOthers, hpc])
  | .tryLock a k =>
      decidable_of_iff ((c.shared k).lock = true → ¬ Claimed c k a) (by rw [PassesOthers, hpc])
  | .recheck a k =>
      decidable_of_iff ((c.shared k).inUse = true → ¬ Claimed c k a) (by rw [PassesOthers, hpc])
  | .idle => isTrue (by rw [PassesOthers, hpc]; trivial)
  | .checkInUse _ _ => isTrue (by rw [PassesOthers, hpc]; trivial)
  | .unlockSkip _ _ => isTrue (by rw [PassesOthers, hpc]; trivial)
  | .setInUse _ _ => isTrue (by rw [PassesOthers, hpc]; trivial)
  | .setCoreN _ _ => isTrue (by rw [PassesOthers, hpc]; trivial)
  | .unlock _ _ => isTrue (by rw [PassesOthers, hpc]; trivial)
  | .stopped => isTrue (by rw [PassesOthers, hpc]; trivial)

/-- Two processes register their CPUs: the second passes over the first slot while the first
process has not stored its number there yet. -/
theorem cores_registered_apart : ∃ c : Config (Fin 2) CoreProc CoreMem,
    Reach (coreStep 2) (fun c i cpu => cpu ∈ ({5, 7} : Finset Nat) ∧ PassesOthers c i)
      (initCoreConfig (Fin 2)) c ∧
      (Registered c.shared 0 5 ∧ Registered c.shared 1 7) ∧ CoresUnique c := by
  obtain ⟨c, hreach, hc⟩ : ∃ c : Config (Fin 2) CoreProc CoreMem,
      Reach (coreStep 2) (fun c i cpu => cpu ∈ ({5, 7} : Finset Nat) ∧ PassesOthers c i)
        (initCoreConfig (Fin 2)) c ∧
        decide (Registered c.shared 0 5 ∧ Registered c.shared 1 7) = true :=
    exists_reach (coreStep 2) _
      (List.replicate 5 (0, 5) ++ List.replicate 9 (1, 7) ++ List.replicate 2 (0, 5))
      (fun c i cpu => decide (cpu ∈ ({5, 7} : Finset Nat) ∧ PassesOthers c i)) _
      (fun _ _ _ htest => of_decide_eq_true htest) (by decide +kernel)
  exact ⟨c, hreach, of_decide_eq_true hc, cores_registered_once (by decide) hreach⟩

/-- Two processes on one CPU: the second finds the first slot in use, but without a
number, and registers the CPU again in the second slot. -/
theorem core_registered_twice : ∃ c : Config (Fin 2) CoreProc CoreMem,
    Reach (coreStep 2) (fun _ _ cpu => cpu ∈ ({5} : Finset Nat)) (initCoreConfig (Fin 2)) c ∧
      ¬ CoresUnique c := by
  obtain ⟨c, hreach, hc⟩ : ∃ c : Config (Fin 2) CoreProc CoreMem,
      Reach (coreStep 2) (fun _ _ cpu => cpu ∈ ({5} : Finset Nat)) (initCoreConfig (Fin 2)) c ∧
        decide (((c.shared 0).inUse = true ∧ (c.shared 0).coreN = 5) ∧
          (c.shared 1).inUse = true ∧ (c.shared 1).coreN = 5) = true :=
    exists_reach (coreStep 2) _ (List.replicate 5 (0, 5) ++ List.replicate 9 (1, 5) ++ [(0, 5)])
      (fun _ _ cpu => decide (cpu = 5)) _ (fun _ _ cpu h => by simpa using h) (by decide +kernel)
  obtain ⟨h₀, h₁⟩ := of_decide_eq_true hc
  exact ⟨c, hreach, fun hex => absurd (hex.1 0 1 5 h₀ h₁) (by decide)⟩

end Spacefish
