import Spacefish.Allocation
import Spacefish.Lib.CyclicScan

/-!
When a search for a free bucket gives up. Where the search starts at a random index and
no bucket is released meanwhile, a process that has used up its rounds has met every
bucket of its range in use, or in the hands of another process that had its lock. The
searches from a rough index are left out: the index moves under them.
-/

namespace Spacefish

open Interleaving

/-- The search starts at a random index, which stays fixed. -/
def Allocator.random : Allocator → Bool
  | .allRandom => true
  | .allPerCoreRandom _ => true
  | .allocateMbucket => true
  | _ => false

/-- The buckets that the allocator hands out. -/
def Allocator.covers (ncores : Nat) (a : Allocator) (b : Bucket) : Prop :=
  match a, b with
  | .allRandom, .data ix => ix < totBuckets
  | .allRoughInd, .data ix => ix < totBuckets
  | .allPerCoreRandom core, .data ix =>
      bktsPerCore ncores * core ≤ ix ∧ ix < bktsPerCore ncores * (core + 1)
  | .allPerCoreRoughInd core, .data ix =>
      bktsPerCore ncores * core ≤ ix ∧ ix < bktsPerCore ncores * (core + 1)
  | .allocateMbucket, .mb ix => 0 ≤ ix ∧ ix < metaBuckets
  | _, _ => False

/-- The bucket of round `k` of a search with a fixed start. -/
def Search.round (ncores : Nat) (q : Search) (k : Nat) : Bucket :=
  match q.alloc with
  | .allPerCoreRandom core =>
      .data ((q.start + k) % bktsPerCore ncores + bktsPerCore ncores * core)
  | .allocateMbucket => .mb (((q.start + k) % metaBuckets : Nat) : Int)
  | _ => .data ((q.start + k) % totBuckets)

variable {ncores k : Nat} {a : Allocator} {q q' : Search} {b : Bucket} {s s' : AllocShm}
  {p : AllocProc} {call : AllocCall} {x : AllocProc × AllocShm}

theorem Search.bucket_eq (s : AllocShm) (hrandom : q.alloc.random = true) :
    q.bucket ncores s = q.round ncores q.i := by
  unfold Search.bucket Search.round
  cases halloc : q.alloc <;> rw [halloc] at hrandom <;> first | rfl | cases hrandom

/-- The rounds of a search cover the range of its allocator. -/
theorem Search.round_covers (hrandom : q.alloc.random = true) (hb : q.alloc.covers ncores b) :
    ∃ k < q.alloc.rounds ncores, q.round ncores k = b := by
  unfold Search.round
  cases halloc : q.alloc with
  | allRandom =>
      rw [halloc] at hb
      cases b with
      | mb ix => exact hb.elim
      | data ix =>
          obtain ⟨k, hk, hix⟩ := CyclicScan.exists_probe q.start hb
          exact ⟨k, hk, by rw [hix]⟩
  | allPerCoreRandom core =>
      rw [halloc] at hb
      cases b with
      | mb ix => exact hb.elim
      | data ix =>
          obtain ⟨hlow, hhigh⟩ := hb
          rw [Nat.mul_add, Nat.mul_one] at hhigh
          obtain ⟨k, hk, hix⟩ := CyclicScan.exists_probe q.start
            (show ix - bktsPerCore ncores * core < bktsPerCore ncores by omega)
          refine ⟨k, hk, ?_⟩
          rw [hix]
          exact congrArg Bucket.data (by omega)
  | allocateMbucket =>
      rw [halloc] at hb
      cases b with
      | data ix => exact hb.elim
      | mb ix =>
          obtain ⟨hlow, hhigh⟩ := hb
          obtain ⟨k, hk, hix⟩ := CyclicScan.exists_probe q.start
            (show ix.toNat < metaBuckets by omega)
          refine ⟨k, hk, ?_⟩
          rw [hix]
          exact congrArg Bucket.mb (Int.toNat_of_nonneg hlow)
  | _ =>
      rw [halloc] at hrandom
      cases hrandom

/-! What one step does. -/

/-- The search that the process is in. -/
def AllocPc.search : AllocPc → Option Search
  | .wrapIndex q => some q
  | .probe q => some q
  | .tryLock q _ => some q
  | .recheck q _ => some q
  | .unlockSkip q _ => some q
  | .setRoughInd q _ => some q
  | .setInUse q _ => some q
  | _ => none

/-- The process is releasing a bucket. -/
def AllocPc.releases : AllocPc → Bool
  | .releaseTest _ => true
  | .releaseClear _ => true
  | .releaseCount => true
  | _ => false

/-- What the place of a process says, when its search has a fixed start: the bucket it is at
is that of its round, and one that is skipped under its lock is in use. -/
def AllocPc.Placed (ncores : Nat) (s : AllocShm) : AllocPc → Prop
  | .tryLock q b => q.alloc.random = true → b = q.round ncores q.i
  | .recheck q b => q.alloc.random = true → b = q.round ncores q.i
  | .unlockSkip q b => s.inUse b = true ∧ (q.alloc.random = true → b = q.round ncores q.i)
  | _ => True

/-- What a step that releases nothing does to the buckets. -/
structure Advances (ncores : Nat) (p : AllocProc) (s : AllocShm) (x : AllocProc × AllocShm) : Prop where
  releases : x.1.pc.releases = false
  placed : x.1.pc.Placed ncores x.2
  inUse : ∀ b, s.inUse b = true → x.2.inUse b = true
  locked : ∀ b, p.pc.locked = some b → x.1.pc.locked = some b ∨ x.2.inUse b = true
  lock : ∀ b, x.2.lock b = true →
    x.1.pc.locked = some b ∨ s.lock b = true ∧ p.pc.locked ≠ some b
  search : ∀ q, x.1.pc.search = some q → q.i = 0 ∨ p.pc.search = some q ∨
    ∃ q₀, p.pc.search = some q₀ ∧ q = q₀.next ∧ (q₀.alloc.random = true →
      s.inUse (q₀.round ncores q₀.i) = true ∨ s.lock (q₀.round ncores q₀.i) = true)

theorem AllocPc.Placed.mono {pc : AllocPc} (hplaced : pc.Placed ncores s)
    (hmono : ∀ b, s.inUse b = true → s'.inUse b = true) : pc.Placed ncores s' := by
  cases pc with
  | unlockSkip q b => exact ⟨hmono b hplaced.1, hplaced.2⟩
  | _ => exact hplaced

/-- A step on no bucket and no lock. -/
theorem Advances.quiet {p' : AllocProc} (hsame : SameBuckets s s')
    (hreleases : p'.pc.releases = false) (hplaced : p'.pc.Placed ncores s')
    (hlocked : p'.pc.locked = p.pc.locked)
    (hsearch : ∀ q, p'.pc.search = some q → q.i = 0 ∨ p.pc.search = some q ∨
      ∃ q₀, p.pc.search = some q₀ ∧ q = q₀.next ∧ (q₀.alloc.random = true →
        s.inUse (q₀.round ncores q₀.i) = true ∨ s.lock (q₀.round ncores q₀.i) = true)) :
    Advances ncores p s (p', s') := by
  refine ⟨hreleases, hplaced, fun b hb => (hsame.inUse b).trans hb,
    fun b hb => Or.inl (hlocked.trans hb), fun b hb => ?_, hsearch⟩
  by_cases hheld : p.pc.locked = some b
  · exact Or.inl (hlocked.trans hheld)
  · exact Or.inr ⟨(hsame.lock b).symm.trans hb, hheld⟩

theorem enter_search (hq : (a.enter ncores k s).search = some q) : q.i = 0 := by
  cases a <;> simp only [Allocator.enter] at hq <;> (repeat' split at hq) <;>
    first | cases hq; done | (obtain rfl := Option.some.inj hq; rfl)

theorem enter_quiet (a : Allocator) (ncores k : Nat) (s : AllocShm) :
    (a.enter ncores k s).releases = false ∧ (a.enter ncores k s).Placed ncores s ∧
      (a.enter ncores k s).locked = none := by
  cases a <;> simp only [Allocator.enter] <;> (repeat' split) <;> exact ⟨rfl, trivial, rfl⟩

theorem overUse_quiet (a : Allocator) (ncores : Nat) (s : AllocShm) :
    a.overUse.releases = false ∧ a.overUse.Placed ncores s ∧ a.overUse.locked = none ∧
      a.overUse.search = none := by
  cases a <;> exact ⟨rfl, trivial, rfl, rfl⟩

/-- Every step that releases nothing. -/
theorem allocStep_advances (hno : ∀ ix, call ≠ .release ix) (hreleases : p.pc.releases = false)
    (hplaced : p.pc.Placed ncores s) (hmarked : ∀ b, p.pc.marked = some b → s.inUse b = true)
    (hstep : allocStep ncores call p s = some x) : Advances ncores p s x := by
  obtain ⟨pc, owned⟩ := p
  cases pc with
  | idle =>
      cases call with
      | alloc a rand =>
          obtain rfl := Option.some.inj hstep
          obtain ⟨h₁, h₂, h₃⟩ := enter_quiet a ncores rand s
          exact .quiet (.refl s) h₁ h₂ h₃ (fun q hq => Or.inl (enter_search hq))
      | release ix => exact absurd rfl (hno ix)
  | wrapIndex q =>
      obtain rfl := Option.some.inj hstep
      exact .quiet wrapIndex_same rfl trivial rfl (fun _ hq => Or.inr (Or.inl hq))
  | probe q =>
      simp only [allocStep] at hstep
      split at hstep
      · split at hstep
        next huse =>
          obtain rfl := Option.some.inj hstep
          refine .quiet (.refl s) rfl trivial rfl (fun q' hq => Or.inr (Or.inr ⟨q, rfl, ?_, ?_⟩))
          · exact (Option.some.inj hq).symm
          · exact fun hrandom => Or.inl (q.bucket_eq s hrandom ▸ huse)
        next =>
          obtain rfl := Option.some.inj hstep
          exact .quiet (.refl s) rfl (fun hrandom => q.bucket_eq s hrandom) rfl
            (fun _ hq => Or.inr (Or.inl hq))
      · obtain rfl := Option.some.inj hstep
        obtain ⟨h₁, h₂, h₃, h₄⟩ := overUse_quiet q.alloc ncores s
        exact .quiet (.refl s) h₁ h₂ h₃ (fun q' hq => by cases h₄.symm.trans hq)
  | tryLock q b =>
      simp only [allocStep] at hstep
      split at hstep
      next hlock =>
        obtain rfl := Option.some.inj hstep
        refine .quiet (.refl s) rfl trivial rfl (fun q' hq => Or.inr (Or.inr ⟨q, rfl, ?_, ?_⟩))
        · exact (Option.some.inj hq).symm
        · exact fun hrandom => Or.inr (hplaced hrandom ▸ hlock)
      next =>
        obtain rfl := Option.some.inj hstep
        refine ⟨rfl, hplaced, fun b' hb' => setLock_inUse.trans hb', (fun b' hb' => by cases hb'),
          fun b' hb' => ?_, fun _ hq => Or.inr (Or.inl hq)⟩
        by_cases hbb : b' = b
        · exact Or.inl (congrArg some hbb.symm)
        · rw [setLock_lock_of_ne hbb] at hb'
          exact Or.inr ⟨hb', by simp [AllocPc.locked]⟩
  | recheck q b =>
      simp only [allocStep] at hstep
      split at hstep
      next huse =>
        obtain rfl := Option.some.inj hstep
        exact .quiet (.refl s) rfl ⟨huse, hplaced⟩ rfl (fun _ hq => Or.inr (Or.inl hq))
      next =>
        split at hstep <;> obtain rfl := Option.some.inj hstep <;>
          exact .quiet (.refl s) rfl trivial rfl (fun _ hq => Or.inr (Or.inl hq))
  | unlockSkip q b =>
      obtain rfl := Option.some.inj hstep
      obtain ⟨huse, hround⟩ := hplaced
      refine ⟨rfl, trivial, fun b' hb' => setLock_inUse.trans hb', fun b' hb' => ?_,
        fun b' hb' => ?_, fun q' hq => Or.inr (Or.inr ⟨q, rfl, ?_, ?_⟩)⟩
      · obtain rfl := Option.some.inj hb'
        exact Or.inr (setLock_inUse.trans huse)
      · by_cases hbb : b' = b
        · subst hbb
          rw [setLock_lock_self] at hb'
          cases hb'
        · rw [setLock_lock_of_ne hbb] at hb'
          exact Or.inr ⟨hb', fun h => hbb (Option.some.inj h).symm⟩
      · exact (Option.some.inj hq).symm
      · exact fun hrandom => Or.inl (hround hrandom ▸ huse)
  | setRoughInd q b =>
      obtain rfl := Option.some.inj hstep
      exact .quiet roughTo_same rfl trivial rfl (fun _ hq => Or.inr (Or.inl hq))
  | setInUse q b =>
      obtain rfl := Option.some.inj hstep
      refine ⟨rfl, trivial, fun b' hb' => ?_, fun b' hb' => Or.inl hb', fun b' hb' => ?_,
        fun _ hq => by cases hq⟩
      · by_cases hbb : b' = b
        · rw [hbb]
          exact setInUse_inUse_self
        · exact (setInUse_inUse_of_ne hbb).trans hb'
      · by_cases hbb : b' = b
        · exact Or.inl (congrArg some hbb.symm)
        · exact Or.inr ⟨setInUse_lock.symm.trans hb', fun h => hbb (Option.some.inj h).symm⟩
  | unlock q b =>
      have hgive : ∀ p' : AllocProc, p'.pc.releases = false → p'.pc.Placed ncores (s.setLock false b) →
          p'.pc.search = none → Advances ncores ⟨.unlock q b, owned⟩ s (p', s.setLock false b) := by
        intro p' h₁ h₂ h₃
        refine ⟨h₁, h₂, fun b' hb' => setLock_inUse.trans hb', fun b' hb' => ?_, fun b' hb' => ?_,
          fun q' hq => by rw [h₃] at hq; cases hq⟩
        · obtain rfl := Option.some.inj hb'
          exact Or.inr (setLock_inUse.trans (hmarked b rfl))
        · by_cases hbb : b' = b
          · subst hbb
            rw [setLock_lock_self] at hb'
            cases hb'
          · rw [setLock_lock_of_ne hbb] at hb'
            exact Or.inr ⟨hb', fun h => hbb (Option.some.inj h).symm⟩
      simp only [allocStep] at hstep
      split at hstep <;> obtain rfl := Option.some.inj hstep <;> exact hgive _ rfl trivial rfl
  | setCoreRoughInd q b =>
      obtain rfl := Option.some.inj hstep
      exact .quiet roughTo_same rfl trivial rfl (fun _ hq => by cases hq)
  | stopped => cases hstep
  | _ => cases hreleases

/-! Runs. -/

variable {ι : Type*} {c c' : Config ι AllocProc AllocShm} {i j : ι}

/-- The bucket is in use, or a process has its lock. -/
def Taken (c : Config ι AllocProc AllocShm) (b : Bucket) : Prop :=
  c.shared.inUse b = true ∨ ∃ j, (c.proc j).pc.locked = some b

/-- No process begins to release a bucket. -/
def Unreleased (_ : Config ι AllocProc AllocShm) (_ : ι) (call : AllocCall) : Prop :=
  ∀ ix, call ≠ .release ix

/-- A search with a fixed start has met the buckets of its past rounds, and they are still
taken. -/
structure ScanInv (ncores : Nat) (c : Config ι AllocProc AllocShm) : Prop where
  releases : ∀ i, (c.proc i).pc.releases = false
  placed : ∀ i, (c.proc i).pc.Placed ncores c.shared
  held : ∀ b, c.shared.lock b = true → ∃ j, (c.proc j).pc.locked = some b
  seen : ∀ i q, (c.proc i).pc.search = some q → q.alloc.random = true →
    ∀ k < q.i, Taken c (q.round ncores k)

theorem idleAlloc_scanInv (hlocks : ∀ b, s.lock b = false) :
    ScanInv ncores (idleAlloc s : Config ι AllocProc AllocShm) := by
  refine ⟨fun _ => rfl, fun _ => trivial, fun b hb => ?_, fun _ _ hq => by cases hq⟩
  change s.lock b = true at hb
  rw [hlocks b] at hb
  cases hb

variable [DecidableEq ι]

theorem Taken.advance (htaken : Taken c b) (hadv : Advances ncores (c.proc i) c.shared x) :
    Taken (c.move i x) b := by
  rcases htaken with huse | ⟨j, hj⟩
  · exact Or.inl (hadv.inUse b huse)
  · by_cases hji : j = i
    · subst hji
      rcases hadv.locked b hj with h | h
      · exact Or.inr ⟨j, by rw [Config.move_self]; exact h⟩
      · exact Or.inl h
    · exact Or.inr ⟨j, by rw [c.move_other x hji]; exact hj⟩

theorem ScanInv.step (hinv : ScanInv ncores c) (hclaims : AllocInv c)
    (hno : ∀ ix, call ≠ .release ix)
    (hstep : allocStep ncores call (c.proc i) c.shared = some x) :
    ScanInv ncores (c.move i x) := by
  have hmarked : ∀ b, (c.proc i).pc.marked = some b → c.shared.inUse b = true := by
    intro b hb
    refine hclaims.used i b ?_
    rw [AllocProc.claims, hb]
    exact List.mem_cons_self ..
  have hadv : Advances ncores (c.proc i) c.shared x :=
    allocStep_advances hno (hinv.releases i) (hinv.placed i) hmarked hstep
  refine ⟨c.forall_move (fun _ p => p.pc.releases = false) hadv.releases
      (fun j _ => hinv.releases j), c.forall_move (fun _ p => p.pc.Placed ncores x.2) hadv.placed
      (fun j _ => (hinv.placed j).mono hadv.inUse), fun b hb => ?_, fun j q hq hrandom k hk => ?_⟩
  · rcases hadv.lock b hb with h | ⟨hold, hne⟩
    · exact ⟨i, by rw [Config.move_self]; exact h⟩
    · obtain ⟨j, hj⟩ := hinv.held b hold
      have hji : j ≠ i := by
        rintro rfl
        exact hne hj
      exact ⟨j, by rw [c.move_other x hji]; exact hj⟩
  · by_cases hji : j = i
    · subst hji
      rw [Config.move_self] at hq
      rcases hadv.search q hq with hzero | hsame | ⟨q₀, hq₀, rfl, hmet⟩
      · omega
      · exact (hinv.seen j q hsame hrandom k hk).advance hadv
      · by_cases hlast : k < q₀.i
        · exact (hinv.seen j q₀ hq₀ hrandom k hlast).advance hadv
        · -- the round that has just ended
          obtain rfl : k = q₀.i := by
            have : k < q₀.i + 1 := hk
            omega
          refine Taken.advance ?_ hadv
          exact (hmet hrandom).imp id (hinv.held _)
    · rw [c.move_other x hji] at hq
      exact (hinv.seen j q hq hrandom k hk).advance hadv

/-- In every interleaving in which no bucket is released, from any store whose locks are
free: a process that gives up a search with a fixed start finds every bucket of its range in
use, or locked by another process that is about to take it or has seen it in use. -/
theorem give_up_honest (hlocks : ∀ b, s.lock b = false)
    (hreach : Reach (allocStep ncores) Unreleased (idleAlloc s) c)
    (hpc : (c.proc i).pc = .probe q) (hlast : q.alloc.rounds ncores ≤ q.i)
    (hrandom : q.alloc.random = true) (hb : q.alloc.covers ncores b) :
    c.shared.inUse b = true ∨ ∃ j, j ≠ i ∧ (c.proc j).pc.locked = some b := by
  have hall : ScanInv ncores c ∧ AllocInv c :=
    hreach.invariant (P := fun c => ScanInv ncores c ∧ AllocInv c)
      ⟨idleAlloc_scanInv hlocks, idleAlloc_inv s⟩
      (fun _ _ _ _ hinv hno hstep => ⟨hinv.1.step hinv.2 hno hstep, hinv.2.step hstep⟩)
  obtain ⟨k, hk, rfl⟩ := Search.round_covers hrandom hb
  rcases hall.1.seen i q (by rw [hpc]; rfl) hrandom k (by omega) with huse | ⟨j, hj⟩
  · exact Or.inl huse
  · refine Or.inr ⟨j, ?_, hj⟩
    rintro rfl
    rw [hpc] at hj
    cases hj

def AllocCall.isAlloc : AllocCall → Bool
  | .alloc _ _ => true
  | .release _ => false

theorem AllocCall.isAlloc_spec (h : call.isAlloc = true) (ix : Nat) : call ≠ .release ix := by
  rintro rfl
  cases h

/-- Two processes on a core that has two buckets: the first one has taken one of them and
locked the other. -/
theorem give_up_honest_two : ∃ c : Config Nat AllocProc AllocShm,
    (∃ q, (c.proc 1).pc = .probe q ∧ q.alloc.rounds (totBuckets / 2) ≤ q.i) ∧
      (c.shared.inUse (.data 0) = true ∨ ∃ j, j ≠ 1 ∧ (c.proc j).pc.locked = some (.data 0)) ∧
      (c.shared.inUse (.data 1) = true ∨ ∃ j, j ≠ 1 ∧ (c.proc j).pc.locked = some (.data 1)) := by
  obtain ⟨c, hreach, hc⟩ : ∃ c : Config Nat AllocProc AllocShm,
      Reach (allocStep (totBuckets / 2)) Unreleased (idleAlloc initAlloc) c ∧
        ((c.proc 1).pc == .probe ⟨.allPerCoreRandom 0, 0, 2⟩) = true :=
    exists_reach (allocStep (totBuckets / 2)) (idleAlloc initAlloc)
      (List.replicate 10 (0, .alloc (.allPerCoreRandom 0) 1) ++
        List.replicate 4 (1, .alloc (.allPerCoreRandom 0) 0))
      (fun _ _ call => call.isAlloc) (fun c => (c.proc 1).pc == .probe ⟨.allPerCoreRandom 0, 0, 2⟩)
      (fun _ _ _ h => AllocCall.isAlloc_spec h) (by decide +kernel)
  have hpc := beq_iff_eq.mp hc
  have hfree : ∀ b, initAlloc.lock b = false := fun b => by cases b <;> rfl
  have hfirst : Allocator.covers (totBuckets / 2) (.allPerCoreRandom 0) (.data 0) :=
    ⟨by decide, by decide⟩
  have hsecond : Allocator.covers (totBuckets / 2) (.allPerCoreRandom 0) (.data 1) :=
    ⟨by decide, by decide⟩
  exact ⟨c, ⟨_, hpc, by decide⟩, give_up_honest hfree hreach hpc (by decide) rfl hfirst,
    give_up_honest hfree hreach hpc (by decide) rfl hsecond⟩

end Spacefish
