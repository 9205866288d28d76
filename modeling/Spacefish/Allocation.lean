import Spacefish.Upload
import Spacefish.Lib.Interleaving

/-!
The bucket allocators under concurrency: the four whole-store and per-core
allocators of `data_shm.c`, of which the variants that return an index and a
pointer have the same body, `allocate_mbucket` of `meta_shm.c`, and
`release_dbucket`. Each access to `in_use`, to a spin lock and to a rough index
is one step. A process owns the buckets that were handed out to it and that it
has not released.
-/

namespace Spacefish

open Interleaving

/-- A data bucket or a meta bucket. -/
inductive Bucket where
  | data (ix : Nat)
  | mb (ix : Int)
  deriving DecidableEq, Repr

/-- The shared memory the allocators work on. -/
structure AllocShm where
  data : DataShm
  table : MetaShm
  /-- `rough_ind` of each core, `CRI`. -/
  coreRoughInd : Nat → Nat

def AllocShm.inUse (s : AllocShm) : Bucket → Bool
  | .data ix => (s.data.bucket ix).inUse
  | .mb ix => (s.table.mb ix).inUse

def AllocShm.lock (s : AllocShm) : Bucket → Bool
  | .data ix => (s.data.bucket ix).lock
  | .mb ix => (s.table.mb ix).lock

def AllocShm.setInUse (s : AllocShm) (v : Bool) : Bucket → AllocShm
  | .data ix => { s with data := s.data.set ix (fun db => { db with inUse := v }) }
  | .mb ix => { s with table := s.table.setMb ix (fun mb => { mb with inUse := v }) }

def AllocShm.setLock (s : AllocShm) (v : Bool) : Bucket → AllocShm
  | .data ix => { s with data := s.data.set ix (fun db => { db with lock := v }) }
  | .mb ix => { s with table := s.table.setMb ix (fun mb => { mb with lock := v }) }

/-- The allocator a caller runs; a per-core one on the core it was started on. -/
inductive Allocator where
  | allRandom
  | allRoughInd
  | allPerCoreRandom (core : Nat)
  | allPerCoreRoughInd (core : Nat)
  | allocateMbucket
  deriving DecidableEq, Repr

/-- A search under way: the first index drawn and the round of the loop. -/
structure Search where
  alloc : Allocator
  start : Nat
  i : Nat
  deriving DecidableEq, Repr

def Search.next (q : Search) : Search := { q with i := q.i + 1 }

/-- Where a process stands; the bucket is the one the current round is at. -/
inductive AllocPc where
  | idle
  /-- A rough index out of range is about to be reduced. -/
  | wrapIndex (q : Search)
  /-- The head of the loop: the first test of `in_use`. -/
  | probe (q : Search)
  | tryLock (q : Search) (b : Bucket)
  /-- The second test of `in_use`, with the lock held. -/
  | recheck (q : Search) (b : Bucket)
  /-- The bucket was in use after all, the lock is about to be given back. -/
  | unlockSkip (q : Search) (b : Bucket)
  | setRoughInd (q : Search) (b : Bucket)
  | setInUse (q : Search) (b : Bucket)
  | unlock (q : Search) (b : Bucket)
  | setCoreRoughInd (q : Search) (b : Bucket)
  | releaseTest (ix : Nat)
  | releaseClear (ix : Nat)
  | releaseCount
  /-- The process has ended. -/
  | stopped
  deriving DecidableEq, Repr

structure AllocProc where
  pc : AllocPc
  owned : List Bucket

def AllocProc.goTo (p : AllocProc) (pc : AllocPc) : AllocProc := { p with pc := pc }

/-- What an idle process does next. -/
inductive AllocCall where
  | alloc (a : Allocator) (rand : Nat)
  | release (ix : Nat)

/-- `bkts_per_core`. -/
def bktsPerCore (ncores : Nat) : Nat := totBuckets / ncores

/-- The number of rounds of the loop. -/
def Allocator.rounds (ncores : Nat) : Allocator → Nat
  | .allRandom => totBuckets
  | .allRoughInd => totBuckets
  | .allPerCoreRandom _ => bktsPerCore ncores
  | .allPerCoreRoughInd _ => bktsPerCore ncores
  | .allocateMbucket => metaBuckets

/-- The bucket of the current round. -/
def Search.bucket (ncores : Nat) (q : Search) (s : AllocShm) : Bucket :=
  match q.alloc with
  | .allRandom => .data ((q.start + q.i) % totBuckets)
  | .allRoughInd => .data ((s.data.dbucketRoughIndex + q.i) % totBuckets)
  | .allPerCoreRandom core =>
      .data ((q.start + q.i) % bktsPerCore ncores + bktsPerCore ncores * core)
  | .allPerCoreRoughInd core =>
      .data ((s.coreRoughInd core + q.i) % bktsPerCore ncores + bktsPerCore ncores * core)
  | .allocateMbucket => .mb (((q.start + q.i) % metaBuckets : Nat) : Int)

/-- The part of an allocator before its loop. A division by a `bkts_per_core` of 0
ends the process. -/
def Allocator.enter (ncores rand : Nat) (s : AllocShm) (a : Allocator) : AllocPc :=
  match a with
  | .allRandom =>
      if s.data.dbucketsInUse = totBuckets then .stopped else .probe ⟨a, rand % totBuckets, 0⟩
  | .allRoughInd =>
      if s.data.dbucketRoughIndex ≥ totBuckets then .wrapIndex ⟨a, 0, 0⟩ else .probe ⟨a, 0, 0⟩
  | .allPerCoreRandom _ =>
      if bktsPerCore ncores = 0 then .stopped else .probe ⟨a, rand % bktsPerCore ncores, 0⟩
  | .allPerCoreRoughInd core =>
      if s.coreRoughInd core < bktsPerCore ncores then .probe ⟨a, 0, 0⟩
      else if bktsPerCore ncores = 0 then .stopped
      else .wrapIndex ⟨a, 0, 0⟩
  | .allocateMbucket => .probe ⟨a, rand % metaBuckets, 0⟩

/-- The reduction of the rough index of the allocator. -/
def AllocShm.wrapIndex (ncores : Nat) (s : AllocShm) : Allocator → AllocShm
  | .allRoughInd =>
      { s with data := { s.data with dbucketRoughIndex := s.data.dbucketRoughIndex % totBuckets } }
  | .allPerCoreRoughInd core =>
      { s with coreRoughInd :=
        Function.update s.coreRoughInd core (s.coreRoughInd core % bktsPerCore ncores) }
  | _ => s

/-- The rough index moves to the bucket found. -/
def AllocShm.roughTo (ncores : Nat) (s : AllocShm) (a : Allocator) (b : Bucket) : AllocShm :=
  match a, b with
  | .allRoughInd, .data j => { s with data := { s.data with dbucketRoughIndex := j } }
  | .allPerCoreRoughInd core, .data j =>
      { s with coreRoughInd := Function.update s.coreRoughInd core (j - bktsPerCore ncores * core) }
  | _, _ => s

/-- `__sync_fetch_and_add(&dbuckets_in_use, -1)`. -/
def AllocShm.uncount (s : AllocShm) : AllocShm :=
  { s with data :=
    { s.data with dbucketsInUse := (s.data.dbucketsInUse + (2 ^ 32 - 1)) % 2 ^ 32 } }

/-- All rounds are used up: `allocate_mbucket` returns `-1`, the others end the
process. -/
def Allocator.overUse : Allocator → AllocPc
  | .allocateMbucket => .idle
  | _ => .stopped

/-- Whether the allocator stores the rough index before it sets `in_use`. -/
def Allocator.roughBefore : Allocator → Bool
  | .allRoughInd => true
  | _ => false

/-- Whether the allocator stores the rough index after it has given the lock back. -/
def Allocator.roughAfter : Allocator → Bool
  | .allPerCoreRoughInd _ => true
  | _ => false

/-- The next step of a process. -/
def allocStep (ncores : Nat) (call : AllocCall) (p : AllocProc) (s : AllocShm) :
    Option (AllocProc × AllocShm) :=
  match p.pc with
  | .idle =>
      match call with
      | .alloc a rand => some (p.goTo (a.enter ncores rand s), s)
      | .release ix => if .data ix ∈ p.owned then some (p.goTo (.releaseTest ix), s) else none
  | .wrapIndex q => some (p.goTo (.probe q), s.wrapIndex ncores q.alloc)
  | .probe q =>
      if q.i < q.alloc.rounds ncores then
        if s.inUse (q.bucket ncores s) then some (p.goTo (.probe q.next), s)
        else some (p.goTo (.tryLock q (q.bucket ncores s)), s)
      else some (p.goTo q.alloc.overUse, s)
  | .tryLock q b =>
      if s.lock b then some (p.goTo (.probe q.next), s)
      else some (p.goTo (.recheck q b), s.setLock true b)
  | .recheck q b =>
      if s.inUse b then some (p.goTo (.unlockSkip q b), s)
      else if q.alloc.roughBefore then some (p.goTo (.setRoughInd q b), s)
      else some (p.goTo (.setInUse q b), s)
  | .unlockSkip q b => some (p.goTo (.probe q.next), s.setLock false b)
  | .setRoughInd q b => some (p.goTo (.setInUse q b), s.roughTo ncores q.alloc b)
  | .setInUse q b => some (p.goTo (.unlock q b), s.setInUse true b)
  | .unlock q b =>
      if q.alloc.roughAfter then some (p.goTo (.setCoreRoughInd q b), s.setLock false b)
      else some (⟨.idle, b :: p.owned⟩, s.setLock false b)
  | .setCoreRoughInd q b => some (⟨.idle, b :: p.owned⟩, s.roughTo ncores q.alloc b)
  | .releaseTest ix =>
      if s.inUse (.data ix) then some (p.goTo (.releaseClear ix), s) else some (p.goTo .idle, s)
  | .releaseClear ix =>
      some (⟨.releaseCount, p.owned.erase (.data ix)⟩, s.setInUse false (.data ix))
  | .releaseCount => some (p.goTo .idle, s.uncount)
  | .stopped => none

variable {s : AllocShm} {b b' : Bucket} {v : Bool} {ncores : Nat} {a : Allocator}

@[simp] theorem setInUse_inUse_self : (s.setInUse v b).inUse b = v := by
  cases b <;> simp [AllocShm.setInUse, AllocShm.inUse, DataShm.set, MetaShm.setMb]

theorem setInUse_inUse_of_ne (hne : b' ≠ b) : (s.setInUse v b).inUse b' = s.inUse b' := by
  cases b <;> cases b' <;>
    simp_all [AllocShm.setInUse, AllocShm.inUse, DataShm.set, MetaShm.setMb, Function.update]

@[simp] theorem setInUse_lock : (s.setInUse v b).lock b' = s.lock b' := by
  cases b <;> cases b' <;>
    simp only [AllocShm.setInUse, AllocShm.lock, DataShm.set, MetaShm.setMb, Function.update] <;>
    split <;> simp_all

@[simp] theorem setLock_lock_self : (s.setLock v b).lock b = v := by
  cases b <;> simp [AllocShm.setLock, AllocShm.lock, DataShm.set, MetaShm.setMb]

theorem setLock_lock_of_ne (hne : b' ≠ b) : (s.setLock v b).lock b' = s.lock b' := by
  cases b <;> cases b' <;>
    simp_all [AllocShm.setLock, AllocShm.lock, DataShm.set, MetaShm.setMb, Function.update]

@[simp] theorem setLock_inUse : (s.setLock v b).inUse b' = s.inUse b' := by
  cases b <;> cases b' <;>
    simp only [AllocShm.setLock, AllocShm.inUse, DataShm.set, MetaShm.setMb, Function.update] <;>
    split <;> simp_all

/-- A step on a rough index or on the count leaves the buckets alone. -/
structure SameBuckets (s s' : AllocShm) : Prop where
  inUse : ∀ b, s'.inUse b = s.inUse b
  lock : ∀ b, s'.lock b = s.lock b

theorem SameBuckets.refl (s : AllocShm) : SameBuckets s s := ⟨fun _ => rfl, fun _ => rfl⟩

theorem wrapIndex_same : SameBuckets s (s.wrapIndex ncores a) := by
  cases a <;> exact ⟨fun b => by cases b <;> rfl, fun b => by cases b <;> rfl⟩

theorem roughTo_same : SameBuckets s (s.roughTo ncores a b) := by
  cases a <;> cases b <;> exact ⟨fun b => by cases b <;> rfl, fun b => by cases b <;> rfl⟩

theorem uncount_same : SameBuckets s s.uncount := by
  refine ⟨fun b => ?_, fun b => ?_⟩
  · cases b <;> simp only [AllocShm.uncount, AllocShm.inUse]
  · cases b <;> simp only [AllocShm.uncount, AllocShm.lock]

/-! What the place of a process says about the buckets. -/

/-- The bucket whose lock the process holds. -/
def AllocPc.locked : AllocPc → Option Bucket
  | .recheck _ b => some b
  | .unlockSkip _ b => some b
  | .setRoughInd _ b => some b
  | .setInUse _ b => some b
  | .unlock _ b => some b
  | _ => none

/-- The bucket that the process has found free under the lock. -/
def AllocPc.free : AllocPc → Option Bucket
  | .setRoughInd _ b => some b
  | .setInUse _ b => some b
  | _ => none

theorem AllocPc.locked_of_free {pc : AllocPc} (h : pc.free = some b) : pc.locked = some b := by
  cases pc with
  | setRoughInd q b' => exact h
  | setInUse q b' => exact h
  | _ => cases h

/-- The bucket that the process has marked and is about to return. -/
def AllocPc.marked : AllocPc → Option Bucket
  | .unlock _ b => some b
  | .setCoreRoughInd _ b => some b
  | _ => none

/-- The bucket that the process is releasing. -/
def AllocPc.releasing : AllocPc → Option Nat
  | .releaseTest ix => some ix
  | .releaseClear ix => some ix
  | _ => none

/-- The buckets that belong to a process. -/
def AllocProc.claims (p : AllocProc) : List Bucket := p.pc.marked.toList ++ p.owned

variable {ι : Type*} [DecidableEq ι] {c : Config ι AllocProc AllocShm} {i j : ι} {p : AllocProc}
  {s' : AllocShm} {call : AllocCall} {x : AllocProc × AllocShm}

/-- The spin locks exclude. -/
structure LockInv (c : Config ι AllocProc AllocShm) : Prop where
  locked : ∀ i b, (c.proc i).pc.locked = some b → c.shared.lock b = true
  mutex : ∀ i j b, (c.proc i).pc.locked = some b → (c.proc j).pc.locked = some b → i = j

/-- Every bucket belongs to one process at most, and only when it is in use. -/
structure ClaimInv (c : Config ι AllocProc AllocShm) : Prop where
  free : ∀ i b, (c.proc i).pc.free = some b → c.shared.inUse b = false
  used : ∀ i, ∀ b ∈ (c.proc i).claims, c.shared.inUse b = true
  apart : ∀ i j b, b ∈ (c.proc i).claims → b ∈ (c.proc j).claims → i = j
  nodup : ∀ i, (c.proc i).claims.Nodup
  owner : ∀ i ix, (c.proc i).pc.releasing = some ix → .data ix ∈ (c.proc i).owned

structure AllocInv (c : Config ι AllocProc AllocShm) : Prop extends LockInv c, ClaimInv c

/-! The locks. -/

/-- A step on no lock. -/
theorem LockInv.quiet (hinv : LockInv c) (hsame : ∀ b, x.2.lock b = c.shared.lock b)
    (hlocked : x.1.pc.locked = none ∨ x.1.pc.locked = (c.proc i).pc.locked) :
    LockInv (c.move i x) := by
  have hlock : ∀ j b, ((c.move i x).proc j).pc.locked = some b →
      (c.proc j).pc.locked = some b := by
    refine c.forall_move (fun j q => ∀ b, q.pc.locked = some b → (c.proc j).pc.locked = some b)
      (fun b hb => ?_) (fun j _ b hb => hb)
    rcases hlocked with h | h
    · rw [h] at hb
      cases hb
    · rwa [← h]
  refine ⟨?_, fun j k b hj hk => hinv.mutex j k b (hlock j b hj) (hlock k b hk)⟩
  intro j b hb
  rw [Config.move_shared, hsame]
  exact hinv.locked j b (hlock j b hb)

/-- The lock of a bucket is taken. -/
theorem LockInv.take (hinv : LockInv c) (hno : c.shared.lock b = false)
    (hlocked : p.pc.locked = some b) : LockInv (c.move i (p, c.shared.setLock true b)) := by
  have hother : ∀ j, (c.proc j).pc.locked ≠ some b := by
    intro j hj
    rw [hinv.locked j b hj] at hno
    cases hno
  refine ⟨?_, ?_⟩
  · refine c.forall_move (fun j q => ∀ b', q.pc.locked = some b' →
      (c.shared.setLock true b).lock b' = true) ?_ ?_
    · intro b' hb'
      obtain rfl : b = b' := Option.some.inj (hlocked.symm.trans hb')
      exact setLock_lock_self
    · intro j _ b' hb'
      by_cases hbb : b' = b
      · subst hbb
        exact setLock_lock_self
      · rw [setLock_lock_of_ne hbb]
        exact hinv.locked j b' hb'
  · intro j k b'
    refine c.unique_move (fun q => q.pc.locked = some b') (fun j k => hinv.mutex j k b')
      (fun hp j' _ => ?_) j k
    obtain rfl : b = b' := Option.some.inj (hlocked.symm.trans hp)
    exact hother j'

/-- The lock of a bucket is given back. -/
theorem LockInv.give (hinv : LockInv c) (hheld : (c.proc i).pc.locked = some b)
    (hlocked : p.pc.locked = none) : LockInv (c.move i (p, c.shared.setLock false b)) := by
  have hlock : ∀ j b', ((c.move i (p, c.shared.setLock false b)).proc j).pc.locked = some b' →
      j ≠ i ∧ (c.proc j).pc.locked = some b' := by
    intro j b' hj
    have hji : j ≠ i := by
      rintro rfl
      rw [Config.move_self, hlocked] at hj
      cases hj
    rw [c.move_other _ hji] at hj
    exact ⟨hji, hj⟩
  refine ⟨?_, fun j k b' hj hk => hinv.mutex j k b' (hlock j b' hj).2 (hlock k b' hk).2⟩
  intro j b' hj
  obtain ⟨hji, hj'⟩ := hlock j b' hj
  have hbb : b' ≠ b := by
    rintro rfl
    exact hji (hinv.mutex j i b' hj' hheld)
  rw [Config.move_shared, setLock_lock_of_ne hbb]
  exact hinv.locked j b' hj'

/-! The owners. -/

/-- A step that sets no `in_use`. -/
theorem ClaimInv.quiet (hinv : ClaimInv c) (hsame : ∀ b, x.2.inUse b = c.shared.inUse b)
    (hfree : ∀ b, x.1.pc.free = some b → c.shared.inUse b = false)
    (hclaims : x.1.claims = (c.proc i).claims)
    (howner : ∀ ix, x.1.pc.releasing = some ix → .data ix ∈ x.1.owned) :
    ClaimInv (c.move i x) := by
  have hcl : ∀ j, ((c.move i x).proc j).claims = (c.proc j).claims :=
    c.forall_move (fun j q => q.claims = (c.proc j).claims) hclaims (fun _ _ => rfl)
  refine ⟨?_, ?_, ?_, ?_, ?_⟩
  · refine c.forall_move (fun j q => ∀ b, q.pc.free = some b → x.2.inUse b = false) ?_ ?_
    · intro b hb
      rw [hsame]
      exact hfree b hb
    · intro j _ b hb
      rw [hsame]
      exact hinv.free j b hb
  · intro j b hb
    rw [hcl] at hb
    rw [Config.move_shared, hsame]
    exact hinv.used j b hb
  · intro j k b hj hk
    rw [hcl] at hj hk
    exact hinv.apart j k b hj hk
  · intro j
    rw [hcl]
    exact hinv.nodup j
  · exact c.forall_move (fun _ q => ∀ ix, q.pc.releasing = some ix → .data ix ∈ q.owned) howner
      (fun j _ => hinv.owner j)

/-- A free bucket is marked: it belonged to no process. -/
theorem ClaimInv.mark (hinv : ClaimInv c) (hfree : c.shared.inUse b = false)
    (hother : ∀ j ≠ i, (c.proc j).pc.free ≠ some b) (hclaims : p.claims = b :: (c.proc i).claims)
    (hpc : p.pc.free = none) (howner : p.pc.releasing = none) :
    ClaimInv (c.move i (p, c.shared.setInUse true b)) := by
  have hnone : ∀ j, b ∉ (c.proc j).claims := by
    intro j hj
    rw [hinv.used j b hj] at hfree
    cases hfree
  have hcl : ∀ j, ∀ b' ∈ ((c.move i (p, c.shared.setInUse true b)).proc j).claims,
      (j = i ∧ b' = b) ∨ b' ∈ (c.proc j).claims := by
    refine c.forall_move (fun j p => ∀ b' ∈ p.claims, (j = i ∧ b' = b) ∨ b' ∈ (c.proc j).claims)
      ?_ (fun j _ b' hb' => Or.inr hb')
    intro b' hb'
    rw [hclaims] at hb'
    exact (List.mem_cons.mp hb').imp (fun h => ⟨rfl, h⟩) id
  refine ⟨?_, ?_, ?_, ?_, ?_⟩
  · refine c.forall_move (fun j q => ∀ b', q.pc.free = some b' →
      (c.shared.setInUse true b).inUse b' = false) ?_ ?_
    · intro b' hb'
      rw [hpc] at hb'
      cases hb'
    · intro j hj b' hb'
      have hbb : b' ≠ b := by
        rintro rfl
        exact hother j hj hb'
      rw [setInUse_inUse_of_ne hbb]
      exact hinv.free j b' hb'
  · intro j b' hb'
    rw [Config.move_shared]
    by_cases hbb : b' = b
    · subst hbb
      exact setInUse_inUse_self
    · rw [setInUse_inUse_of_ne hbb]
      exact hinv.used j b' ((hcl j b' hb').resolve_left (fun h => hbb h.2))
  · intro j k b' hj hk
    rcases hcl j b' hj with ⟨hji, hbb⟩ | hj'
    · rcases hcl k b' hk with ⟨hki, _⟩ | hk'
      · rw [hji, hki]
      · exact absurd (hbb ▸ hk') (hnone k)
    · rcases hcl k b' hk with ⟨_, hbb⟩ | hk'
      · exact absurd (hbb ▸ hj') (hnone j)
      · exact hinv.apart j k b' hj' hk'
  · refine c.forall_move (fun _ p => p.claims.Nodup) ?_ (fun j _ => hinv.nodup j)
    rw [hclaims]
    exact List.nodup_cons.mpr ⟨hnone i, hinv.nodup i⟩
  · refine c.forall_move (fun _ p => ∀ ix, p.pc.releasing = some ix → .data ix ∈ p.owned) ?_
      (fun j _ => hinv.owner j)
    intro ix hix
    rw [howner] at hix
    cases hix

/-- The owner of a bucket clears its mark. -/
theorem ClaimInv.clear (hinv : ClaimInv c) (hmem : b ∈ (c.proc i).claims)
    (hclaims : p.claims = (c.proc i).claims.erase b) (hpc : p.pc.free = none)
    (howner : p.pc.releasing = none) : ClaimInv (c.move i (p, c.shared.setInUse false b)) := by
  have hcl : ∀ j, ∀ b' ∈ ((c.move i (p, c.shared.setInUse false b)).proc j).claims,
      b' ≠ b ∧ b' ∈ (c.proc j).claims := by
    refine c.forall_move (fun j p => ∀ b' ∈ p.claims, b' ≠ b ∧ b' ∈ (c.proc j).claims) ?_ ?_
    · intro b' hb'
      rw [hclaims] at hb'
      exact (hinv.nodup i).mem_erase_iff.mp hb'
    · intro j hj b' hb'
      refine ⟨?_, hb'⟩
      rintro rfl
      exact hj (hinv.apart j i b' hb' hmem)
  refine ⟨?_, ?_, ?_, ?_, ?_⟩
  · refine c.forall_move (fun j q => ∀ b', q.pc.free = some b' →
      (c.shared.setInUse false b).inUse b' = false) ?_ ?_
    · intro b' hb'
      rw [hpc] at hb'
      cases hb'
    · intro j _ b' hb'
      by_cases hbb : b' = b
      · subst hbb
        exact setInUse_inUse_self
      · rw [setInUse_inUse_of_ne hbb]
        exact hinv.free j b' hb'
  · intro j b' hb'
    obtain ⟨hbb, hb'⟩ := hcl j b' hb'
    rw [Config.move_shared, setInUse_inUse_of_ne hbb]
    exact hinv.used j b' hb'
  · exact fun j k b' hj hk => hinv.apart j k b' (hcl j b' hj).2 (hcl k b' hk).2
  · refine c.forall_move (fun _ p => p.claims.Nodup) ?_ (fun j _ => hinv.nodup j)
    rw [hclaims]
    exact (hinv.nodup i).erase b
  · refine c.forall_move (fun _ p => ∀ ix, p.pc.releasing = some ix → .data ix ∈ p.owned) ?_
      (fun j _ => hinv.owner j)
    intro ix hix
    rw [howner] at hix
    cases hix

/-! The steps. -/

/-- A step that changes no bucket. -/
theorem AllocInv.quiet {pc : AllocPc} (hinv : AllocInv c) (hsame : SameBuckets c.shared s')
    (hlocked : pc.locked = none ∨ pc.locked = (c.proc i).pc.locked)
    (hfree : ∀ b, pc.free = some b → c.shared.inUse b = false)
    (hmarked : pc.marked = (c.proc i).pc.marked)
    (hrel : ∀ ix, pc.releasing = some ix → .data ix ∈ (c.proc i).owned) :
    AllocInv (c.move i ((c.proc i).goTo pc, s')) := by
  refine ⟨hinv.toLockInv.quiet hsame.lock hlocked,
    hinv.toClaimInv.quiet hsame.inUse hfree ?_ hrel⟩
  simp only [AllocProc.claims, AllocProc.goTo, hmarked]

/-- The place of a process that holds no bucket. -/
def AllocPc.Searching (pc : AllocPc) : Prop :=
  pc.locked = none ∧ pc.free = none ∧ pc.marked = none ∧ pc.releasing = none

theorem enter_searching (ncores rand : Nat) (s : AllocShm) (a : Allocator) :
    (a.enter ncores rand s).Searching := by
  cases a <;> simp only [Allocator.enter] <;> (try split) <;> (try split) <;>
    exact ⟨rfl, rfl, rfl, rfl⟩

theorem overUse_searching (a : Allocator) : a.overUse.Searching := by
  cases a <;> exact ⟨rfl, rfl, rfl, rfl⟩

/-- A step of a process that goes on searching. -/
theorem AllocInv.search {pc : AllocPc} (hinv : AllocInv c) (hsame : SameBuckets c.shared s')
    (hpc : pc.Searching) (hbefore : (c.proc i).pc.marked = none) :
    AllocInv (c.move i ((c.proc i).goTo pc, s')) := by
  obtain ⟨hlocked, hfree, hmarked, hrel⟩ := hpc
  refine hinv.quiet hsame (Or.inl hlocked) (fun b hb => ?_) (hmarked.trans hbefore.symm)
    (fun ix hix => ?_)
  · rw [hfree] at hb
    cases hb
  · rw [hrel] at hix
    cases hix

theorem AllocInv.step (hinv : AllocInv c)
    (hstep : allocStep ncores call (c.proc i) c.shared = some x) : AllocInv (c.move i x) := by
  have hrefl := SameBuckets.refl c.shared
  unfold allocStep at hstep
  cases hpc : (c.proc i).pc with
  | idle =>
      rw [hpc] at hstep
      cases call with
      | alloc a rand =>
          obtain rfl := Option.some.inj hstep
          exact hinv.search hrefl (enter_searching ncores rand c.shared a) (by rw [hpc]; rfl)
      | release ix =>
          dsimp only at hstep
          split at hstep
          next hmem =>
            obtain rfl := Option.some.inj hstep
            refine hinv.quiet hrefl (Or.inl rfl) (fun b hb => by cases hb) (by rw [hpc]; rfl) ?_
            rintro _ ⟨⟩
            exact hmem
          next => cases hstep
  | wrapIndex q =>
      rw [hpc] at hstep
      obtain rfl := Option.some.inj hstep
      exact hinv.search wrapIndex_same ⟨rfl, rfl, rfl, rfl⟩ (by rw [hpc]; rfl)
  | probe q =>
      rw [hpc] at hstep
      dsimp only at hstep
      split at hstep
      · split at hstep
        · obtain rfl := Option.some.inj hstep
          exact hinv.search hrefl ⟨rfl, rfl, rfl, rfl⟩ (by rw [hpc]; rfl)
        · obtain rfl := Option.some.inj hstep
          exact hinv.search hrefl ⟨rfl, rfl, rfl, rfl⟩ (by rw [hpc]; rfl)
      · obtain rfl := Option.some.inj hstep
        exact hinv.search hrefl (overUse_searching q.alloc) (by rw [hpc]; rfl)
  | tryLock q b =>
      rw [hpc] at hstep
      dsimp only at hstep
      split at hstep
      · obtain rfl := Option.some.inj hstep
        exact hinv.search hrefl ⟨rfl, rfl, rfl, rfl⟩ (by rw [hpc]; rfl)
      next hno =>
        obtain rfl := Option.some.inj hstep
        refine ⟨hinv.toLockInv.take (by simpa using hno) rfl,
          hinv.toClaimInv.quiet (fun _ => setLock_inUse) (fun b hb => by cases hb) ?_
            (fun ix hix => by cases hix)⟩
        rw [AllocProc.claims, AllocProc.claims, hpc]
        rfl
  | recheck q b =>
      rw [hpc] at hstep
      dsimp only at hstep
      split at hstep
      next =>
        obtain rfl := Option.some.inj hstep
        exact hinv.quiet hrefl (Or.inr (by rw [hpc]; rfl)) (fun b hb => by cases hb)
          (by rw [hpc]; rfl) (fun ix hix => by cases hix)
      next hfree =>
        have hfree' : c.shared.inUse b = false := by simpa using hfree
        split at hstep
        · obtain rfl := Option.some.inj hstep
          refine hinv.quiet hrefl (Or.inr (by rw [hpc]; rfl)) ?_ (by rw [hpc]; rfl)
            (fun ix hix => by cases hix)
          rintro _ ⟨⟩
          exact hfree'
        · obtain rfl := Option.some.inj hstep
          refine hinv.quiet hrefl (Or.inr (by rw [hpc]; rfl)) ?_ (by rw [hpc]; rfl)
            (fun ix hix => by cases hix)
          rintro _ ⟨⟩
          exact hfree'
  | unlockSkip q b =>
      rw [hpc] at hstep
      obtain rfl := Option.some.inj hstep
      refine ⟨hinv.toLockInv.give (by rw [hpc]; rfl) rfl,
        hinv.toClaimInv.quiet (fun _ => setLock_inUse) (fun b hb => by cases hb) ?_
          (fun ix hix => by cases hix)⟩
      rw [AllocProc.claims, AllocProc.claims, hpc]
      rfl
  | setRoughInd q b =>
      rw [hpc] at hstep
      obtain rfl := Option.some.inj hstep
      refine hinv.quiet roughTo_same (Or.inr (by rw [hpc]; rfl)) ?_ (by rw [hpc]; rfl)
        (fun ix hix => by cases hix)
      rintro _ ⟨⟩
      exact hinv.free i b (by rw [hpc]; rfl)
  | setInUse q b =>
      rw [hpc] at hstep
      obtain rfl := Option.some.inj hstep
      have hheld : (c.proc i).pc.locked = some b := by rw [hpc]; rfl
      refine ⟨hinv.toLockInv.quiet (fun _ => setInUse_lock) (Or.inr hheld.symm),
        hinv.toClaimInv.mark (hinv.free i b (by rw [hpc]; rfl)) ?_ ?_ rfl rfl⟩
      · intro j hj hb
        exact hj (hinv.mutex j i b (AllocPc.locked_of_free hb) hheld)
      · rw [AllocProc.claims, AllocProc.claims, hpc]
        rfl
  | unlock q b =>
      rw [hpc] at hstep
      dsimp only at hstep
      split at hstep
      · obtain rfl := Option.some.inj hstep
        refine ⟨hinv.toLockInv.give (by rw [hpc]; rfl) rfl,
          hinv.toClaimInv.quiet (fun _ => setLock_inUse) (fun b hb => by cases hb) ?_
            (fun ix hix => by cases hix)⟩
        rw [AllocProc.claims, AllocProc.claims, hpc]
        rfl
      · obtain rfl := Option.some.inj hstep
        refine ⟨hinv.toLockInv.give (by rw [hpc]; rfl) rfl,
          hinv.toClaimInv.quiet (fun _ => setLock_inUse) (fun b hb => by cases hb) ?_
            (fun ix hix => by cases hix)⟩
        rw [AllocProc.claims, AllocProc.claims, hpc]
        rfl
  | setCoreRoughInd q b =>
      rw [hpc] at hstep
      obtain rfl := Option.some.inj hstep
      refine ⟨hinv.toLockInv.quiet roughTo_same.lock (Or.inl rfl),
        hinv.toClaimInv.quiet roughTo_same.inUse (fun b hb => by cases hb) ?_
          (fun ix hix => by cases hix)⟩
      rw [AllocProc.claims, AllocProc.claims, hpc]
      rfl
  | releaseTest ix =>
      rw [hpc] at hstep
      dsimp only at hstep
      split at hstep
      · obtain rfl := Option.some.inj hstep
        refine hinv.quiet hrefl (Or.inl rfl) (fun b hb => by cases hb) (by rw [hpc]; rfl) ?_
        rintro _ ⟨⟩
        exact hinv.owner i ix (by rw [hpc]; rfl)
      · obtain rfl := Option.some.inj hstep
        exact hinv.search hrefl ⟨rfl, rfl, rfl, rfl⟩ (by rw [hpc]; rfl)
  | releaseClear ix =>
      rw [hpc] at hstep
      obtain rfl := Option.some.inj hstep
      have hclaims : (c.proc i).claims = (c.proc i).owned := by
        rw [AllocProc.claims, hpc]
        rfl
      refine ⟨hinv.toLockInv.quiet (fun _ => setInUse_lock) (Or.inl rfl),
        hinv.toClaimInv.clear ?_ ?_ rfl rfl⟩
      · rw [hclaims]
        exact hinv.owner i ix (by rw [hpc]; rfl)
      · rw [hclaims]
        rfl
  | releaseCount =>
      rw [hpc] at hstep
      obtain rfl := Option.some.inj hstep
      exact hinv.search uncount_same ⟨rfl, rfl, rfl, rfl⟩ (by rw [hpc]; rfl)
  | stopped =>
      rw [hpc] at hstep
      cases hstep

/-- Idle processes that own nothing, and a shared memory with no lock held. -/
def idleAlloc (s : AllocShm) : Config ι AllocProc AllocShm := ⟨fun _ => ⟨.idle, []⟩, s⟩

omit [DecidableEq ι] in
theorem idleAlloc_inv (s : AllocShm) : AllocInv (idleAlloc s : Config ι AllocProc AllocShm) := by
  refine ⟨⟨?_, ?_⟩, ⟨?_, ?_, ?_, ?_, ?_⟩⟩
  · intro i b h
    cases h
  · intro i j b h
    cases h
  · intro i b h
    cases h
  · intro i b h
    cases h
  · intro i j b h
    cases h
  · exact fun i => List.nodup_nil
  · intro i ix h
    cases h

/-- In every interleaving of any number of processes, a bucket that was handed
out to one process and not released is owned by no other process, and was handed
out to its owner once. -/
theorem no_double_allocation {s : AllocShm}
    (hreach : Reach (allocStep ncores) (fun _ _ _ => True) (idleAlloc s) c) :
    (∀ i j b, b ∈ (c.proc i).owned → b ∈ (c.proc j).owned → i = j) ∧
      ∀ i, (c.proc i).owned.Nodup := by
  have hinv : AllocInv c := hreach.invariant (idleAlloc_inv s)
    (fun c i e x hinv _ hstep => hinv.step hstep)
  refine ⟨fun i j b hi hj => ?_, fun i => ?_⟩
  · exact hinv.apart i j b (List.mem_append_right _ hi) (List.mem_append_right _ hj)
  · exact (List.nodup_append.mp (hinv.nodup i)).2.1

/-- The shared memory that `init_mount` leaves. -/
def initAlloc : AllocShm := ⟨initData, initTable, fun _ => 0⟩

theorem no_double_allocation_two : ∃ c : Config Nat AllocProc AllocShm,
    Reach (allocStep 1) (fun _ _ _ => True) (idleAlloc initAlloc) c ∧
      (c.proc 0).owned = [.data 0] ∧ (c.proc 1).owned = [.data 1] ∧
      ∀ i j b, b ∈ (c.proc i).owned → b ∈ (c.proc j).owned → i = j := by
  obtain ⟨c, hreach, hc⟩ : ∃ c : Config Nat AllocProc AllocShm,
      Reach (allocStep 1) (fun _ _ _ => True) (idleAlloc initAlloc) c ∧
        ((c.proc 0).owned == [.data 0] && (c.proc 1).owned == [.data 1]) = true :=
    exists_reach (allocStep 1) (idleAlloc initAlloc)
      (List.replicate 6 (0, .alloc .allRandom 0) ++ List.replicate 7 (1, .alloc .allRandom 0))
      (fun _ _ _ => true) (fun c => (c.proc 0).owned == [.data 0] && (c.proc 1).owned == [.data 1])
      (fun _ _ _ _ => trivial) (by decide +kernel)
  rw [Bool.and_eq_true, beq_iff_eq, beq_iff_eq] at hc
  exact ⟨c, hreach, hc.1, hc.2, (no_double_allocation hreach).1⟩

end Spacefish
