import Spacefish.AllocRanges
import Spacefish.Lib.OwnSteps

/-!
The two models of the allocators. In one each access to the shared memory is a step, in the
other each call is. A process that runs an allocator while no other one moves does in its
steps what the call does at once, whatever places the others stand at and whatever locks
they hold.
-/

namespace Spacefish

open Interleaving Program

/-! The calls at once. -/

/-- The part of the shared memory that the allocators of data buckets work on. -/
def AllocShm.cores (s : AllocShm) : DataCores := ⟨s.data, s.coreRoughInd⟩

def AllocShm.withCores (s : AllocShm) (d : DataCores) : AllocShm :=
  { s with data := d.data, coreRoughInd := d.coreRoughInd }

def onCores {α : Type} (x : Op DataCores α) : Op AllocShm α :=
  zoom AllocShm.cores (fun d s => s.withCores d) x

def onAllocTable {α : Type} (x : Op MetaShm α) : Op AllocShm α :=
  zoom AllocShm.table (fun t s => { s with table := t }) x

/-- A method for data buckets as an allocator of buckets. -/
def allocData (m : AllocMethod) (ncores core rand : Nat) : Op AllocShm (Option Bucket) := do
  let ix ← onCores (getFreeDbucketIx m ncores core rand)
  return some (.data ix)

/-- The bucket that the call hands out; only `allocate_mbucket` returns without one. -/
def Allocator.call (ncores rand : Nat) : Allocator → Op AllocShm (Option Bucket)
  | .allRandom => allocData .allRandom ncores 0 rand
  | .allRoughInd => allocData .allRoughInd ncores 0 rand
  | .allPerCoreRandom core => allocData .allPerCoreRandom ncores core rand
  | .allPerCoreRoughInd core => allocData .allPerCoreRoughInd ncores core rand
  | .allocateMbucket => do
      let ix ← onAllocTable (Spacefish.allocateMbucket rand)
      return if ix = -1 then none else some (.mb ix)

/-- The process after a call with this result. -/
def AllocProc.returns (p : AllocProc) :
    EStateM.Result Halt AllocShm (Option Bucket) → AllocProc × AllocShm
  | .ok b s => (⟨.idle, b.toList ++ p.owned⟩, s)
  | .error _ s => (p.goTo .stopped, s)

/-! The loop of all of them. -/

/-- The first free bucket in cyclic order, with the numbers of a range laid out by `place`. -/
def AllocShm.firstFree (s : AllocShm) (place : Nat → Bucket) (start size : Nat) :
    Option Bucket :=
  (CyclicScan.scan (fun k => !s.inUse (place k) && !s.lock (place k)) start size size 0).map place

/-- What is made of the bucket found. -/
def Allocator.takes (ncores : Nat) (a : Allocator) (s : AllocShm) :
    Option Bucket → EStateM.Result Halt AllocShm (Option Bucket)
  | some b => .ok (some b) ((s.setInUse true b).roughTo ncores a b)
  | none => if a = .allocateMbucket then .ok none s else .error (.exit .dataBucketOverUse) s

variable {s : AllocShm} {b : Bucket} {ncores rand start size n i : Nat} {a : Allocator}
  {p : AllocProc} {call : AllocCall} {place : Nat → Bucket} {v : Bool}

theorem roughTo_setInUse :
    (s.roughTo ncores a b).setInUse v b = (s.setInUse v b).roughTo ncores a b := by
  cases a <;> cases b <;> rfl

theorem roughTo_setLock :
    (s.roughTo ncores a b).setLock v b = (s.setLock v b).roughTo ncores a b := by
  cases a <;> cases b <;> rfl

/-- The lock is free again when a bucket has been marked under it. -/
theorem setInUse_under_lock (hlock : s.lock b = false) :
    ((s.setLock true b).setInUse true b).setLock false b = s.setInUse true b := by
  cases b with
  | data ix =>
      have hlock' : (s.data.bucket ix).lock = false := hlock
      simp only [AllocShm.setLock, AllocShm.setInUse, DataShm.set, Function.update_self,
        Function.update_idem]
      rw [← hlock']
  | mb ix =>
      have hlock' : (s.table.mb ix).lock = false := hlock
      simp only [AllocShm.setLock, AllocShm.setInUse, MetaShm.setMb, Function.update_self,
        Function.update_idem]
      rw [← hlock']

/-- From the trylock on a free bucket to the end of the call. -/
theorem leads_take {q : Search} (huse : s.inUse b = false) (hlock : s.lock b = false) :
    Leads (allocStep ncores call) (p.goTo (.tryLock q b), s)
      (⟨.idle, b :: p.owned⟩, (s.setInUse true b).roughTo ncores q.alloc b) := by
  have huse' : ¬ (s.setLock true b).inUse b = true := by rw [setLock_inUse, huse]; simp
  have hsame := setInUse_under_lock hlock
  obtain ⟨a, start, i⟩ := q
  refine .step (if_neg (by rw [hlock]; simp)) ?_
  cases a with
  | allRoughInd =>
      refine .step (if_neg huse') (.step rfl (.step rfl (.step rfl (.of_eq (Prod.ext rfl ?_)))))
      change (((s.setLock true b).roughTo ncores .allRoughInd b).setInUse true b).setLock false b =
        _
      rw [roughTo_setInUse, roughTo_setLock, hsame]
  | allPerCoreRoughInd core =>
      refine .step (if_neg huse') (.step rfl (.step rfl (.step rfl (.of_eq (Prod.ext rfl ?_)))))
      change (((s.setLock true b).setInUse true b).setLock false b).roughTo _ _ b = _
      rw [hsame]
  | _ =>
      refine .step (if_neg huse') (.step rfl (.step rfl (.of_eq (Prod.ext rfl ?_))))
      exact hsame

/-- The rounds of the loop that are left. -/
theorem leads_rounds (hsize : a.rounds ncores = size)
    (hplace : ∀ i, Search.bucket ncores ⟨a, start, i⟩ s = place ((n + i) % size))
    {left : Nat} (hleft : i + left = size) :
    Leads (allocStep ncores call) (p.goTo (.probe ⟨a, start, i⟩), s)
      (p.returns (a.takes ncores s ((CyclicScan.scan
        (fun k => !s.inUse (place k) && !s.lock (place k)) n size left i).map place))) := by
  induction left generalizing i with
  | zero =>
      have hend : ¬ i < a.rounds ncores := by omega
      refine .step (if_neg hend) ?_
      cases a <;> exact .refl
  | succ left ih =>
      have hlt : i < a.rounds ncores := by omega
      have hnext := ih (i := i + 1) (by omega)
      have hb := hplace i
      unfold CyclicScan.scan
      cases huse : s.inUse (place ((n + i) % size)) with
      | true =>
          exact .step ((if_pos hlt).trans (if_pos (by rw [hb, huse]))) hnext
      | false =>
          have hprobe : allocStep ncores call (p.goTo (.probe ⟨a, start, i⟩)) s =
              some (p.goTo (.tryLock ⟨a, start, i⟩ (place ((n + i) % size))), s) := by
            rw [← hb] at huse ⊢
            exact (if_pos hlt).trans (if_neg (by rw [huse]; simp))
          cases hlock : s.lock (place ((n + i) % size)) with
          | true => exact .step hprobe (.step (if_pos hlock) hnext)
          | false => exact .step hprobe (leads_take huse hlock)

theorem leads_loop (hsize : a.rounds ncores = size)
    (hplace : ∀ i, Search.bucket ncores ⟨a, start, i⟩ s = place ((n + i) % size)) :
    Leads (allocStep ncores call) (p.goTo (.probe ⟨a, start, 0⟩), s)
      (p.returns (a.takes ncores s (s.firstFree place n size))) :=
  leads_rounds hsize hplace (Nat.zero_add _)

/-! The call of each allocator is this loop, behind what it does first. -/

theorem takeFirstFree_found {d : DataShm} {base k : Nat}
    (hscan : CyclicScan.scan (fun k => !(d.bucket (k + base)).inUse && !(d.bucket (k + base)).lock)
      start size size 0 = some k) :
    takeFirstFree base start size d = .ok (k + base) (d.take (k + base)) := by
  rw [takeFirstFree, run_get_bind, hscan]
  rfl

theorem takeFirstFree_none {d : DataShm} {base : Nat}
    (hscan : CyclicScan.scan (fun k => !(d.bucket (k + base)).inUse && !(d.bucket (k + base)).lock)
      start size size 0 = none) :
    takeFirstFree base start size d = .error (.exit .dataBucketOverUse) d := by
  rw [takeFirstFree, run_get_bind, hscan]
  rfl

theorem withCores_cores {s₁ : AllocShm} (htable : s₁.table = s.table) :
    s.withCores s₁.cores = s₁ := by
  rw [AllocShm.withCores, ← htable]
  rfl

theorem taken_table (ix : Nat) :
    ((s.setInUse true (.data ix)).roughTo ncores a (.data ix)).table = s.table := by
  cases a <;> rfl

/-- A method that searches `s₁`, which its first part has made of `s`, and ends with `f`. -/
theorem allocData_takes {m : AllocMethod} {core base : Nat} {s₁ : AllocShm}
    {f : Nat → Op DataCores Nat} (htable : s₁.table = s.table) (ha : a ≠ .allocateMbucket)
    (hget : getFreeDbucketIx m ncores core rand s.cores =
      (onBuckets (takeFirstFree base start size) >>= f) s₁.cores)
    (hend : ∀ ix, f ix (s₁.setInUse true (.data ix)).cores =
      .ok ix ((s₁.setInUse true (.data ix)).roughTo ncores a (.data ix)).cores) :
    allocData m ncores core rand s =
      a.takes ncores s₁ (s₁.firstFree (fun k => .data (k + base)) start size) := by
  rw [allocData, AllocShm.firstFree]
  cases hscan : CyclicScan.scan (fun k => !s₁.inUse (.data (k + base)) &&
      !s₁.lock (.data (k + base))) start size size 0 with
  | some k =>
      have hloop : onBuckets (takeFirstFree base start size) s₁.cores =
          .ok (k + base) (s₁.setInUse true (.data (k + base))).cores :=
        onBuckets_of_ok (takeFirstFree_found hscan)
      have hrun : onCores (getFreeDbucketIx m ncores core rand) s = .ok (k + base) _ :=
        zoom_of_ok (hget.trans ((bind_of_ok hloop).trans (hend (k + base))))
      rw [withCores_cores ((taken_table _).trans htable)] at hrun
      exact bind_of_ok hrun
  | none =>
      have hloop : onBuckets (takeFirstFree base start size) s₁.cores =
          .error (.exit .dataBucketOverUse) s₁.cores :=
        onBuckets_of_error (takeFirstFree_none hscan)
      have hrun : onCores (getFreeDbucketIx m ncores core rand) s = .error _ _ :=
        zoom_of_error (hget.trans (bind_of_error hloop))
      rw [withCores_cores htable] at hrun
      rw [Option.map_none, Allocator.takes, if_neg ha]
      exact bind_of_error hrun

theorem call_allRandom (hcount : s.data.dbucketsInUse ≠ totBuckets) :
    Allocator.call ncores rand .allRandom s =
      Allocator.takes ncores .allRandom s
        (s.firstFree (fun k => .data (k + 0)) (rand % totBuckets) totBuckets) := by
  have hcount' : ¬ s.cores.data.dbucketsInUse = totBuckets := hcount
  refine allocData_takes (f := fun ix => pure (id ix)) rfl (by simp) ?_ (fun _ => rfl)
  change onBuckets (bucketIxAllocAllRandom rand) s.cores = _
  rw [bucketIxAllocAllRandom_eq, allocAllRandom, run_get_bind, run_ite, if_neg hcount']

theorem call_allPerCoreRandom {core : Nat} (hper : bktsPerCore ncores ≠ 0) :
    Allocator.call ncores rand (.allPerCoreRandom core) s =
      Allocator.takes ncores (.allPerCoreRandom core) s
        (s.firstFree (fun k => .data (k + bktsPerCore ncores * core)) (rand % bktsPerCore ncores)
          (bktsPerCore ncores)) := by
  refine allocData_takes (f := fun j => pure (id j)) rfl (by simp) ?_ (fun _ => rfl)
  change allocAllPerCoreRandom id ncores core rand s.cores = _
  rw [allocAllPerCoreRandom, run_ite, if_neg hper]

/-- The shared memory after the reduction of a rough index that is out of range. -/
def AllocShm.wrapped (ncores : Nat) (s : AllocShm) : Allocator → AllocShm
  | .allRoughInd =>
      if s.data.dbucketRoughIndex ≥ totBuckets then s.wrapIndex ncores .allRoughInd else s
  | .allPerCoreRoughInd core =>
      if s.coreRoughInd core ≥ bktsPerCore ncores then
        s.wrapIndex ncores (.allPerCoreRoughInd core)
      else s
  | _ => s

theorem wrapped_table : (s.wrapped ncores a).table = s.table := by
  cases a with
  | allRoughInd => rw [AllocShm.wrapped]; split <;> rfl
  | allPerCoreRoughInd core => rw [AllocShm.wrapped]; split <;> rfl
  | _ => rfl

theorem call_allRoughInd :
    Allocator.call ncores rand .allRoughInd s =
      Allocator.takes ncores .allRoughInd (s.wrapped ncores .allRoughInd)
        ((s.wrapped ncores .allRoughInd).firstFree (fun k => .data (k + 0))
          (s.wrapped ncores .allRoughInd).data.dbucketRoughIndex totBuckets) := by
  have hstart : (if s.cores.data.dbucketRoughIndex ≥ totBuckets then
      s.cores.setRoughInd (s.cores.data.dbucketRoughIndex % totBuckets) else s.cores) =
        (s.wrapped ncores .allRoughInd).cores := by
    rw [AllocShm.wrapped]
    by_cases hbig : s.data.dbucketRoughIndex ≥ totBuckets
    · rw [if_pos hbig]
      exact if_pos hbig
    · rw [if_neg hbig]
      exact if_neg hbig
  refine allocData_takes (f := fun j => do modify (·.setRoughInd j); return id j) wrapped_table
    (by simp) ?_ (fun _ => rfl)
  change allocAllRoughInd id s.cores = _
  rw [allocAllRoughInd, run_modify_bind, run_get_bind, hstart]
  rfl

theorem call_allPerCoreRoughInd {core : Nat} (hper : bktsPerCore ncores ≠ 0) :
    Allocator.call ncores rand (.allPerCoreRoughInd core) s =
      Allocator.takes ncores (.allPerCoreRoughInd core)
        (s.wrapped ncores (.allPerCoreRoughInd core))
        ((s.wrapped ncores (.allPerCoreRoughInd core)).firstFree
          (fun k => .data (k + bktsPerCore ncores * core))
          ((s.wrapped ncores (.allPerCoreRoughInd core)).coreRoughInd core)
          (bktsPerCore ncores)) := by
  have hstart : (if s.cores.coreRoughInd core ≥ bktsPerCore ncores then
      s.cores.setCoreRoughInd core (s.cores.coreRoughInd core % bktsPerCore ncores) else s.cores) =
        (s.wrapped ncores (.allPerCoreRoughInd core)).cores := by
    rw [AllocShm.wrapped]
    by_cases hbig : s.coreRoughInd core ≥ bktsPerCore ncores
    · rw [if_pos hbig]
      exact if_pos hbig
    · rw [if_neg hbig]
      exact if_neg hbig
  refine allocData_takes
    (f := fun j => do modify (·.setCoreRoughInd core (j - bktsPerCore ncores * core)); return id j)
    wrapped_table (by simp) ?_ (fun _ => rfl)
  change allocAllPerCoreRoughInd id ncores core s.cores = _
  rw [allocAllPerCoreRoughInd, run_ite, if_neg hper]
  dsimp only
  rw [run_modify_bind, run_get_bind, hstart]
  rfl

theorem allocateMbucket_found {t : MetaShm} {k : Nat}
    (hscan : CyclicScan.scan (fun ix => !(t.mb ix).inUse && !(t.mb ix).lock) (rand % metaBuckets)
      metaBuckets metaBuckets 0 = some k) :
    allocateMbucket rand t = .ok (k : Int) (t.setMb k (fun mb => { mb with inUse := true })) := by
  rw [allocateMbucket, run_get_bind, hscan]
  rfl

theorem allocateMbucket_none {t : MetaShm}
    (hscan : CyclicScan.scan (fun ix => !(t.mb ix).inUse && !(t.mb ix).lock) (rand % metaBuckets)
      metaBuckets metaBuckets 0 = none) :
    allocateMbucket rand t = .ok (-1) t := by
  rw [allocateMbucket, run_get_bind, hscan]
  rfl

theorem call_allocateMbucket :
    Allocator.call ncores rand .allocateMbucket s =
      Allocator.takes ncores .allocateMbucket s
        (s.firstFree (fun k => .mb k) (rand % metaBuckets) metaBuckets) := by
  rw [Allocator.call, AllocShm.firstFree]
  cases hscan : CyclicScan.scan (fun k => !s.inUse (.mb k) && !s.lock (.mb k))
      (rand % metaBuckets) metaBuckets metaBuckets 0 with
  | some k =>
      refine (bind_of_ok (zoom_of_ok (allocateMbucket_found hscan))).trans ?_
      rw [if_neg (by omega)]
      rfl
  | none => exact bind_of_ok (zoom_of_ok (allocateMbucket_none hscan))

/-! The calls. -/

theorem leads_enter {pc : AllocPc} (hidle : p.pc = .idle) (henter : a.enter ncores rand s = pc) :
    Leads (allocStep ncores (.alloc a rand)) (p, s) (p.goTo pc, s) := by
  refine .step (y := (p.goTo pc, s)) ?_ .refl
  rw [allocStep, hidle, ← henter]

theorem allocator_leads (hidle : p.pc = .idle) (a : Allocator) :
    Leads (allocStep ncores (.alloc a rand)) (p, s) (p.returns (a.call ncores rand s)) := by
  cases a with
  | allRandom =>
      by_cases hcount : s.data.dbucketsInUse = totBuckets
      · have hcall : Allocator.call ncores rand .allRandom s =
            .error (.exit .dataBucketOverUse) s := by
          have hget : bucketIxAllocAllRandom rand s.data =
              .error (.exit .dataBucketOverUse) s.data := by
            rw [bucketIxAllocAllRandom, run_get_bind, run_ite, if_pos hcount]
            rfl
          exact bind_of_error (zoom_of_error (onBuckets_of_error (s := s.cores) hget))
        rw [hcall]
        exact leads_enter hidle (if_pos hcount)
      · have henter : Allocator.enter ncores rand s .allRandom =
            .probe ⟨.allRandom, rand % totBuckets, 0⟩ := if_neg hcount
        rw [call_allRandom hcount]
        exact (leads_enter hidle henter).trans (leads_loop rfl (fun _ => rfl))
  | allRoughInd =>
      rw [call_allRoughInd]
      refine Leads.trans (y := (p.goTo (.probe ⟨.allRoughInd, 0, 0⟩),
        s.wrapped ncores .allRoughInd)) ?_ (leads_loop rfl (fun _ => rfl))
      by_cases hbig : s.data.dbucketRoughIndex ≥ totBuckets
      · have henter : Allocator.enter ncores rand s .allRoughInd =
            .wrapIndex ⟨.allRoughInd, 0, 0⟩ := if_pos hbig
        rw [AllocShm.wrapped, if_pos hbig]
        exact (leads_enter hidle henter).trans (.step rfl .refl)
      · rw [AllocShm.wrapped, if_neg hbig]
        exact leads_enter hidle (if_neg hbig)
  | allPerCoreRandom core =>
      by_cases hper : bktsPerCore ncores = 0
      · have hcall : Allocator.call ncores rand (.allPerCoreRandom core) s =
            .error .undefined s := by
          refine bind_of_error (zoom_of_error (t := s.cores) ?_)
          change allocAllPerCoreRandom id ncores core rand s.cores = _
          rw [allocAllPerCoreRandom, run_ite, if_pos hper]
          rfl
        rw [hcall]
        exact leads_enter hidle (if_pos hper)
      · have henter : Allocator.enter ncores rand s (.allPerCoreRandom core) =
            .probe ⟨.allPerCoreRandom core, rand % bktsPerCore ncores, 0⟩ := if_neg hper
        rw [call_allPerCoreRandom hper]
        exact (leads_enter hidle henter).trans (leads_loop rfl (fun _ => rfl))
  | allPerCoreRoughInd core =>
      by_cases hper : bktsPerCore ncores = 0
      · have hcall : Allocator.call ncores rand (.allPerCoreRoughInd core) s =
            .error .undefined s := by
          refine bind_of_error (zoom_of_error (t := s.cores) ?_)
          change allocAllPerCoreRoughInd id ncores core s.cores = _
          rw [allocAllPerCoreRoughInd, run_ite, if_pos hper]
          rfl
        rw [hcall]
        refine leads_enter hidle ?_
        rw [Allocator.enter, if_neg (by omega), if_pos hper]
      · rw [call_allPerCoreRoughInd hper]
        refine Leads.trans (y := (p.goTo (.probe ⟨.allPerCoreRoughInd core, 0, 0⟩),
          s.wrapped ncores (.allPerCoreRoughInd core))) ?_ (leads_loop rfl (fun _ => rfl))
        by_cases hbig : s.coreRoughInd core ≥ bktsPerCore ncores
        · have henter : Allocator.enter ncores rand s (.allPerCoreRoughInd core) =
              .wrapIndex ⟨.allPerCoreRoughInd core, 0, 0⟩ := by
            rw [Allocator.enter, if_neg (by omega), if_neg hper]
          rw [AllocShm.wrapped, if_pos hbig]
          exact (leads_enter hidle henter).trans (.step rfl .refl)
        · rw [AllocShm.wrapped, if_neg hbig]
          exact leads_enter hidle (if_pos (by omega))
  | allocateMbucket =>
      rw [call_allocateMbucket]
      exact (leads_enter hidle rfl).trans (leads_loop rfl (fun _ => rfl))

/-- `release_dbucket`; it returns `0` when the bucket was in use. -/
theorem release_leads (ncores : Nat) (s : AllocShm) {ix : Nat} (hidle : p.pc = .idle)
    (hown : .data ix ∈ p.owned) :
    ∃ r d, releaseDbucket ix s.data = .ok r d ∧
      Leads (allocStep ncores (.release ix)) (p, s)
        (⟨.idle, if r = 0 then p.owned.erase (.data ix) else p.owned⟩, { s with data := d }) := by
  have hstart : Leads (allocStep ncores (.release ix)) (p, s) (p.goTo (.releaseTest ix), s) := by
    refine .step (y := (p.goTo (.releaseTest ix), s)) ?_ .refl
    rw [allocStep, hidle]
    exact if_pos hown
  rw [releaseDbucket, run_get_bind]
  by_cases huse : (s.data.bucket ix).inUse = true
  · rw [run_ite, if_pos huse]
    exact ⟨_, _, rfl, hstart.trans (.step (if_pos huse) (.step rfl (.step rfl .refl)))⟩
  · rw [run_ite, if_neg huse]
    exact ⟨_, _, rfl, hstart.trans (.step (if_neg huse) .refl)⟩

variable {ι : Type*} [DecidableEq ι] {c : Config ι AllocProc AllocShm} {k : ι}

/-- The two models agree: a process outside of the allocators, among any others at any
places, comes by its own steps of a call where the call at once takes it, and nobody else is
touched. -/
theorem allocators_alone (hidle : (c.proc k).pc = .idle) :
    (∀ (a : Allocator) rand,
      Reach (allocStep ncores) (fun _ j e => j = k ∧ e = .alloc a rand) c
        (c.move k ((c.proc k).returns (a.call ncores rand c.shared)))) ∧
    ∀ ix, .data ix ∈ (c.proc k).owned → ∃ r d, releaseDbucket ix c.shared.data = .ok r d ∧
      Reach (allocStep ncores) (fun _ j e => j = k ∧ e = .release ix) c
        (c.move k (⟨.idle, if r = 0 then (c.proc k).owned.erase (.data ix) else (c.proc k).owned⟩,
          { c.shared with data := d })) := by
  refine ⟨fun a rand => (allocator_leads hidle a).reach, fun ix hown => ?_⟩
  obtain ⟨r, d, hrun, hlead⟩ := release_leads ncores c.shared hidle hown
  exact ⟨r, d, hrun, hlead.reach⟩

/-- The first process has stopped with the lock of bucket 0 in its hands. -/
def stoppedUnderLock : Config Nat AllocProc AllocShm :=
  ⟨fun j => if j = 0 then ⟨.recheck ⟨.allRandom, 0, 0⟩ (.data 0), []⟩ else ⟨.idle, []⟩,
    initAlloc.setLock true (.data 0)⟩

/-- The second one draws the number 0 and is given bucket 1. -/
theorem allocators_alone_locked : ∃ c' : Config Nat AllocProc AllocShm,
    Reach (allocStep 1) (fun _ j e => j = 1 ∧ e = .alloc .allRandom 0) stoppedUnderLock c' ∧
      (c'.proc 1).owned = [.data 1] := by
  have hidle : (stoppedUnderLock.proc 1).pc = .idle := rfl
  refine ⟨_, (allocators_alone hidle).1 .allRandom 0, ?_⟩
  rw [Config.move_self]
  decide +kernel

end Spacefish
