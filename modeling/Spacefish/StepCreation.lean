import Spacefish.Data
import Spacefish.Lib.Interleaving

/-!
The allocator that grows the store in steps, `bucket_ix_alloc_steps` of
`data_shm.c` (`bucket_ptr_alloc_steps` has the same body), under concurrency.
Each read of `dbucket_steps`, each operation on a lock and each creation of a
step is one atomic step of a process. `try_create_step` creates the step whose
number was tested before the lock was taken; a step is created once when no
process stands between that test and its trylock when the lock is given back.
-/

namespace Spacefish

open Interleaving

/-- The shared memory of the store with the shm objects of its steps. `creates`
records the executions of `create_map_dbucket_step`, each with its argument and
the value of `dbucket_steps` at that time. -/
structure StepsShm where
  data : DataShm
  /-- The lock of `sys_glob`. -/
  lock : Bool
  segment : Nat → Bool
  creates : List (Nat × Nat)

/-- A traversal of the current buckets: `steps_read`, the rough index and the round. -/
structure Traversal where
  stepsRead : Nat
  j : Nat
  i : Nat
  deriving DecidableEq, Repr

def Traversal.next (q : Traversal) : Traversal := { q with i := q.i + 1 }

def Traversal.currentNumBuckets (q : Traversal) : Nat := dataBucketsStep * q.stepsRead

/-- `local_ix`, an unsigned sum. -/
def Traversal.localIx (q : Traversal) : Nat := (q.i + q.j) % 2 ^ 32

/-- The bucket of the current round. -/
def Traversal.bucket (q : Traversal) : Nat := q.localIx % q.currentNumBuckets

/-- The message with which a process ends. -/
inductive StepsErr where
  | dataBucketOverUse
  | maxStepsCreated
  /-- `shm_open` with `O_EXCL` finds the object of the step. -/
  | shmOpenExcl
  | shmOpen
  | stepNotYetCreated
  | tryCreateStep
  deriving DecidableEq, Repr

/-- Where a process stands. -/
inductive StepsPc where
  | idle
  /-- The rough index is out of range, the trylock comes next. -/
  | tryWrap
  | wrapIndex
  | unlockWrap
  | readSteps
  | checkFull (stepsRead : Nat)
  /-- The start of `try_create_step`. -/
  | tryCreateStep (stepsRead : Nat)
  | tryLock (stepsRead : Nat)
  | create (stepsRead : Nat)
  | unlock
  /-- The lock was busy: the loop on `dbucket_steps`. -/
  | wait (stepsRead : Nat)
  | mapCreated (stepsRead : Nat)
  | traverse
  | readCurrent (j : Nat)
  | getDbucketPtr (q : Traversal)
  | probe (q : Traversal)
  | lockBucket (q : Traversal)
  | recheck (q : Traversal)
  | unlockSkip (q : Traversal)
  | setRoughInd (q : Traversal)
  | setInUse (q : Traversal)
  | unlockBucket (q : Traversal)
  | count (q : Traversal)
  | initFields (q : Traversal)
  | stopped (e : StepsErr)
  deriving DecidableEq, Repr

/-- A process and the steps it has mapped, `data_steps`. -/
structure StepsProc where
  pc : StepsPc
  mapped : Nat → Bool

def StepsProc.goTo (p : StepsProc) (pc : StepsPc) : StepsProc := { p with pc := pc }

/-- `open_map_datastep`. -/
def StepsProc.openMapDatastep (p : StepsProc) (s : StepsShm) (k : Nat) (pc : StepsPc) :
    StepsProc :=
  if s.segment k then { pc := pc, mapped := Function.update p.mapped k true }
  else p.goTo (.stopped .shmOpen)

def StepsShm.setBucket (s : StepsShm) (ix : Nat) (f : DataBucket → DataBucket) : StepsShm :=
  { s with data := s.data.set ix f }

def StepsShm.setLock (s : StepsShm) (v : Bool) : StepsShm := { s with lock := v }

/-- The buckets of step `k` after `init_dbucket`. -/
def DataShm.initStep (d : DataShm) (k : Nat) : DataShm :=
  { d with bucket := fun ix =>
      if ix / dataBucketsStep = k then
        { d.bucket ix with inUse := false, nextIx := noIx, bytes := 0, lock := false }
      else d.bucket ix }

/-- `create_map_dbucket_step` on a step that has no shm object yet. -/
def StepsShm.createStep (s : StepsShm) (k : Nat) : StepsShm :=
  { s with
    data := { s.data.initStep k with dbucketSteps := s.data.dbucketSteps + 1 }
    segment := Function.update s.segment k true }

/-- The first step that the process has not mapped. -/
def StepsProc.firstUnmapped (maxSteps : Nat) (p : StepsProc) : Nat :=
  ((List.range maxSteps).find? (fun k => !p.mapped k)).getD maxSteps

/-- The loop of `get_dbucket_ptr` that maps the steps from the last mapped one on. -/
def StepsProc.mapSteps (p : StepsProc) (s : StepsShm) (pc : StepsPc) : List Nat → StepsProc
  | [] => p.goTo pc
  | k :: ks =>
      if s.segment k then
        { p with mapped := Function.update p.mapped k true }.mapSteps s pc ks
      else p.goTo (.stopped .shmOpen)

/-- `get_dbucket_ptr` on the bucket of the current round. A process that has mapped
no step starts with step `-1`, which has no shm object. -/
def StepsProc.getPtr (maxSteps : Nat) (p : StepsProc) (s : StepsShm) (q : Traversal) :
    StepsProc :=
  if q.bucket / dataBucketsStep ≥ s.data.dbucketSteps then p.goTo (.stopped .stepNotYetCreated)
  else if p.mapped (q.bucket / dataBucketsStep) then p.goTo (.probe q)
  else if p.firstUnmapped maxSteps = 0 then p.goTo (.stopped .shmOpen)
  else
    p.mapSteps s (.probe q)
      (List.range' (p.firstUnmapped maxSteps - 1)
        (s.data.dbucketSteps + 1 - p.firstUnmapped maxSteps))

/-- The next step of a process; `maxSteps` is `MAX_DATA_BUCKETS_STEPS`. -/
def stepsStep (maxSteps : Nat) (_ : Unit) (p : StepsProc) (s : StepsShm) :
    Option (StepsProc × StepsShm) :=
  match p.pc with
  | .idle =>
      if s.data.dbucketsInUse = dataBucketsStep * maxSteps then
        some (p.goTo (.stopped .dataBucketOverUse), s)
      else if s.data.dbucketRoughIndex > dataBucketsStep * maxSteps then some (p.goTo .tryWrap, s)
      else some (p.goTo .readSteps, s)
  | .tryWrap =>
      if s.lock then some (p.goTo .readSteps, s) else some (p.goTo .wrapIndex, s.setLock true)
  | .wrapIndex =>
      some (p.goTo .unlockWrap, { s with data := { s.data with
        dbucketRoughIndex := s.data.dbucketRoughIndex % (dataBucketsStep * maxSteps) } })
  | .unlockWrap => some (p.goTo .readSteps, s.setLock false)
  | .readSteps => some (p.goTo (.checkFull s.data.dbucketSteps), s)
  | .checkFull k =>
      if s.data.dbucketsInUse = dataBucketsStep * k then some (p.goTo (.tryCreateStep k), s)
      else some (p.goTo .traverse, s)
  | .tryCreateStep k =>
      if k = maxSteps then some (p.goTo (.stopped .maxStepsCreated), s)
      else if s.data.dbucketSteps > k then some (p.openMapDatastep s k .traverse, s)
      else some (p.goTo (.tryLock k), s)
  | .tryLock k =>
      if s.lock then some (p.goTo (.wait k), s) else some (p.goTo (.create k), s.setLock true)
  | .create k =>
      let s := { s with creates := (k, s.data.dbucketSteps) :: s.creates }
      if s.segment k then some (p.goTo (.stopped .shmOpenExcl), s)
      else some ({ pc := .unlock, mapped := Function.update p.mapped k true }, s.createStep k)
  | .unlock => some (p.goTo .traverse, s.setLock false)
  | .wait k =>
      if s.data.dbucketSteps = k then some (p, s) else some (p.goTo (.mapCreated k), s)
  | .mapCreated k =>
      if k < s.data.dbucketSteps then some (p.openMapDatastep s k .traverse, s)
      else some (p.goTo (.stopped .tryCreateStep), s)
  | .traverse => some (p.goTo (.readCurrent s.data.dbucketRoughIndex), s)
  | .readCurrent j => some (p.goTo (.getDbucketPtr ⟨s.data.dbucketSteps, j, 0⟩), s)
  | .getDbucketPtr q =>
      if q.i < q.currentNumBuckets then some (p.getPtr maxSteps s q, s)
      else if q.currentNumBuckets = dataBucketsStep * maxSteps then
        some (p.goTo (.stopped .dataBucketOverUse), s)
      else some (p.goTo (.tryCreateStep q.stepsRead), s)
  | .probe q =>
      if (s.data.bucket q.bucket).inUse then some (p.goTo (.getDbucketPtr q.next), s)
      else some (p.goTo (.lockBucket q), s)
  | .lockBucket q =>
      if (s.data.bucket q.bucket).lock then some (p.goTo (.getDbucketPtr q.next), s)
      else some (p.goTo (.recheck q), s.setBucket q.bucket (fun db => { db with lock := true }))
  | .recheck q =>
      if (s.data.bucket q.bucket).inUse then some (p.goTo (.unlockSkip q), s)
      else some (p.goTo (.setRoughInd q), s)
  | .unlockSkip q =>
      some (p.goTo (.getDbucketPtr q.next),
        s.setBucket q.bucket (fun db => { db with lock := false }))
  | .setRoughInd q =>
      some (p.goTo (.setInUse q), { s with data := { s.data with dbucketRoughIndex := q.localIx } })
  | .setInUse q =>
      some (p.goTo (.unlockBucket q), s.setBucket q.bucket (fun db => { db with inUse := true }))
  | .unlockBucket q =>
      some (p.goTo (.count q), s.setBucket q.bucket (fun db => { db with lock := false }))
  | .count q =>
      some (p.goTo (.initFields q),
        { s with data := { s.data with dbucketsInUse := (s.data.dbucketsInUse + 1) % 2 ^ 32 } })
  | .initFields q =>
      some (p.goTo .idle, s.setBucket q.bucket (fun db => { db with nextIx := noIx, bytes := 0 }))
  | .stopped _ => none

/-! What the place of a process says about the lock and the steps. -/

/-- The process holds the lock of `sys_glob`. -/
def StepsPc.holdsLock : StepsPc → Bool
  | .wrapIndex => true
  | .unlockWrap => true
  | .create _ => true
  | .unlock => true
  | _ => false

/-- The step that the process is about to create. -/
def StepsPc.creating : StepsPc → Option Nat
  | .create k => some k
  | _ => none

/-- The number of steps that the process has read and still uses. -/
def StepsPc.stepsRead : StepsPc → Option Nat
  | .checkFull k => some k
  | .tryCreateStep k => some k
  | .tryLock k => some k
  | .getDbucketPtr q => some q.stepsRead
  | .probe q => some q.stepsRead
  | .lockBucket q => some q.stepsRead
  | .recheck q => some q.stepsRead
  | .unlockSkip q => some q.stepsRead
  | .setRoughInd q => some q.stepsRead
  | .setInUse q => some q.stepsRead
  | .unlockBucket q => some q.stepsRead
  | .count q => some q.stepsRead
  | .initFields q => some q.stepsRead
  | _ => none

/-- The process stands between its test of `dbucket_steps` in `try_create_step` and its
trylock. -/
def StepsPc.pending : StepsPc → Bool
  | .tryLock _ => true
  | _ => false

/-- A place that says nothing about the lock and no failed creation. -/
def StepsPc.Plain (pc : StepsPc) : Prop :=
  pc.holdsLock = false ∧ pc ≠ .stopped .shmOpenExcl

theorem StepsPc.Plain.creating {pc : StepsPc} (hpc : pc.Plain) : pc.creating = none := by
  cases pc with
  | create k => cases hpc.1
  | _ => rfl

variable {ι : Type*} {maxSteps : Nat} {c : Config ι StepsProc StepsShm} {i : ι} {p q : StepsProc}
  {s s' : StepsShm} {x : StepsProc × StepsShm} {k : Nat}

/-- Every execution of `create_map_dbucket_step` created the next step, none was
created twice, and no `shm_open` with `O_EXCL` failed. -/
def StepsOnce (c : Config ι StepsProc StepsShm) : Prop :=
  (∀ e ∈ c.shared.creates, e.1 = e.2) ∧ (c.shared.creates.map Prod.fst).Nodup ∧
    ∀ i, (c.proc i).pc ≠ .stopped .shmOpenExcl

/-- The steps of the store exist and no others. -/
structure StepsShm.Fit (s : StepsShm) : Prop where
  segments : ∀ k, s.segment k = true ↔ k < s.data.dbucketSteps
  current : ∀ e ∈ s.creates, e.1 = e.2
  below : ∀ e ∈ s.creates, e.1 < s.data.dbucketSteps
  nodup : (s.creates.map Prod.fst).Nodup

structure StepsInv (c : Config ι StepsProc StepsShm) : Prop where
  fit : c.shared.Fit
  held : ∀ i, (c.proc i).pc.holdsLock = true → c.shared.lock = true
  mutex : ∀ i j, (c.proc i).pc.holdsLock = true → (c.proc j).pc.holdsLock = true → i = j
  creating : ∀ i k, (c.proc i).pc.creating = some k → c.shared.data.dbucketSteps = k
  never : ∀ i, (c.proc i).pc ≠ .stopped .shmOpenExcl

theorem StepsInv.once (hinv : StepsInv c) : StepsOnce c :=
  ⟨hinv.fit.current, hinv.fit.nodup, hinv.never⟩

/-- A step that touches neither the lock nor the steps. -/
structure SameSteps (s s' : StepsShm) : Prop where
  lock : s'.lock = s.lock
  segment : s'.segment = s.segment
  creates : s'.creates = s.creates
  steps : s'.data.dbucketSteps = s.data.dbucketSteps

theorem SameSteps.refl (s : StepsShm) : SameSteps s s := ⟨rfl, rfl, rfl, rfl⟩

theorem StepsShm.Fit.congr (hs : s.Fit) (hsegment : s'.segment = s.segment)
    (hcreates : s'.creates = s.creates) (hsteps : s'.data.dbucketSteps = s.data.dbucketSteps) :
    s'.Fit := by
  refine ⟨?_, ?_, ?_, ?_⟩
  · rw [hsegment, hsteps]
    exact hs.segments
  · rw [hcreates]
    exact hs.current
  · rw [hcreates, hsteps]
    exact hs.below
  · rw [hcreates]
    exact hs.nodup

theorem openMapDatastep_pc (p : StepsProc) (s : StepsShm) (k : Nat) (pc : StepsPc) :
    (p.openMapDatastep s k pc).pc = pc ∨ (p.openMapDatastep s k pc).pc = .stopped .shmOpen := by
  unfold StepsProc.openMapDatastep
  split
  · exact .inl rfl
  · exact .inr rfl

theorem mapSteps_pc (pc : StepsPc) (ks : List Nat) :
    (p.mapSteps s pc ks).pc = pc ∨ (p.mapSteps s pc ks).pc = .stopped .shmOpen := by
  induction ks generalizing p with
  | nil => exact .inl rfl
  | cons k ks ih =>
      unfold StepsProc.mapSteps
      split
      · exact ih
      · exact .inr rfl

theorem getPtr_pc (maxSteps : Nat) (p : StepsProc) (s : StepsShm) (t : Traversal) :
    (p.getPtr maxSteps s t).pc = .probe t ∨ (p.getPtr maxSteps s t).pc = .stopped .shmOpen ∨
      (p.getPtr maxSteps s t).pc = .stopped .stepNotYetCreated := by
  unfold StepsProc.getPtr
  split
  · exact .inr (.inr rfl)
  · split
    · exact .inl rfl
    · split
      · exact .inr (.inl rfl)
      · exact (mapSteps_pc (.probe t) _).imp_right .inl

theorem openMapDatastep_plain {pc : StepsPc} (hpc : pc.Plain) :
    (p.openMapDatastep s k pc).pc.Plain := by
  rcases openMapDatastep_pc p s k pc with h | h <;> rw [h]
  · exact hpc
  · exact ⟨rfl, by simp⟩

theorem getPtr_plain (t : Traversal) : (p.getPtr maxSteps s t).pc.Plain := by
  rcases getPtr_pc maxSteps p s t with h | h | h <;> rw [h] <;> exact ⟨rfl, by simp⟩

theorem StepsInv.unheld (hinv : StepsInv c) (hlock : c.shared.lock = false) (j : ι) :
    (c.proc j).pc.holdsLock = false := by
  by_contra hheld
  rw [hinv.held j (by simpa using hheld)] at hlock
  cases hlock

theorem StepsInv.others (hinv : StepsInv c) (hpc : (c.proc i).pc.holdsLock = true) {j : ι}
    (hj : j ≠ i) : (c.proc j).pc.holdsLock = false := by
  by_contra hheld
  exact hj (hinv.mutex j i (by simpa using hheld) hpc)

variable [DecidableEq ι]

/-- A step of a process that holds no lock before and after it. -/
theorem StepsInv.quiet (hinv : StepsInv c) (hsame : SameSteps c.shared s') (hpc : q.pc.Plain) :
    StepsInv (c.move i (q, s')) := by
  have hholds : ∀ j, ((c.move i (q, s')).proc j).pc.holdsLock = true →
      (c.proc j).pc.holdsLock = true := by
    refine c.forall_move (fun j r => r.pc.holdsLock = true → (c.proc j).pc.holdsLock = true)
      (fun h => ?_) (fun _ _ h => h)
    rw [hpc.1] at h
    cases h
  refine ⟨hinv.fit.congr hsame.segment hsame.creates hsame.steps, ?_, ?_, ?_, ?_⟩
  · intro j hj
    exact hsame.lock.trans (hinv.held j (hholds j hj))
  · intro j j' hj hj'
    exact hinv.mutex j j' (hholds j hj) (hholds j' hj')
  · refine c.forall_move
      (fun _ r => ∀ k, r.pc.creating = some k → s'.data.dbucketSteps = k) (fun k hk => ?_) ?_
    · rw [hpc.creating] at hk
      cases hk
    · intro j _ k hk
      exact hsame.steps.trans (hinv.creating j k hk)
  · exact c.forall_move (fun _ r => r.pc ≠ .stopped .shmOpenExcl) hpc.2 (fun j _ => hinv.never j)

/-- A trylock that succeeds, and the steps under the lock. -/
theorem StepsInv.holding (hinv : StepsInv c) (hfit : s'.Fit) (hlock : s'.lock = true)
    (hsteps : ∀ k, q.pc.creating = some k → s'.data.dbucketSteps = k)
    (hpc : q.pc ≠ .stopped .shmOpenExcl)
    (halone : ∀ j ≠ i, (c.proc j).pc.holdsLock = false) : StepsInv (c.move i (q, s')) := by
  have honly : ∀ j, ((c.move i (q, s')).proc j).pc.holdsLock = true → j = i := by
    refine c.forall_move (fun j r => r.pc.holdsLock = true → j = i) (fun _ => rfl) ?_
    intro j hj h
    rw [halone j hj] at h
    cases h
  refine ⟨hfit, fun _ _ => hlock, ?_, ?_, ?_⟩
  · intro j j' hj hj'
    rw [honly j hj, honly j' hj']
  · refine c.forall_move
      (fun _ r => ∀ k, r.pc.creating = some k → s'.data.dbucketSteps = k) hsteps ?_
    intro j hj k hk
    cases hpcj : (c.proc j).pc with
    | create k' =>
        have hfalse := halone j hj
        rw [hpcj] at hfalse
        cases hfalse
    | _ =>
        rw [hpcj] at hk
        cases hk
  · exact c.forall_move (fun _ r => r.pc ≠ .stopped .shmOpenExcl) hpc (fun j _ => hinv.never j)

/-- The lock is given back. -/
theorem StepsInv.release (hinv : StepsInv c) (hpc : (c.proc i).pc.holdsLock = true)
    (hq : q.pc.Plain) : StepsInv (c.move i (q, c.shared.setLock false)) := by
  have hnone : ∀ j, ((c.move i (q, c.shared.setLock false)).proc j).pc.holdsLock = false := by
    refine c.forall_move (fun _ r => r.pc.holdsLock = false) hq.1 ?_
    intro j hj
    by_contra hheld
    exact hj (hinv.mutex j i (by simpa using hheld) hpc)
  refine ⟨hinv.fit.congr rfl rfl rfl, ?_, ?_, ?_, ?_⟩
  · intro j hj
    rw [hnone] at hj
    cases hj
  · intro j j' hj
    rw [hnone] at hj
    cases hj
  · refine c.forall_move
      (fun _ r => ∀ k, r.pc.creating = some k → c.shared.data.dbucketSteps = k) (fun k hk => ?_) ?_
    · rw [hq.creating] at hk
      cases hk
    · intro j _ k hk
      exact hinv.creating j k hk
  · exact c.forall_move (fun _ r => r.pc ≠ .stopped .shmOpenExcl) hq.2 (fun j _ => hinv.never j)

/-- The creation of the next step. -/
theorem StepsShm.Fit.create (hs : s.Fit) :
    ({ s with creates := (s.data.dbucketSteps, s.data.dbucketSteps) :: s.creates }.createStep
      s.data.dbucketSteps).Fit := by
  refine ⟨?_, ?_, ?_, ?_⟩
  · intro k
    change Function.update s.segment s.data.dbucketSteps true k = true ↔
      k < s.data.dbucketSteps + 1
    by_cases hk : k = s.data.dbucketSteps
    · subst hk
      simp
    · rw [Function.update_of_ne hk, hs.segments]
      omega
  · intro e he
    rcases List.mem_cons.mp he with rfl | he
    · rfl
    · exact hs.current e he
  · intro e he
    change e.1 < s.data.dbucketSteps + 1
    rcases List.mem_cons.mp he with rfl | he
    · exact Nat.lt_succ_self _
    · exact Nat.lt_succ_of_lt (hs.below e he)
  · refine List.nodup_cons.mpr ⟨fun hmem => ?_, hs.nodup⟩
    obtain ⟨e, he, heq⟩ := List.mem_map.mp hmem
    have hlt := hs.below e he
    omega

/-- What a step of a process does to the number of steps, and what the process reads and
tests of it. -/
structure StepsChange (p : StepsProc) (s : StepsShm) (x : StepsProc × StepsShm) : Prop where
  le : s.data.dbucketSteps ≤ x.2.data.dbucketSteps
  same : x.1.pc ≠ .unlock → x.2.data.dbucketSteps = s.data.dbucketSteps
  read : ∀ k, x.1.pc.stepsRead = some k → k = s.data.dbucketSteps ∨ p.pc.stepsRead = some k
  test : ∀ k, x.1.pc = .tryLock k → s.data.dbucketSteps ≤ k

/-- A step that leaves the number of steps alone and does not lead to a trylock. -/
theorem StepsChange.of_same (hsteps : x.2.data.dbucketSteps = s.data.dbucketSteps)
    (hread : ∀ k, x.1.pc.stepsRead = some k → k = s.data.dbucketSteps ∨ p.pc.stepsRead = some k)
    (htest : ∀ k, x.1.pc ≠ .tryLock k) : StepsChange p s x where
  le := Nat.le_of_eq hsteps.symm
  same _ := hsteps
  read := hread
  test k hk := absurd hk (htest k)

theorem stepsStep_change (hstep : stepsStep maxSteps () p s = some x) : StepsChange p s x := by
  cases hpc : p.pc with
  | create k =>
      simp only [stepsStep, hpc] at hstep
      split at hstep <;> obtain rfl := Option.some.inj hstep
      · exact .of_same rfl (fun _ h => by cases h) (fun _ h => by cases h)
      · refine ⟨Nat.le_succ _, fun h => absurd rfl h, fun _ h => ?_, fun _ h => ?_⟩ <;> cases h
  | tryCreateStep k =>
      simp only [stepsStep, hpc] at hstep
      repeat' split at hstep
      all_goals obtain rfl := Option.some.inj hstep
      · exact .of_same rfl (fun _ h => by cases h) (fun _ h => by cases h)
      · rcases openMapDatastep_pc p s k .traverse with h | h
        all_goals exact .of_same rfl (fun _ hk => by rw [h] at hk; cases hk) (fun _ => by simp [h])
      next hnew =>
        refine ⟨le_rfl, fun _ => rfl, fun _ h => .inr (by rw [hpc]; exact h), fun k' hk' => ?_⟩
        obtain rfl : k = k' := StepsPc.tryLock.inj hk'
        exact Nat.le_of_not_lt hnew
  | getDbucketPtr q =>
      simp only [stepsStep, hpc] at hstep
      repeat' split at hstep
      all_goals obtain rfl := Option.some.inj hstep
      · rcases getPtr_pc maxSteps p s q with h | h | h
        · exact .of_same rfl (fun _ hk => .inr (by rw [hpc]; rw [h] at hk; exact hk))
            (fun _ => by simp [h])
        all_goals exact .of_same rfl (fun _ hk => by rw [h] at hk; cases hk) (fun _ => by simp [h])
      · exact .of_same rfl (fun _ h => by cases h) (fun _ h => by cases h)
      · exact .of_same rfl (fun _ h => .inr (by rw [hpc]; exact h)) (fun _ h => by cases h)
  | mapCreated k =>
      simp only [stepsStep, hpc] at hstep
      split at hstep <;> obtain rfl := Option.some.inj hstep
      · rcases openMapDatastep_pc p s k .traverse with h | h
        all_goals exact .of_same rfl (fun _ hk => by rw [h] at hk; cases hk) (fun _ => by simp [h])
      · exact .of_same rfl (fun _ h => by cases h) (fun _ h => by cases h)
  | wait k =>
      simp only [stepsStep, hpc] at hstep
      split at hstep <;> obtain rfl := Option.some.inj hstep
      · exact .of_same rfl (fun _ h => .inr h) (fun _ h => by rw [hpc] at h; cases h)
      · exact .of_same rfl (fun _ h => by cases h) (fun _ h => by cases h)
  | readSteps =>
      simp only [stepsStep, hpc] at hstep
      obtain rfl := Option.some.inj hstep
      exact .of_same rfl (fun _ h => .inl (Option.some.inj h).symm) (fun _ h => by cases h)
  | readCurrent j =>
      simp only [stepsStep, hpc] at hstep
      obtain rfl := Option.some.inj hstep
      exact .of_same rfl (fun _ h => .inl (Option.some.inj h).symm) (fun _ h => by cases h)
  | stopped e => simp [stepsStep, hpc] at hstep
  | _ =>
      simp only [stepsStep, hpc] at hstep
      repeat' split at hstep
      all_goals
        obtain rfl := Option.some.inj hstep
        refine .of_same rfl (fun _ h => ?_) (fun _ h => by cases h)
        first
        | exact .inr (by rw [hpc]; exact h)
        | cases h

/-- The lock is given back after a creation only while no process stands between its test
of `dbucket_steps` and its trylock. -/
def NoTestPending (c : Config ι StepsProc StepsShm) (i : ι) (_ : Unit) : Prop :=
  (c.proc i).pc = .unlock → ∀ j, (c.proc j).pc.pending = false

/-- No process has read more steps than there are, and what a process has tested still
holds at its trylock unless a creation has not given the lock back. -/
structure StepsTested (c : Config ι StepsProc StepsShm) : Prop where
  read : ∀ i k, (c.proc i).pc.stepsRead = some k → k ≤ c.shared.data.dbucketSteps
  test : (∀ i, (c.proc i).pc ≠ .unlock) →
    ∀ i k, (c.proc i).pc = .tryLock k → c.shared.data.dbucketSteps ≤ k

theorem StepsTested.step (htested : StepsTested c) (hpending : NoTestPending c i ())
    (hstep : stepsStep maxSteps () (c.proc i) c.shared = some x) : StepsTested (c.move i x) := by
  have hchange := stepsStep_change hstep
  refine ⟨?_, fun hnone j k hj => ?_⟩
  · refine c.forall_move
      (fun _ p => ∀ k, p.pc.stepsRead = some k → k ≤ x.2.data.dbucketSteps) (fun k hk => ?_) ?_
    · rcases hchange.read k hk with rfl | hold
      · exact hchange.le
      · exact (htested.read i k hold).trans hchange.le
    · exact fun j _ k hk => (htested.read j k hk).trans hchange.le
  · have hsteps : (c.move i x).shared.data.dbucketSteps = c.shared.data.dbucketSteps :=
      hchange.same (by simpa using hnone i)
    rw [hsteps]
    by_cases hji : j = i
    · subst hji
      rw [Config.move_self] at hj
      exact hchange.test k hj
    · rw [c.move_other x hji] at hj
      refine htested.test (fun j' hj' => ?_) j k hj
      by_cases hj'i : j' = i
      · subst hj'i
        have hfalse := hpending hj' j
        rw [hj] at hfalse
        cases hfalse
      · exact hnone j' (by rw [c.move_other x hj'i]; exact hj')

omit [DecidableEq ι] in
/-- A trylock that succeeds was tested on the current number of steps. -/
theorem StepsTested.current (htested : StepsTested c) (hinv : StepsInv c)
    (hpc : (c.proc i).pc = .tryLock k) (hlock : c.shared.lock = false) :
    c.shared.data.dbucketSteps = k := by
  refine Nat.le_antisymm (htested.test (fun j hj => ?_) i k hpc) (htested.read i k ?_)
  · have hunheld := hinv.unheld hlock j
    rw [hj] at hunheld
    cases hunheld
  · rw [hpc]
    rfl

theorem StepsInv.create (hinv : StepsInv c) (hpc : (c.proc i).pc = .create k)
    (hstep : stepsStep maxSteps () (c.proc i) c.shared = some x) : StepsInv (c.move i x) := by
  have hheld : (c.proc i).pc.holdsLock = true := by rw [hpc]; rfl
  obtain rfl : c.shared.data.dbucketSteps = k := hinv.creating i k (by rw [hpc]; rfl)
  have hnew : c.shared.segment c.shared.data.dbucketSteps = false := by
    rw [Bool.eq_false_iff]
    intro hseg
    exact lt_irrefl _ ((hinv.fit.segments _).mp hseg)
  simp only [stepsStep, hpc, hnew, Bool.false_eq_true, if_false, Option.some.injEq] at hstep
  subst hstep
  exact hinv.holding hinv.fit.create (hinv.held i hheld) (fun _ h => by cases h) (by simp)
    (fun j hj => hinv.others hheld hj)

theorem StepsInv.step (hinv : StepsInv c) (htested : StepsTested c)
    (hstep : stepsStep maxSteps () (c.proc i) c.shared = some x) : StepsInv (c.move i x) := by
  have hrefl := SameSteps.refl c.shared
  cases hpc : (c.proc i).pc with
  | create k => exact hinv.create hpc hstep
  | tryLock k =>
      simp only [stepsStep, hpc] at hstep
      split at hstep <;> simp only [Option.some.injEq] at hstep <;> subst hstep
      next => exact hinv.quiet hrefl ⟨rfl, by simp [StepsProc.goTo]⟩
      next hlock =>
        have hfree : c.shared.lock = false := by simpa using hlock
        refine hinv.holding (hinv.fit.congr rfl rfl rfl) rfl ?_ (by simp [StepsProc.goTo])
          (fun j _ => hinv.unheld hfree j)
        intro k' hk'
        obtain rfl : k = k' := Option.some.inj hk'
        exact htested.current hinv hpc hfree
  | tryWrap =>
      simp only [stepsStep, hpc] at hstep
      split at hstep <;> simp only [Option.some.injEq] at hstep <;> subst hstep
      next => exact hinv.quiet hrefl ⟨rfl, by simp [StepsProc.goTo]⟩
      next hlock =>
        have hfree : c.shared.lock = false := by simpa using hlock
        exact hinv.holding (hinv.fit.congr rfl rfl rfl) rfl (fun _ h => by cases h)
          (by simp [StepsProc.goTo]) (fun j _ => hinv.unheld hfree j)
  | wrapIndex =>
      have hheld : (c.proc i).pc.holdsLock = true := by rw [hpc]; rfl
      simp only [stepsStep, hpc, Option.some.injEq] at hstep
      subst hstep
      exact hinv.holding (hinv.fit.congr rfl rfl rfl) (hinv.held i hheld) (fun _ h => by cases h)
        (by simp [StepsProc.goTo]) (fun j hj => hinv.others hheld hj)
  | unlockWrap =>
      simp only [stepsStep, hpc, Option.some.injEq] at hstep
      subst hstep
      exact hinv.release (by rw [hpc]; rfl) ⟨rfl, by simp [StepsProc.goTo]⟩
  | unlock =>
      simp only [stepsStep, hpc, Option.some.injEq] at hstep
      subst hstep
      exact hinv.release (by rw [hpc]; rfl) ⟨rfl, by simp [StepsProc.goTo]⟩
  | idle =>
      simp only [stepsStep, hpc] at hstep
      repeat' split at hstep
      all_goals
        simp only [Option.some.injEq] at hstep
        subst hstep
        exact hinv.quiet hrefl ⟨rfl, by simp [StepsProc.goTo]⟩
  | tryCreateStep k =>
      simp only [stepsStep, hpc] at hstep
      split at hstep
      · simp only [Option.some.injEq] at hstep
        subst hstep
        exact hinv.quiet hrefl ⟨rfl, by simp [StepsProc.goTo]⟩
      · split at hstep <;> simp only [Option.some.injEq] at hstep <;> subst hstep
        · exact hinv.quiet hrefl (openMapDatastep_plain ⟨rfl, by simp⟩)
        · exact hinv.quiet hrefl ⟨rfl, by simp [StepsProc.goTo]⟩
  | wait k =>
      simp only [stepsStep, hpc] at hstep
      split at hstep <;> simp only [Option.some.injEq] at hstep <;> subst hstep
      · exact hinv.quiet hrefl ⟨by rw [hpc]; rfl, by simp [hpc]⟩
      · exact hinv.quiet hrefl ⟨rfl, by simp [StepsProc.goTo]⟩
  | mapCreated k =>
      simp only [stepsStep, hpc] at hstep
      split at hstep <;> simp only [Option.some.injEq] at hstep <;> subst hstep
      · exact hinv.quiet hrefl (openMapDatastep_plain ⟨rfl, by simp⟩)
      · exact hinv.quiet hrefl ⟨rfl, by simp [StepsProc.goTo]⟩
  | getDbucketPtr q =>
      simp only [stepsStep, hpc] at hstep
      split at hstep
      · simp only [Option.some.injEq] at hstep
        subst hstep
        exact hinv.quiet hrefl (getPtr_plain q)
      · split at hstep <;> simp only [Option.some.injEq] at hstep <;> subst hstep
        · exact hinv.quiet hrefl ⟨rfl, by simp [StepsProc.goTo]⟩
        · exact hinv.quiet hrefl ⟨rfl, by simp [StepsProc.goTo]⟩
  | stopped e => simp [stepsStep, hpc] at hstep
  | _ =>
      simp only [stepsStep, hpc] at hstep
      try split at hstep
      all_goals
        simp only [Option.some.injEq] at hstep
        subst hstep
        exact hinv.quiet ⟨rfl, rfl, rfl, rfl⟩ ⟨rfl, by simp [StepsProc.goTo]⟩

/-- A store all of whose steps exist, with no process in the allocator. -/
structure StepsStart (c : Config ι StepsProc StepsShm) : Prop where
  idle : ∀ i, (c.proc i).pc = .idle
  segments : ∀ k, c.shared.segment k = true ↔ k < c.shared.data.dbucketSteps
  none : c.shared.creates = []

omit [DecidableEq ι] in
theorem StepsStart.inv (hc : StepsStart c) : StepsInv c := by
  have hplain : ∀ i, (c.proc i).pc.holdsLock = false := fun i => by rw [hc.idle]; rfl
  refine ⟨⟨hc.segments, ?_, ?_, ?_⟩, ?_, ?_, ?_, ?_⟩
  · simp [hc.none]
  · simp [hc.none]
  · simp [hc.none]
  · intro i hi
    rw [hplain] at hi
    cases hi
  · intro i j hi
    rw [hplain] at hi
    cases hi
  · intro i k hi
    rw [hc.idle] at hi
    cases hi
  · intro i
    simp [hc.idle]

/-- In every interleaving in which no process stands before its trylock when a creation
gives the lock back, each step is created once. -/
theorem steps_created_once {c₀ : Config ι StepsProc StepsShm} (hstart : StepsStart c₀)
    (hreach : Reach (stepsStep maxSteps) NoTestPending c₀ c) : StepsOnce c := by
  have hinv : StepsInv c ∧ StepsTested c := by
    refine hreach.invariant (P := fun c => StepsInv c ∧ StepsTested c)
      ⟨hstart.inv, fun i k hk => ?_, fun _ i k hk => ?_⟩ ?_
    · rw [hstart.idle] at hk
      cases hk
    · rw [hstart.idle] at hk
      cases hk
    · rintro c i _ x ⟨hinv, htested⟩ hpending hstep
      exact ⟨hinv.step htested hstep, htested.step hpending hstep⟩
  exact hinv.1.once

/-- The store of the daemon with its first step used up. -/
def fullStep : Config ι StepsProc StepsShm :=
  { proc := fun _ => ⟨.idle, fun k => k == 0⟩
    shared :=
      { data :=
          { bucket := fun _ => ⟨true, noIx, fun _ => 0, 0, false⟩
            dbucketSteps := 1
            dbucketRoughIndex := 0
            dbucketsInUse := dataBucketsStep }
        lock := false
        segment := fun k => k == 0
        creates := [] } }

omit [DecidableEq ι] in
theorem fullStep_start : StepsStart (fullStep : Config ι StepsProc StepsShm) := by
  refine ⟨fun _ => rfl, fun k => ?_, rfl⟩
  simp [fullStep]

/-- Two processes find the first step used up, and one waits for the other to create the
second one. -/
theorem steps_created_once_second : ∃ c : Config (Fin 2) StepsProc StepsShm,
    Reach (stepsStep 2) NoTestPending fullStep c ∧ c.shared.data.dbucketSteps = 2 ∧
      (c.proc 0).pc = .traverse ∧ (c.proc 1).pc = .traverse ∧ StepsOnce c := by
  obtain ⟨c, hreach, hc⟩ : ∃ c : Config (Fin 2) StepsProc StepsShm,
      Reach (stepsStep 2) NoTestPending fullStep c ∧
        decide (c.shared.data.dbucketSteps = 2 ∧ (c.proc 0).pc = .traverse ∧
          (c.proc 1).pc = .traverse) = true := by
    refine exists_reach (stepsStep 2) fullStep
      (List.replicate 4 (0, ()) ++ List.replicate 4 (1, ()) ++ [(0, ()), (1, ()), (0, ())] ++
        [(1, ()), (0, ()), (1, ())])
      (fun c i _ => (c.proc i).pc != .unlock || decide (∀ j, (c.proc j).pc.pending = false)) _ ?_
      (by decide +kernel)
    intro c i _ htest hpc
    simpa [hpc] using htest
  obtain ⟨hsteps, hfirst, hsecond⟩ := of_decide_eq_true hc
  exact ⟨c, hreach, hsteps, hfirst, hsecond, steps_created_once fullStep_start hreach⟩

/-- Two processes find the first step used up and create the second one. -/
theorem steps_created_twice : ∃ c : Config Nat StepsProc StepsShm,
    StepsStart (fullStep : Config Nat StepsProc StepsShm) ∧
      Reach (stepsStep 2) (fun _ _ _ => True) fullStep c ∧ ¬ StepsOnce c := by
  obtain ⟨c, hreach, hc⟩ : ∃ c : Config Nat StepsProc StepsShm,
      Reach (stepsStep 2) (fun _ _ _ => True) fullStep c ∧
        decide ((c.proc 1).pc = .stopped .shmOpenExcl) = true :=
    exists_reach (stepsStep 2) fullStep
      (List.replicate 4 (1, ()) ++ List.replicate 7 (0, ()) ++ List.replicate 2 (1, ()))
      (fun _ _ _ => true) _ (fun _ _ _ _ => trivial) (by decide +kernel)
  exact ⟨c, fullStep_start, hreach, fun honce => honce.2.2 1 (of_decide_eq_true hc)⟩

end Spacefish
