import Spacefish.Table
import Spacefish.Lib.Draining

/-!
The readers-writer lock of `rwlock.c` under concurrency. Each load of a counter,
each atomic addition and each operation on the spin lock is one step. A reader
tests `num_writers` and increments `num_readers` in two steps, so a writer may
pass its own test of `num_readers` in between; when no writer does, the lock
excludes.
-/

namespace Spacefish

open Interleaving Program

/-- Where a process stands in `lock_rw` and `unlock_rw`. -/
inductive RwPc where
  /-- Outside of the lock. -/
  | idle
  /-- `num_writers` is incremented, the loop on `num_readers` comes next. -/
  | testReaders
  /-- `num_readers` was 0, `pthread_spin_lock` comes next. -/
  | lockReal
  /-- `down_write` has returned. -/
  | writing
  /-- `num_writers` is decremented, `pthread_spin_unlock` comes next. -/
  | unlockReal
  /-- The loop of a reader on `num_writers`. -/
  | testWriters
  /-- `num_writers` was 0, the increment of `num_readers` comes next. -/
  | addReader
  /-- `down_read` has returned. -/
  | reading
  deriving DecidableEq, Repr

/-- The call that a process outside of the lock makes next. -/
inductive RwCall where
  | downRead
  | downWrite
  deriving DecidableEq, Repr

/-- The next step of a process; `pthread_spin_lock` takes none while the lock is
held. -/
def rwStep (call : RwCall) (pc : RwPc) (l : UrwLock) : Option (RwPc × UrwLock) :=
  match pc with
  | .idle =>
      match call with
      | .downWrite => some (.testReaders, { l with numWriters := l.numWriters + 1 })
      | .downRead => some (.testWriters, l)
  | .testReaders => some (if l.numReaders = 0 then .lockReal else .testReaders, l)
  | .lockReal => if l.realLock then none else some (.writing, { l with realLock := true })
  | .writing => some (.unlockReal, { l with numWriters := l.numWriters - 1 })
  | .unlockReal => some (.idle, { l with realLock := false })
  | .testWriters => some (if l.numWriters = 0 then .addReader else .testWriters, l)
  | .addReader => some (.reading, { l with numReaders := l.numReaders + 1 })
  | .reading => some (.idle, { l with numReaders := l.numReaders - 1 })

/-- `n` steps of one process with no other one active. -/
def rwAlone (call : RwCall) : Nat → RwPc × UrwLock → Option (RwPc × UrwLock)
  | 0, x => some x
  | n + 1, x => (rwStep call x.1 x.2).bind (rwAlone call n)

/-! A process that is alone does in these steps what the calls do at once. -/

theorem downWrite_alone {l l' : UrwLock} (h : lockRw 2 l = .ok ⟨⟩ l') :
    rwAlone .downWrite 3 (.idle, l) = some (.writing, l') := by
  rw [lockRw, run_ite, if_pos rfl, run_modify_bind, run_get_bind, run_ite] at h
  by_cases hr : l.numReaders = 0
  · rw [if_neg (by simpa using hr)] at h
    dsimp only at h
    rw [run_ite] at h
    by_cases hl : l.realLock = true
    · rw [if_pos hl] at h
      cases h
    · rw [if_neg hl] at h
      obtain rfl : _ = l' := by injection h
      simp [rwAlone, rwStep, hr, hl]
  · rw [if_pos (by simpa using hr)] at h
    cases h

theorem downRead_alone {l l' : UrwLock} (h : lockRw 1 l = .ok ⟨⟩ l') :
    rwAlone .downRead 3 (.idle, l) = some (.reading, l') := by
  rw [lockRw, run_ite, if_neg (by decide), run_ite, if_pos rfl, run_get_bind, run_ite] at h
  by_cases hw : l.numWriters = 0
  · rw [if_neg (by simpa using hw)] at h
    obtain rfl : _ = l' := by injection h
    simp [rwAlone, rwStep, hw]
  · rw [if_pos (by simpa using hw)] at h
    cases h

theorem upWrite_alone (call : RwCall) (l : UrwLock) :
    ∃ l', rwAlone call 2 (.writing, l) = some (.idle, l') ∧ unlockRw 2 l = .ok ⟨⟩ l' :=
  ⟨_, rfl, rfl⟩

theorem upRead_alone (call : RwCall) (l : UrwLock) :
    ∃ l', rwAlone call 1 (.reading, l) = some (.idle, l') ∧ unlockRw 1 l = .ok ⟨⟩ l' :=
  ⟨_, rfl, rfl⟩

variable {ι : Type*}

/-- A process that holds the lock for writing is the only one that holds it. -/
def Excludes (c : Config ι RwPc UrwLock) : Prop :=
  ∀ p q, p ≠ q → c.proc p = .writing → c.proc q ≠ .writing ∧ c.proc q ≠ .reading

/-- All processes are outside of the lock that `init_urwlock` leaves. -/
def idleLock : Config ι RwPc UrwLock := ⟨fun _ => .idle, initUrwLock⟩

/-- A writer does not pass its test of `num_readers` while a reader stands between
its test of `num_writers` and its increment of `num_readers`. -/
def NoReaderEntering (c : Config ι RwPc UrwLock) (i : ι) (_ : RwCall) : Prop :=
  c.proc i = .testReaders → c.shared.numReaders = 0 → ∀ j, c.proc j ≠ .addReader

/-- The process holds the spin lock. -/
def RwPc.holdsReal : RwPc → Bool
  | .writing => true
  | .unlockReal => true
  | _ => false

/-- The process has seen that there is no reader and has not left since. -/
def RwPc.pastTest : RwPc → Bool
  | .lockReal => true
  | .writing => true
  | _ => false

/-- The process reads, or has passed the test of a reader. -/
def RwPc.admitted : RwPc → Bool
  | .addReader => true
  | .reading => true
  | _ => false

def RwPc.reads : RwPc → Bool
  | .reading => true
  | _ => false

/-- The process is counted in `num_writers`. -/
def RwPc.announced : RwPc → Bool
  | .testReaders => true
  | .lockReal => true
  | .writing => true
  | _ => false

/-- The steps that a process takes at least until it is outside of the lock. -/
def RwPc.rank : RwPc → Nat
  | .idle => 0
  | .testReaders => 4
  | .lockReal => 3
  | .writing => 2
  | .unlockReal => 1
  | .testWriters => 3
  | .addReader => 2
  | .reading => 1

def RwPc.inside (pc : RwPc) : Bool := pc.rank != 0

/-- The counters and the spin lock say how many processes stand where. -/
structure RwExact (c : Config ι RwPc UrwLock) : Prop where
  readers : Counts (fun i => (c.proc i).reads = true) c.shared.numReaders
  writers : Counts (fun i => (c.proc i).announced = true) c.shared.numWriters
  real : Counts (fun i => (c.proc i).holdsReal = true) c.shared.realLock.toNat
  inside : ∃ n, Counts (fun i => (c.proc i).inside = true) n

theorem idleLock_exact : RwExact (idleLock : Config ι RwPc UrwLock) := by
  refine ⟨.empty fun _ h => ?_, .empty fun _ h => ?_, .empty fun _ h => ?_, 0, .empty fun _ h => ?_⟩
  all_goals cases h

variable {c c' : Config ι RwPc UrwLock} {i j : ι} {call : RwCall} {x : RwPc × UrwLock} {pc : RwPc}
  {l : UrwLock}

/-- A step changes each counter as it changes where its process stands. -/
theorem rwStep_counts (hstep : rwStep call pc l = some x) (hreal : pc.holdsReal = true → l.realLock = true) :
    x.2.numReaders = l.numReaders + (x.1.reads.toNat : Int) - (pc.reads.toNat : Int) ∧
      x.2.numWriters = l.numWriters + (x.1.announced.toNat : Int) - (pc.announced.toNat : Int) ∧
      (x.2.realLock.toNat : Int) =
        l.realLock.toNat + (x.1.holdsReal.toNat : Int) - (pc.holdsReal.toNat : Int) := by
  cases pc with
  | idle =>
      cases call with
      | downRead =>
          obtain rfl := Option.some.inj hstep
          simp [RwPc.reads, RwPc.announced, RwPc.holdsReal]
      | downWrite =>
          obtain rfl := Option.some.inj hstep
          simp [RwPc.reads, RwPc.announced, RwPc.holdsReal]
  | testReaders =>
      obtain rfl := Option.some.inj hstep
      split <;> simp [RwPc.reads, RwPc.announced, RwPc.holdsReal]
  | lockReal =>
      cases hl : l.realLock with
      | true => simp [rwStep, hl] at hstep
      | false =>
          simp only [rwStep, hl, Bool.false_eq_true, if_false] at hstep
          obtain rfl := Option.some.inj hstep
          simp [RwPc.reads, RwPc.announced, RwPc.holdsReal]
  | unlockReal =>
      obtain rfl := Option.some.inj hstep
      simp [RwPc.reads, RwPc.announced, RwPc.holdsReal, hreal rfl]
  | testWriters =>
      obtain rfl := Option.some.inj hstep
      split <;> simp [RwPc.reads, RwPc.announced, RwPc.holdsReal]
  | _ =>
      obtain rfl := Option.some.inj hstep
      simp [RwPc.reads, RwPc.announced, RwPc.holdsReal]

theorem RwExact.real_of_holds (hinv : RwExact c) (hi : (c.proc i).holdsReal = true) :
    c.shared.realLock = true := by
  have hpos : 0 < (c.shared.realLock.toNat : Int) := hinv.real.pos hi
  cases hl : c.shared.realLock with
  | true => rfl
  | false =>
      rw [hl] at hpos
      cases hpos

variable [DecidableEq ι]

theorem RwExact.step (hinv : RwExact c) (hstep : rwStep call (c.proc i) c.shared = some x) :
    RwExact (c.move i x) := by
  obtain ⟨hreaders, hwriters, hreal⟩ := rwStep_counts hstep hinv.real_of_holds
  obtain ⟨n, hinside⟩ := hinv.inside
  refine ⟨?_, ?_, ?_, _, hinside.move (Q := RwPc.inside) i x⟩
  · rw [Config.move_shared, hreaders]
    exact hinv.readers.move i x
  · rw [Config.move_shared, hwriters]
    exact hinv.writers.move i x
  · rw [Config.move_shared, hreal]
    exact hinv.real.move i x

theorem rwExact_of_reach {allow : Config ι RwPc UrwLock → ι → RwCall → Prop}
    (hreach : Reach rwStep allow idleLock c) : RwExact c :=
  hreach.invariant idleLock_exact (fun _ _ _ _ hinv _ hstep => hinv.step hstep)

omit [DecidableEq ι] in
theorem RwExact.real_unique (hinv : RwExact c) (hi : (c.proc i).holdsReal = true)
    (hj : (c.proc j).holdsReal = true) : i = j := by
  have hone : (c.shared.realLock.toNat : Int) ≤ 1 := by
    cases c.shared.realLock <;> decide
  exact hinv.real.unique hone hi hj

/-! What the two tests of the lock are good for. -/

/-- While `num_writers` is not 0 no process passes the test of a reader. -/
theorem admitted_step (hstep : rwStep call pc l = some x) (hwriters : l.numWriters ≠ 0)
    (hnew : x.1.admitted = true) : pc.admitted = true := by
  cases pc with
  | idle => cases call <;> obtain rfl := Option.some.inj hstep <;> cases hnew
  | testReaders =>
      obtain rfl := Option.some.inj hstep
      split at hnew <;> cases hnew
  | lockReal =>
      cases hl : l.realLock with
      | true => simp [rwStep, hl] at hstep
      | false =>
          simp only [rwStep, hl, Bool.false_eq_true, if_false] at hstep
          obtain rfl := Option.some.inj hstep
          cases hnew
  | testWriters =>
      obtain rfl := Option.some.inj hstep
      rw [if_neg hwriters] at hnew
      cases hnew
  | addReader => rfl
  | reading => rfl
  | _ =>
      obtain rfl := Option.some.inj hstep
      cases hnew

/-- A writer comes past its test only when `num_readers` is 0. -/
theorem pastTest_step (hstep : rwStep call pc l = some x) (hnew : x.1.pastTest = true) :
    pc.pastTest = true ∨ pc = .testReaders ∧ l.numReaders = 0 := by
  cases pc with
  | idle => cases call <;> obtain rfl := Option.some.inj hstep <;> cases hnew
  | testReaders =>
      obtain rfl := Option.some.inj hstep
      split at hnew
      next hzero => exact .inr ⟨rfl, hzero⟩
      next => cases hnew
  | lockReal => exact .inl rfl
  | testWriters =>
      obtain rfl := Option.some.inj hstep
      split at hnew <;> cases hnew
  | writing => exact .inl rfl
  | _ =>
      obtain rfl := Option.some.inj hstep
      cases hnew

theorem announced_of_pastTest (hpc : pc.pastTest = true) : pc.announced = true := by
  cases pc <;> first | rfl | cases hpc

theorem not_admitted_of_pastTest (hpc : pc.pastTest = true) : pc.admitted = false := by
  cases pc <;> first | rfl | cases hpc

/-- While a writer is past its test, no process reads or is about to. -/
def ReadersOut (c : Config ι RwPc UrwLock) : Prop :=
  ∀ i j, (c.proc i).pastTest = true → (c.proc j).admitted = false

theorem ReadersOut.step (hout : ReadersOut c) (hinv : RwExact c)
    (hwindow : NoReaderEntering c i call) (hstep : rwStep call (c.proc i) c.shared = some x) :
    ReadersOut (c.move i x) := by
  -- a writer that comes past its test finds nobody admitted
  have hpast : x.1.pastTest = true → ∀ j, (c.proc j).admitted = false := by
    intro hnew j
    rcases pastTest_step hstep hnew with hold | ⟨htest, hzero⟩
    · exact hout i j hold
    · have hadd := hwindow htest hzero j
      have hreads : (c.proc j).reads ≠ true := (hzero ▸ hinv.readers).zero j
      cases hpc : c.proc j <;> simp_all [RwPc.admitted, RwPc.reads]
  -- and a reader is admitted only when nobody has announced to write
  have hguarded : x.1.admitted = true → ∀ j, (c.proc j).pastTest = false := by
    intro hnew j
    by_contra hj
    have hj : (c.proc j).pastTest = true := by simpa using hj
    have hwriters : c.shared.numWriters ≠ 0 := (hinv.writers.pos (announced_of_pastTest hj)).ne'
    have hold := admitted_step hstep hwriters hnew
    rw [hout j i hj] at hold
    cases hold
  intro j k hj
  by_contra hk
  have hk : ((c.move i x).proc k).admitted = true := by simpa using hk
  by_cases hji : j = i
  · subst hji
    by_cases hkj : k = j
    · subst hkj
      rw [not_admitted_of_pastTest hj] at hk
      cases hk
    · rw [Config.move_self] at hj
      rw [c.move_other x hkj, hpast hj k] at hk
      cases hk
  · rw [c.move_other x hji] at hj
    by_cases hki : k = i
    · subst hki
      rw [Config.move_self] at hk
      rw [hguarded hk j] at hj
      cases hj
    · rw [c.move_other x hki, hout j k hj] at hk
      cases hk

/-- In every interleaving in which no writer passes its test while a reader is
entering, the lock excludes. -/
theorem rw_excludes (hreach : Reach rwStep NoReaderEntering idleLock c) : Excludes c := by
  have hinv : RwExact c ∧ ReadersOut c := by
    refine hreach.invariant (P := fun c => RwExact c ∧ ReadersOut c)
      ⟨idleLock_exact, fun i j h => by cases h⟩ ?_
    rintro c i call x ⟨hexact, hout⟩ hwindow hstep
    exact ⟨hexact.step hstep, hout.step hexact hwindow hstep⟩
  intro p q hne hp
  refine ⟨fun hq => hne (hinv.1.real_unique ?_ ?_), fun hq => ?_⟩
  · rw [hp]
    rfl
  · rw [hq]
    rfl
  · have hadmitted := hinv.2 p q (by rw [hp]; rfl)
    rw [hq] at hadmitted
    cases hadmitted

/-- The writer 1 waits for the reader 0, which then waits for the writer. -/
theorem rw_excludes_writer : ∃ c : Config (Fin 2) RwPc UrwLock,
    Reach rwStep NoReaderEntering idleLock c ∧ c.proc 1 = .writing ∧ c.proc 0 = .testWriters ∧
      Excludes c := by
  obtain ⟨c, hreach, hc⟩ : ∃ c : Config (Fin 2) RwPc UrwLock,
      Reach rwStep NoReaderEntering idleLock c ∧
        (c.proc 1 == .writing && c.proc 0 == .testWriters) = true :=
    exists_reach rwStep idleLock [(0, .downRead), (0, .downRead), (1, .downWrite),
        (0, .downRead), (1, .downWrite), (0, .downRead), (0, .downRead), (0, .downRead),
        (1, .downWrite), (1, .downWrite)]
      (fun c i _ => c.proc i != .testReaders || c.shared.numReaders != 0 ||
        decide (∀ j, c.proc j ≠ .addReader)) _
      (fun c i e htest hpc hzero => by simpa [hpc, hzero] using htest) (by decide)
  rw [Bool.and_eq_true, beq_iff_eq, beq_iff_eq] at hc
  exact ⟨c, hreach, hc.1, hc.2, rw_excludes hreach⟩

/-- A reader that has seen no writer, and a writer that then sees no reader. -/
theorem rw_late_reader : ∃ c : Config Nat RwPc UrwLock,
    Reach rwStep (fun _ _ _ => True) idleLock c ∧ ¬ Excludes c := by
  obtain ⟨c, hreach, hc⟩ : ∃ c : Config Nat RwPc UrwLock,
      Reach rwStep (fun _ _ _ => True) idleLock c ∧
        (c.proc 1 == .writing && c.proc 0 == .reading) = true :=
    exists_reach rwStep idleLock [(0, .downRead), (0, .downRead), (1, .downWrite),
        (1, .downWrite), (1, .downWrite), (0, .downRead)]
      (fun _ _ _ => true) (fun c => c.proc 1 == .writing && c.proc 0 == .reading)
      (fun _ _ _ _ => trivial) (by decide)
  rw [Bool.and_eq_true, beq_iff_eq, beq_iff_eq] at hc
  exact ⟨c, hreach, fun hex => (hex 1 0 (by decide) hc.1).2 hc.2⟩

end Spacefish
