import Spacefish.RwLock

/-!
What the readers-writer lock gives in every interleaving, also where it does not
exclude. Its counters are exact, writers exclude each other, no process is ever stuck in
it, and a writer that has announced itself keeps all readers out that had not passed their
test before.
-/

namespace Spacefish

open Interleaving

variable {ι : Type*} {c c' : Config ι RwPc UrwLock} {i j w : ι} {call : RwCall}
  {x : RwPc × UrwLock} {pc : RwPc} {l : UrwLock}

theorem RwExact.readers_zero (hinv : RwExact c) (hno : ∀ i, c.proc i ≠ .reading) :
    c.shared.numReaders = 0 := by
  refine hinv.readers.eq_zero (fun i hi => ?_)
  have hpc := hno i
  cases h : c.proc i <;> simp_all [RwPc.reads]

theorem RwExact.writers_zero (hinv : RwExact c)
    (hno : ∀ i, c.proc i ≠ .testReaders ∧ c.proc i ≠ .lockReal ∧ c.proc i ≠ .writing) :
    c.shared.numWriters = 0 := by
  refine hinv.writers.eq_zero (fun i hi => ?_)
  have hpc := hno i
  cases h : c.proc i <;> simp_all [RwPc.announced]

theorem RwExact.real_free (hinv : RwExact c)
    (hno : ∀ i, c.proc i ≠ .writing ∧ c.proc i ≠ .unlockReal) : c.shared.realLock = false := by
  have hzero := hinv.real.eq_zero (fun i hi => by
    have hpc := hno i
    cases h : c.proc i <;> simp_all [RwPc.holdsReal])
  cases hl : c.shared.realLock with
  | false => rfl
  | true =>
      rw [hl] at hzero
      cases hzero

/-- Some process inside of the lock can come closer to its end. -/
theorem RwExact.progress (hinv : RwExact c) (hsome : ∃ i, (c.proc i).rank ≠ 0) :
    ∃ i call x, rwStep call (c.proc i) c.shared = some x ∧ x.1.rank < (c.proc i).rank := by
  -- who is past the waits takes its next step
  by_cases hfree : ∃ i, c.proc i = .reading ∨ c.proc i = .addReader ∨ c.proc i = .writing ∨
      c.proc i = .unlockReal
  · obtain ⟨i, hi | hi | hi | hi⟩ := hfree
    all_goals
      refine ⟨i, .downRead, ?_⟩
      rw [hi]
      exact ⟨_, rfl, by simp [RwPc.rank]⟩
  have hnone : ∀ i, c.proc i ≠ .reading ∧ c.proc i ≠ .addReader ∧ c.proc i ≠ .writing ∧
      c.proc i ≠ .unlockReal := by
    intro i
    simp only [not_exists, not_or] at hfree
    exact hfree i
  by_cases hlock : ∃ i, c.proc i = .lockReal
  · obtain ⟨i, hi⟩ := hlock
    have hreal := hinv.real_free (fun j => (hnone j).2.2)
    refine ⟨i, .downRead, ?_⟩
    rw [hi]
    exact ⟨_, by rw [rwStep, hreal]; rfl, by simp [RwPc.rank]⟩
  by_cases htest : ∃ i, c.proc i = .testReaders
  · obtain ⟨i, hi⟩ := htest
    have hzero := hinv.readers_zero (fun j => (hnone j).1)
    refine ⟨i, .downRead, ?_⟩
    rw [hi]
    exact ⟨_, by rw [rwStep, if_pos hzero], by simp [RwPc.rank]⟩
  -- only readers in front of their test are left, and no writer
  obtain ⟨i, hi⟩ := hsome
  simp only [not_exists] at hlock htest
  have hwait : c.proc i = .testWriters := by
    have hno := hnone i
    have hlock' := hlock i
    have htest' := htest i
    cases hpc : c.proc i <;> simp_all [RwPc.rank]
  have hzero := hinv.writers_zero (fun j => ⟨htest j, hlock j, (hnone j).2.2.1⟩)
  refine ⟨i, .downRead, ?_⟩
  rw [hwait]
  exact ⟨_, by rw [rwStep, if_pos hzero], by simp [RwPc.rank]⟩

/-- A lock that no process is inside of is as `init_urwlock` leaves it. -/
theorem RwExact.quiet (hinv : RwExact c) (hquiet : ∀ i, (c.proc i).rank = 0) : c = idleLock := by
  have hidle : ∀ i, c.proc i = .idle := by
    intro i
    have hrank := hquiet i
    cases hpc : c.proc i <;> simp_all [RwPc.rank]
  have hreaders := hinv.readers_zero (fun i => by rw [hidle i]; simp)
  have hwriters := hinv.writers_zero (fun i => by rw [hidle i]; simp)
  have hreal := hinv.real_free (fun i => by rw [hidle i]; simp)
  obtain ⟨proc, readers, writers, real⟩ := c
  obtain rfl : proc = fun _ => .idle := funext hidle
  obtain rfl : readers = 0 := hreaders
  obtain rfl : writers = 0 := hwriters
  obtain rfl : real = false := hreal
  rfl

variable [DecidableEq ι]

theorem rank_ne_zero : pc.rank ≠ 0 ↔ pc ≠ .idle := by
  cases pc <;> simp [RwPc.rank]

/-- In every interleaving the counters are exact, no two processes are between the spin lock
and its unlock, and the processes inside of the lock can all leave it without the others,
which gives back the lock of `init_urwlock`. -/
theorem rw_never_stuck (hreach : Reach rwStep (fun _ _ _ => True) idleLock c) :
    Counts (fun i => c.proc i = .reading) c.shared.numReaders ∧
      Counts (fun i => (c.proc i).announced = true) c.shared.numWriters ∧
      (∀ i j, (c.proc i).holdsReal = true → (c.proc j).holdsReal = true → i = j) ∧
      Reach rwStep (fun c i _ => c.proc i ≠ .idle) c idleLock := by
  have hinv := rwExact_of_reach hreach
  obtain ⟨n, R, hR, _⟩ := hinv.inside
  have hdrains : ∃ c', Reach rwStep (fun c i _ => (c.proc i).rank ≠ 0) c c' ∧ RwExact c' ∧
      ∀ i, (c'.proc i).rank = 0 :=
    drains RwPc.rank R (fun _ _ _ _ hinv hstep => hinv.step hstep)
      (fun _ hinv hsome => hinv.progress hsome) hinv
      (fun i hi => (hR i).mpr (by simpa [RwPc.inside] using hi))
  obtain ⟨c', hdrain, hinv', hzero⟩ := hdrains
  obtain rfl := hinv'.quiet hzero
  refine ⟨hinv.readers.congr (fun i => ?_), hinv.writers,
    fun i j hi hj => hinv.real_unique hi hj, ?_⟩
  · cases c.proc i <;> simp [RwPc.reads]
  · simpa only [rank_ne_zero] using hdrain

/-- Not even where the lock does not exclude. -/
theorem rw_never_stuck_lateReader : ∃ c : Config Nat RwPc UrwLock,
    Reach rwStep (fun _ _ _ => True) idleLock c ∧ c.proc 1 = .writing ∧ c.proc 0 = .reading ∧
      Reach rwStep (fun c i _ => c.proc i ≠ .idle) c idleLock := by
  obtain ⟨c, hreach, hc⟩ : ∃ c : Config Nat RwPc UrwLock,
      Reach rwStep (fun _ _ _ => True) idleLock c ∧
        (c.proc 1 == .writing && c.proc 0 == .reading) = true :=
    exists_reach rwStep idleLock [(0, .downRead), (0, .downRead), (1, .downWrite),
        (1, .downWrite), (1, .downWrite), (0, .downRead)]
      (fun _ _ _ => true) (fun c => c.proc 1 == .writing && c.proc 0 == .reading)
      (fun _ _ _ _ => trivial) (by decide)
  rw [Bool.and_eq_true, beq_iff_eq, beq_iff_eq] at hc
  exact ⟨c, hreach, hc.1, hc.2, (rw_never_stuck hreach).2.2.2⟩

/-! Write priority. -/

/-- A writer stays announced until `up_write`. -/
theorem announced_step (hstep : rwStep call pc l = some x) (hpc : pc.announced = true)
    (hstay : pc ≠ .writing) : x.1.announced = true := by
  cases pc with
  | testReaders =>
      obtain rfl := Option.some.inj hstep
      split <;> rfl
  | lockReal =>
      cases hl : l.realLock with
      | true => simp [rwStep, hl] at hstep
      | false =>
          simp only [rwStep, hl, Bool.false_eq_true, if_false] at hstep
          obtain rfl := Option.some.inj hstep
          rfl
  | writing => exact absurd rfl hstay
  | _ => cases hpc

/-- From the announcement of a writer until its `up_write`, in every interleaving, the
processes that read or are about to are among those that had passed their test before. -/
theorem rw_write_priority (hreach : Reach rwStep (fun _ _ _ => True) idleLock c)
    (hw : (c.proc w).announced = true)
    (hrun : Reach rwStep (fun c i _ => i = w → c.proc w ≠ .writing) c c') :
    (c'.proc w).announced = true ∧
      ∀ i, (c'.proc i).admitted = true → (c.proc i).admitted = true := by
  have hinv := rwExact_of_reach hreach
  have hall : RwExact c' ∧ (c'.proc w).announced = true ∧
      ∀ i, (c'.proc i).admitted = true → (c.proc i).admitted = true := by
    refine hrun.invariant (P := fun c' => RwExact c' ∧ (c'.proc w).announced = true ∧
      ∀ i, (c'.proc i).admitted = true → (c.proc i).admitted = true) ⟨hinv, hw, fun _ h => h⟩ ?_
    rintro c₁ i call x ⟨hinv₁, hw₁, hsub⟩ hallow hstep
    have hwriters : c₁.shared.numWriters ≠ 0 := (hinv₁.writers.pos hw₁).ne'
    refine ⟨hinv₁.step hstep, ?_, fun j hj => ?_⟩
    · by_cases hi : w = i
      · subst hi
        rw [Config.move_self]
        exact announced_step hstep hw₁ (hallow rfl)
      · rwa [c₁.move_other x hi]
    · by_cases hj' : j = i
      · subst hj'
        rw [Config.move_self] at hj
        exact hsub j (admitted_step hstep hwriters hj)
      · rw [c₁.move_other x hj'] at hj
        exact hsub j hj
  exact hall.2

/-- Process 1 has passed its test when the writer 0 comes, process 2 has not. -/
theorem rw_write_priority_writer : ∃ c c' : Config Nat RwPc UrwLock,
    Reach rwStep (fun _ _ _ => True) idleLock c ∧
      Reach rwStep (fun c i _ => i = 0 → c.proc 0 ≠ .writing) c c' ∧ (c.proc 1).admitted = true ∧
      c'.proc 0 = .writing ∧ ∀ i, (c'.proc i).admitted = true → (c.proc i).admitted = true := by
  obtain ⟨c, hreach, hc⟩ : ∃ c : Config Nat RwPc UrwLock,
      Reach rwStep (fun _ _ _ => True) idleLock c ∧
        ((c.proc 0).announced && (c.proc 1).admitted &&
          (play rwStep (fun c i _ => i != 0 || c.proc 0 != .writing) c
            [(2, .downRead), (2, .downRead), (0, .downWrite), (1, .downRead), (0, .downWrite)]).any
              (fun c' => c'.proc 0 == .writing)) = true :=
    exists_reach rwStep idleLock [(1, .downRead), (1, .downRead), (0, .downWrite)]
      (fun _ _ _ => true) _ (fun _ _ _ _ => trivial) (by decide)
  rw [Bool.and_eq_true, Bool.and_eq_true] at hc
  obtain ⟨⟨hw, hadmitted⟩, hplay⟩ := hc
  have hwrites : ∃ c', Reach rwStep (fun c i _ => i = 0 → c.proc 0 ≠ .writing) c c' ∧
      (c'.proc 0 == .writing) = true :=
    exists_reach rwStep c _ _ _ (fun c i _ h hi => by simpa [hi] using h) hplay
  obtain ⟨c', hrun, hc'⟩ := hwrites
  exact ⟨c, c', hreach, hrun, hadmitted, beq_iff_eq.mp hc', (rw_write_priority hreach hw hrun).2⟩

end Spacefish
