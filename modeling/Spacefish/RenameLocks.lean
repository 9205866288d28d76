import Spacefish.RowLocks
import Spacefish.TableEnds
import Spacefish.RwLock

/-!
Renames as steps on the row locks. A process in `mb_chpath` calls `down_write`
on the row of its old path and then on the row of its new path, edits the rows,
and unlocks them in the opposite order; the steps of the lock are those of
`rwStep`. A rename whose rows coincide waits for the lock it holds. Renames that
take their rows in the order of a common numbering never wait in a circle.
-/

namespace Spacefish

open Interleaving Program

/-- The arguments of a call of `mb_chpath` and the rows they hash to. -/
structure ChpathCall where
  oldpath : Path
  newpath : Path
  hiOld : Nat
  hiNew : Nat

/-- Where a process stands in `mb_chpath`, with its position in the lock or
unlock call it is in. -/
inductive ChpathPc where
  | lockOld (pc : RwPc)
  | lockNew (pc : RwPc)
  /-- Both `down_write` calls have returned. -/
  | rows
  | unlockNew (pc : RwPc)
  | unlockOld (pc : RwPc)
  deriving DecidableEq

/-- A process and the call it is in, if any. `held` records the rows whose
`real_lock` it has taken and not given back. -/
structure RenameProc where
  call : Option (ChpathCall × ChpathPc)
  held : List Nat

/-- One step of a writer on the lock of a row. -/
def rowStep (h : Nat) (pc : RwPc) (t : MetaShm) : Option (RwPc × MetaShm) :=
  (rwStep .downWrite pc (t.row h).lock).map (fun x => (x.1, t.lockRow h x.2))

/-- The next step of a process; `e` holds the paths of the call it makes when it is
in none. The edits between the locks are one step. -/
def chpathStep (e : Path × Path) (p : RenameProc) (t : MetaShm) :
    Option (RenameProc × MetaShm) :=
  match p.call with
  | none =>
      if samePath e.1 e.2 then some (p, t)
      else
        match hash e.1, hash e.2 with
        | .ok hiOld, .ok hiNew =>
            some ({ p with call := some (⟨e.1, e.2, hiOld, hiNew⟩, .lockOld .idle) }, t)
        | _, _ => none
  | some (c, .lockOld pc) =>
      (rowStep c.hiOld pc t).map (fun x =>
        (if x.1 = .writing then
          { call := some (c, .lockNew .idle), held := c.hiOld :: p.held }
        else { p with call := some (c, .lockOld x.1) }, x.2))
  | some (c, .lockNew pc) =>
      (rowStep c.hiNew pc t).map (fun x =>
        (if x.1 = .writing then { call := some (c, .rows), held := c.hiNew :: p.held }
        else { p with call := some (c, .lockNew x.1) }, x.2))
  | some (c, .rows) =>
      match chpathRows c.hiOld c.hiNew c.oldpath c.newpath t with
      | .ok r t' =>
          if r = -1 then some ({ p with call := none }, t')
          else some ({ p with call := some (c, .unlockNew .writing) }, t')
      | .error _ _ => none
  | some (c, .unlockNew pc) =>
      (rowStep c.hiNew pc t).map (fun x =>
        (if x.1 = .idle then
          { call := some (c, .unlockOld .writing), held := p.held.erase c.hiNew }
        else { p with call := some (c, .unlockNew x.1) }, x.2))
  | some (c, .unlockOld pc) =>
      (rowStep c.hiOld pc t).map (fun x =>
        (if x.1 = .idle then { call := none, held := p.held.erase c.hiOld }
        else { p with call := some (c, .unlockOld x.1) }, x.2))

/-- The row whose `down_write` the process is in. -/
def RenameProc.asks (p : RenameProc) : Option Nat :=
  match p.call with
  | some (c, .lockOld _) => some c.hiOld
  | some (c, .lockNew _) => some c.hiNew
  | _ => none

/-- The row whose `real_lock` the process is about to take. -/
def RenameProc.spinsOn (p : RenameProc) : Option Nat :=
  match p.call with
  | some (c, .lockOld .lockReal) => some c.hiOld
  | some (c, .lockNew .lockReal) => some c.hiNew
  | _ => none

def RenameProc.idle : RenameProc := ⟨none, []⟩

variable {ι : Type*} {rank : Nat → Nat} {p p' : RenameProc} {t t' : MetaShm}
  {e : Path × Path} {c : Config ι RenameProc MetaShm} {h : Nat} {oldpath newpath : Path}

/-! Renames that ascend. -/

/-- Process `i` is in the `down_write` of a row whose lock process `j` holds. -/
def WaitsFor (c : Config ι RenameProc MetaShm) (i j : ι) : Prop :=
  ∃ h, (c.proc i).asks = some h ∧ h ∈ (c.proc j).held

/-- Processes that wait for each other in a circle. -/
def Deadlocked (c : Config ι RenameProc MetaShm) : Prop :=
  ∃ i, Relation.TransGen (WaitsFor c) i i

/-- A call asks first for its old row, which is numbered above all rows that the
process still holds and below the new row. -/
def AscendsBy (rank : Nat → Nat) (c : Config ι RenameProc MetaShm) (i : ι) (e : Path × Path) :
    Prop :=
  (c.proc i).call = none → samePath e.1 e.2 = false → ∀ ho hn, hash e.1 = .ok ho →
    hash e.2 = .ok hn → (∀ h ∈ (c.proc i).held, rank h < rank ho) ∧ rank ho < rank hn

/-- The rows that a process asks for are numbered above those it holds. -/
def Ascending (rank : Nat → Nat) (p : RenameProc) : Prop :=
  match p.call with
  | some (c, .lockOld _) => (∀ h ∈ p.held, rank h < rank c.hiOld) ∧ rank c.hiOld < rank c.hiNew
  | some (c, .lockNew _) => ∀ h ∈ p.held, rank h < rank c.hiNew
  | _ => True

theorem Ascending.asks (hp : Ascending rank p) (hask : p.asks = some h) :
    ∀ k ∈ p.held, rank k < rank h := by
  obtain ⟨call, held⟩ := p
  rcases call with _ | ⟨c, _ | _ | _ | _ | _⟩
  · cases hask
  · obtain rfl := Option.some.inj hask
    exact hp.1
  · obtain rfl := Option.some.inj hask
    exact hp
  · cases hask
  · cases hask
  · cases hask

/-- Along a chain of waiting processes the rows they ask for ascend. -/
theorem ascends_of_transGen (hall : ∀ i, Ascending rank (c.proc i)) {i j : ι} {h' : Nat}
    (hwait : Relation.TransGen (WaitsFor c) i j) (hi : (c.proc i).asks = some h)
    (hj : (c.proc j).asks = some h') : rank h < rank h' := by
  induction hwait generalizing h' with
  | single hij =>
      obtain ⟨k, hk, hheld⟩ := hij
      obtain rfl : k = h := Option.some.inj (hk.symm.trans hi)
      exact (hall _).asks hj k hheld
  | tail _ hjk ih =>
      obtain ⟨k, hk, hheld⟩ := hjk
      exact (ih hk).trans ((hall _).asks hj k hheld)

theorem not_deadlocked (hall : ∀ i, Ascending rank (c.proc i)) : ¬ Deadlocked c := by
  rintro ⟨i, hwait⟩
  obtain ⟨h, hask⟩ : ∃ h, (c.proc i).asks = some h := by
    obtain ⟨j, ⟨h, hask, _⟩, _⟩ := Relation.TransGen.head'_iff.mp hwait
    exact ⟨h, hask⟩
  exact lt_irrefl _ (ascends_of_transGen hall hwait hask hask)

theorem Ascending.step (hp : Ascending rank p)
    (hstart : p.call = none → samePath e.1 e.2 = false → ∀ ho hn, hash e.1 = .ok ho →
      hash e.2 = .ok hn → (∀ h ∈ p.held, rank h < rank ho) ∧ rank ho < rank hn)
    (hstep : chpathStep e p t = some (p', t')) : Ascending rank p' := by
  obtain ⟨call, held⟩ := p
  rcases call with _ | ⟨c, pc | pc | _ | pc | pc⟩
  · simp only [chpathStep] at hstep
    split at hstep
    · cases hstep
      trivial
    next hdiff =>
      split at hstep
      next ho hn hold hnew =>
        cases hstep
        exact hstart rfl (by simpa using hdiff) ho hn hold hnew
      next => cases hstep
  · obtain ⟨x, -, hx⟩ := Option.map_eq_some_iff.mp hstep
    cases hx
    split
    · intro k hk
      rcases List.mem_cons.mp hk with rfl | hk
      · exact hp.2
      · exact (hp.1 k hk).trans hp.2
    · exact hp
  · obtain ⟨x, -, hx⟩ := Option.map_eq_some_iff.mp hstep
    cases hx
    split
    · trivial
    · exact hp
  · simp only [chpathStep] at hstep
    split at hstep
    · split at hstep <;> cases hstep <;> trivial
    · cases hstep
  · obtain ⟨x, -, hx⟩ := Option.map_eq_some_iff.mp hstep
    cases hx
    split <;> trivial
  · obtain ⟨x, -, hx⟩ := Option.map_eq_some_iff.mp hstep
    cases hx
    split <;> trivial

variable [DecidableEq ι]

/-- Renames that take their rows in the order of some numbering never wait for
each other in a circle. -/
theorem renames_ascend_no_deadlock (rank : Nat → Nat)
    (hreach : Reach chpathStep (AscendsBy rank) ⟨fun _ => .idle, t⟩ c) : ¬ Deadlocked c := by
  have hall : ∀ i, Ascending rank (c.proc i) := by
    refine hreach.invariant (P := fun c => ∀ i, Ascending rank (c.proc i)) (fun i => trivial) ?_
    intro c i e x hinv hallow hstep
    refine c.forall_move (fun _ p => Ascending rank p) ?_ (fun j _ => hinv j)
    exact (hinv i).step hallow hstep
  exact not_deadlocked hall

theorem renames_ascend_two : ∃ c : Config Nat RenameProc MetaShm,
    Reach chpathStep (AscendsBy id) ⟨fun _ => .idle, initTable⟩ c ∧ WaitsFor c 1 0 ∧
      ¬ Deadlocked c := by
  obtain ⟨c, hreach, hc⟩ : ∃ c : Config Nat RenameProc MetaShm,
      Reach chpathStep (AscendsBy id) ⟨fun _ => .idle, initTable⟩ c ∧
        decide ((c.proc 1).asks = some 12469 ∧ 12469 ∈ (c.proc 0).held) = true := by
    refine exists_reach chpathStep _
      [(0, [47, 97], [47, 98]), (0, [], []), (0, [], []), (0, [], []), (1, [47, 97], [47, 98])]
      (fun c i e => (c.proc i).call.isSome ||
        (decide ((c.proc i).held = []) && decide (e = ([47, 97], [47, 98])))) _ ?_
      (by decide +kernel)
    intro c i e htest hnone hdiff ho hn hold hnew
    simp only [hnone, Option.isSome_none, Bool.false_or, Bool.and_eq_true, decide_eq_true_eq]
      at htest
    obtain ⟨hheld, rfl⟩ := htest
    cases hold
    cases hnew
    exact ⟨by simp [hheld], by decide⟩
  exact ⟨c, hreach, ⟨12469, of_decide_eq_true hc⟩, renames_ascend_no_deadlock id hreach⟩

/-- Two renames in opposite directions between the same rows. -/
theorem renames_cross_deadlock : ∃ c : Config Nat RenameProc MetaShm,
    Reach chpathStep (fun _ _ e => hash e.1 ≠ hash e.2) ⟨fun _ => .idle, initTable⟩ c ∧
      Deadlocked c := by
  have hrows : hash [47, 97] ≠ hash [47, 98] := fun heq => by cases heq
  obtain ⟨c, hreach, hc⟩ : ∃ c : Config Nat RenameProc MetaShm,
      Reach chpathStep (fun _ _ e => hash e.1 ≠ hash e.2) ⟨fun _ => .idle, initTable⟩ c ∧
        decide (((c.proc 0).asks = some 12470 ∧ 12470 ∈ (c.proc 1).held) ∧
          ((c.proc 1).asks = some 12469 ∧ 12469 ∈ (c.proc 0).held)) = true := by
    refine exists_reach chpathStep _
      (List.replicate 6 (0, [47, 97], [47, 98]) ++ List.replicate 6 (1, [47, 98], [47, 97]))
      (fun _ _ e => decide (e = ([47, 97], [47, 98]) ∨ e = ([47, 98], [47, 97]))) _ ?_
      (by decide +kernel)
    intro c i e htest
    rcases of_decide_eq_true htest with rfl | rfl
    · exact hrows
    · exact hrows.symm
  obtain ⟨h₀, h₁⟩ := of_decide_eq_true hc
  exact ⟨c, hreach, 0, .tail (.single ⟨_, h₀⟩) ⟨_, h₁⟩⟩

/-! A rename that runs alone. -/

/-- The process waits for a `real_lock` that it holds itself. -/
def RenameProc.SelfBlocked (p : RenameProc) : Prop := ∃ h, p.spinsOn = some h ∧ h ∈ p.held

/-- The states of a process that runs one call alone, from its start to its return. -/
def InCall (oldpath newpath : Path) (t : MetaShm) (c : Config Unit RenameProc MetaShm) : Prop :=
  ∃ x, chpathStep (oldpath, newpath) .idle t = some x ∧
    Reach chpathStep (fun c i _ => (c.proc i).call ≠ none) ⟨fun _ => x.1, x.2⟩ c

/-- The two rows of a call that really moves a path coincide. -/
def SameRow (oldpath newpath : Path) : Prop :=
  samePath oldpath newpath = false ∧ ∃ h, hash oldpath = .ok h ∧ hash newpath = .ok h

theorem inCall_start {ho hn : Nat} (hdiff : samePath oldpath newpath = false)
    (hold : hash oldpath = .ok ho) (hnew : hash newpath = .ok hn) :
    InCall oldpath newpath t
      ⟨fun _ => ⟨some (⟨oldpath, newpath, ho, hn⟩, .lockOld .idle), []⟩, t⟩ := by
  refine ⟨(⟨some (⟨oldpath, newpath, ho, hn⟩, .lockOld .idle), []⟩, t), ?_, .refl⟩
  simp [chpathStep, RenameProc.idle, hdiff, hold, hnew]

theorem InCall.step (hin : InCall oldpath newpath t ⟨fun _ => p, t'⟩) (hcall : p.call ≠ none)
    {x : RenameProc × MetaShm} (hstep : chpathStep ([], []) p t' = some x) :
    InCall oldpath newpath t ⟨fun _ => x.1, x.2⟩ := by
  obtain ⟨x₀, hx₀, hreach⟩ := hin
  exact ⟨x₀, hx₀, hreach.tail ⟨(), _, x, hcall, hstep, rfl⟩⟩

section

variable {call : ChpathCall} {held : List Nat} {pc pc' : RwPc} {t'' : MetaShm}

/-- A step inside the `down_write` of the old row, or its return. -/
theorem InCall.lockOld
    (hin : InCall oldpath newpath t ⟨fun _ => ⟨some (call, .lockOld pc), held⟩, t'⟩)
    (hrow : rowStep call.hiOld pc t' = some (pc', t'')) :
    InCall oldpath newpath t
      ⟨fun _ => if pc' = .writing then ⟨some (call, .lockNew .idle), call.hiOld :: held⟩
        else ⟨some (call, .lockOld pc'), held⟩, t''⟩ := by
  have hstep : ∀ y, chpathStep ([], []) ⟨some (call, .lockOld pc), held⟩ t' = some (y, t'') →
      InCall oldpath newpath t ⟨fun _ => y, t''⟩ := fun y hy => hin.step (by simp) hy
  refine hstep _ ?_
  simp only [chpathStep, hrow, Option.map_some]

theorem InCall.lockNew
    (hin : InCall oldpath newpath t ⟨fun _ => ⟨some (call, .lockNew pc), held⟩, t'⟩)
    (hrow : rowStep call.hiNew pc t' = some (pc', t'')) :
    InCall oldpath newpath t
      ⟨fun _ => if pc' = .writing then ⟨some (call, .rows), call.hiNew :: held⟩
        else ⟨some (call, .lockNew pc'), held⟩, t''⟩ := by
  have hstep : ∀ y, chpathStep ([], []) ⟨some (call, .lockNew pc), held⟩ t' = some (y, t'') →
      InCall oldpath newpath t ⟨fun _ => y, t''⟩ := fun y hy => hin.step (by simp) hy
  refine hstep _ ?_
  simp only [chpathStep, hrow, Option.map_some]

end

/-! The steps of a writer on a row with no readers. -/

theorem rowStep_idle {l : UrwLock} (hl : (t.row h).lock = l) :
    rowStep h .idle t =
      some (.testReaders, t.lockRow h { l with numWriters := l.numWriters + 1 }) := by
  rw [rowStep, hl]
  rfl

theorem rowStep_testReaders {w : Int} {r : Bool} :
    rowStep h .testReaders (t.lockRow h ⟨0, w, r⟩) = some (.lockReal, t.lockRow h ⟨0, w, r⟩) := by
  simp [rowStep, rwStep]

theorem rowStep_lockReal {w : Int} :
    rowStep h .lockReal (t.lockRow h ⟨0, w, false⟩) = some (.writing, t.lockRow h ⟨0, w, true⟩) := by
  simp [rowStep, rwStep]

section

variable {ho hn : Nat} (hidle : RowIdle t ho) (hdiff : samePath oldpath newpath = false)
  (hold : hash oldpath = .ok ho) (hnew : hash newpath = .ok hn)

include hidle hdiff hold hnew

/-- A process that is alone passes the `down_write` of its old row. -/
theorem inCall_lockNew :
    InCall oldpath newpath t
      ⟨fun _ => ⟨some (⟨oldpath, newpath, ho, hn⟩, .lockNew .idle), [ho]⟩,
        t.lockRow ho ⟨0, 1, true⟩⟩ := by
  have hstart : InCall oldpath newpath t _ := inCall_start hdiff hold hnew
  have hcalled := hstart.lockOld (rowStep_idle hidle)
  have htested := hcalled.lockOld rowStep_testReaders
  exact htested.lockOld rowStep_lockReal

/-- The second `down_write` returns when the rows differ. -/
theorem inCall_rows (hne : ho ≠ hn) (hidle' : RowIdle t hn) :
    InCall oldpath newpath t
      ⟨fun _ => ⟨some (⟨oldpath, newpath, ho, hn⟩, .rows), [hn, ho]⟩, t.lockBoth ho hn⟩ := by
  have hlock : ((t.lockRow ho ⟨0, 1, true⟩).row hn).lock = initUrwLock := by
    rw [lockRow_lock_of_ne hne]
    exact hidle'
  have hcalled := (inCall_lockNew hidle hdiff hold hnew).lockNew (rowStep_idle hlock)
  have htested := hcalled.lockNew rowStep_testReaders
  exact htested.lockNew rowStep_lockReal

end

/-- The second `down_write` waits for the first when the rows are the same. -/
theorem inCall_selfBlocked (hidle : RowIdle t h) (hdiff : samePath oldpath newpath = false)
    (hold : hash oldpath = .ok h) (hnew : hash newpath = .ok h) :
    ∃ c, InCall oldpath newpath t c ∧ (c.proc ()).SelfBlocked := by
  have hcalled := (inCall_lockNew hidle hdiff hold hnew).lockNew (rowStep_idle (lockRow_lock _))
  have htested := hcalled.lockNew rowStep_testReaders
  exact ⟨_, htested, h, rfl, by simp⟩

/-- In a call whose rows differ, the process waits for no lock that it holds. -/
def HoldsOnlyOld (p : RenameProc) : Prop :=
  match p.call with
  | some (c, .lockOld _) => p.held = [] ∧ c.hiOld ≠ c.hiNew
  | some (c, .lockNew _) => p.held = [c.hiOld] ∧ c.hiOld ≠ c.hiNew
  | _ => True

theorem HoldsOnlyOld.not_selfBlocked (hp : HoldsOnlyOld p) : ¬ p.SelfBlocked := by
  rintro ⟨h, hspin, hheld⟩
  obtain ⟨call, held⟩ := p
  rcases call with _ | ⟨c, pc | pc | _ | pc | pc⟩
  · cases hspin
  · obtain ⟨rfl, -⟩ := hp
    cases hheld
  · obtain ⟨rfl, hne⟩ := hp
    cases pc <;> cases hspin
    exact hne (List.mem_singleton.mp hheld).symm
  · cases hspin
  · cases hspin
  · cases hspin

theorem HoldsOnlyOld.step (hp : HoldsOnlyOld p) (hcall : p.call ≠ none)
    (hstep : chpathStep e p t = some (p', t')) : HoldsOnlyOld p' := by
  obtain ⟨call, held⟩ := p
  rcases call with _ | ⟨c, pc | pc | _ | pc | pc⟩
  · exact absurd rfl hcall
  · obtain ⟨x, -, hx⟩ := Option.map_eq_some_iff.mp hstep
    cases hx
    obtain ⟨rfl, hne⟩ := hp
    split
    · exact ⟨rfl, hne⟩
    · exact ⟨rfl, hne⟩
  · obtain ⟨x, -, hx⟩ := Option.map_eq_some_iff.mp hstep
    cases hx
    split
    · trivial
    · exact hp
  · simp only [chpathStep] at hstep
    split at hstep
    · split at hstep <;> cases hstep <;> trivial
    · cases hstep
  · obtain ⟨x, -, hx⟩ := Option.map_eq_some_iff.mp hstep
    cases hx
    split <;> trivial
  · obtain ⟨x, -, hx⟩ := Option.map_eq_some_iff.mp hstep
    cases hx
    split <;> trivial

theorem InCall.holdsOnlyOld {c : Config Unit RenameProc MetaShm}
    (hin : InCall oldpath newpath t c) (hrow : ¬ SameRow oldpath newpath) :
    HoldsOnlyOld (c.proc ()) := by
  obtain ⟨x, hx, hreach⟩ := hin
  refine hreach.invariant (P := fun c => HoldsOnlyOld (c.proc ())) ?_ ?_
  · simp only [chpathStep, RenameProc.idle] at hx
    split at hx
    · cases hx
      trivial
    next hdiff =>
      split at hx
      next ho hn hold hnew =>
        cases hx
        refine ⟨rfl, fun heq => hrow ⟨by simpa using hdiff, ho, hold, ?_⟩⟩
        rw [hnew]
        exact congrArg _ heq.symm
      next => cases hx
  · intro c i e x hinv hcall hstep
    rw [Config.move_self]
    exact hinv.step hcall hstep

/-- `mb_chpath`, run alone on free rows, waits for no lock that it holds, and both
`down_write` calls return when the paths have rows: exactly if the rows differ. -/
theorem rename_never_selfBlocks_iff (hfree : RowsFree t) (oldpath newpath : Path) :
    ((∀ c, InCall oldpath newpath t c → ¬ (c.proc ()).SelfBlocked) ∧
      ∀ ho hn, samePath oldpath newpath = false → hash oldpath = .ok ho → hash newpath = .ok hn →
        ∃ c, InCall oldpath newpath t c ∧
          (c.proc ()).call = some (⟨oldpath, newpath, ho, hn⟩, .rows)) ↔
      ¬ SameRow oldpath newpath := by
  constructor
  · rintro ⟨hnever, -⟩ ⟨hdiff, h, hold, hnew⟩
    obtain ⟨c, hin, hblocked⟩ := inCall_selfBlocked (hfree h (hash_lt hold)) hdiff hold hnew
    exact hnever c hin hblocked
  · intro hrow
    refine ⟨fun c hin => (hin.holdsOnlyOld hrow).not_selfBlocked, ?_⟩
    intro ho hn hdiff hold hnew
    have hne : ho ≠ hn := by
      rintro rfl
      exact hrow ⟨hdiff, ho, hold, hnew⟩
    exact ⟨_, inCall_rows (hfree ho (hash_lt hold)) hdiff hold hnew hne (hfree hn (hash_lt hnew)),
      rfl⟩

theorem rename_never_selfBlocks_ab :
    RowsFree initTable ∧
      ∀ c, InCall [47, 97] [47, 98] initTable c → ¬ (c.proc ()).SelfBlocked := by
  have hrow : ¬ SameRow [47, 97] [47, 98] := by
    rintro ⟨-, h, hold, hnew⟩
    cases hold
    cases hnew
  exact ⟨initTable_free,
    ((rename_never_selfBlocks_iff initTable_free [47, 97] [47, 98]).mpr hrow).1⟩

/-- The paths `/bB` and `/ac` have the same hash. -/
theorem rename_collision_selfBlocks :
    ¬ ∀ (t : MetaShm) (oldpath newpath : Path), RowsFree t → oldpath ≠ newpath →
      ∀ c, InCall oldpath newpath t c → ¬ (c.proc ()).SelfBlocked := by
  intro hall
  obtain ⟨c, hin, hblocked⟩ : ∃ c, InCall [47, 98, 66] [47, 97, 99] initTable c ∧
      (c.proc ()).SelfBlocked := inCall_selfBlocked rfl rfl rfl rfl
  exact hall initTable _ _ initTable_free (by decide) c hin hblocked

/-! The steps of a process that is alone do what `mb_chpath` does. -/

section

variable {call : ChpathCall} {held : List Nat} {pc : RwPc}

theorem InCall.unlockNew
    (hin : InCall oldpath newpath t ⟨fun _ => ⟨some (call, .unlockNew .writing), held⟩, t'⟩)
    (hlock : (t'.row call.hiNew).lock = ⟨0, 1, true⟩) :
    InCall oldpath newpath t
      ⟨fun _ => ⟨some (call, .unlockOld .writing), held.erase call.hiNew⟩,
        t'.lockRow call.hiNew initUrwLock⟩ := by
  have hleft : InCall oldpath newpath t ⟨fun _ => ⟨some (call, .unlockNew .unlockReal), held⟩,
      t'.lockRow call.hiNew ⟨0, 0, true⟩⟩ := by
    refine hin.step (by simp) (x := (_, _)) ?_
    simp only [chpathStep, rowStep, hlock]
    rfl
  refine hleft.step (by simp) (x := (_, _)) ?_
  simp only [chpathStep, rowStep, lockRow_lock, rwStep, Option.map_some, lockRow_lockRow]
  rfl

theorem InCall.unlockOld
    (hin : InCall oldpath newpath t ⟨fun _ => ⟨some (call, .unlockOld .writing), held⟩, t'⟩)
    (hlock : (t'.row call.hiOld).lock = ⟨0, 1, true⟩) :
    InCall oldpath newpath t
      ⟨fun _ => ⟨none, held.erase call.hiOld⟩, t'.lockRow call.hiOld initUrwLock⟩ := by
  have hleft : InCall oldpath newpath t ⟨fun _ => ⟨some (call, .unlockOld .unlockReal), held⟩,
      t'.lockRow call.hiOld ⟨0, 0, true⟩⟩ := by
    refine hin.step (by simp) (x := (_, _)) ?_
    simp only [chpathStep, rowStep, hlock]
    rfl
  refine hleft.step (by simp) (x := (_, _)) ?_
  simp only [chpathStep, rowStep, lockRow_lock, rwStep, Option.map_some, lockRow_lockRow]
  rfl

end

theorem mbChpath_rows {r : Int} (hfree : RowsFree t) (hdiff : samePath oldpath newpath = false)
    (hrun : mbChpath oldpath newpath t = .ok r t') :
    ∃ ho hn t₁, hash oldpath = .ok ho ∧ hash newpath = .ok hn ∧ ho ≠ hn ∧
      chpathRows ho hn oldpath newpath (t.lockBoth ho hn) = .ok r t₁ ∧
      chpathUnlock ho hn r t₁ = .ok r t' := by
  have hphases := hrun
  rw [mbChpath_phases hdiff] at hphases
  rcases hash_cases oldpath with ⟨ho, hlt, hold⟩ | herr
  · rcases hash_cases newpath with ⟨hn, hlt', hnew⟩ | herr
    · have hne : ho ≠ hn := by
        rintro rfl
        obtain ⟨t₁, hhang⟩ := mbChpath_sameRow hold hnew (hfree ho hlt) hdiff
        rw [hhang] at hrun
        cases hrun
      have hidle : RowIdle (t.lockRow ho ⟨0, 1, true⟩) hn := by
        rw [RowIdle, lockRow_lock_of_ne hne]
        exact hfree hn hlt'
      rw [bind_of_ok (hashRow_eq hold), bind_of_ok (hashRow_eq hnew),
        bind_of_ok (downWrite_eq (hfree ho hlt)), bind_of_ok (downWrite_eq hidle)] at hphases
      change (chpathRows ho hn oldpath newpath >>= chpathUnlock ho hn) (t.lockBoth ho hn) = _
        at hphases
      cases hrows : chpathRows ho hn oldpath newpath (t.lockBoth ho hn) with
      | error e t₁ =>
          rw [bind_of_error hrows] at hphases
          cases hphases
      | ok r₁ t₁ =>
          rw [bind_of_ok hrows] at hphases
          obtain rfl : r₁ = r := by
            rw [chpathUnlock, run_ite] at hphases
            split at hphases
            next heq =>
              cases hphases
              exact heq
            next =>
              cases hphases
              rfl
          exact ⟨ho, hn, t₁, hold, hnew, hne, hrows, hphases⟩
    · rw [bind_of_ok (hashRow_eq hold), hashRow_error herr] at hphases
      cases hphases
  · rw [hashRow_error herr] at hphases
    cases hphases

/-- The steps of a call that returns lead to the table that `mb_chpath` leaves. -/
theorem mbChpath_alone {r : Int} (hfree : RowsFree t) (hdiff : samePath oldpath newpath = false)
    (hrun : mbChpath oldpath newpath t = .ok r t') :
    ∃ held, InCall oldpath newpath t ⟨fun _ => ⟨none, held⟩, t'⟩ := by
  obtain ⟨ho, hn, t₁, hold, hnew, hne, hrows, hunlock⟩ := mbChpath_rows hfree hdiff hrun
  have hin := inCall_rows (hfree ho (hash_lt hold)) hdiff hold hnew hne (hfree hn (hash_lt hnew))
  have hends : Ends (chpathRows ho hn oldpath newpath (t.lockBoth ho hn)) _ _ :=
    chpathRows_ends ho hn oldpath newpath
  rw [hrows] at hends
  obtain ⟨hlocks, -⟩ := hends
  rw [MetaShm.lockBoth, lockRow_locks, lockRow_locks] at hlocks
  rw [chpathUnlock, run_ite] at hunlock
  split at hunlock
  next =>
    cases hunlock
    exact ⟨_, hin.step (by simp) (x := (_, _)) (by simp only [chpathStep, hrows]; rfl)⟩
  next hpresent =>
    have hlockN : (t₁.row hn).lock = ⟨0, 1, true⟩ := by
      rw [← MetaShm.locks, hlocks, Function.update_self]
    have hlockO : ((t₁.lockRow hn initUrwLock).row ho).lock = ⟨0, 1, true⟩ := by
      rw [lockRow_lock_of_ne hne.symm, ← MetaShm.locks, hlocks, Function.update_of_ne hne,
        Function.update_self]
    rw [bind_of_ok (upWrite_eq hlockN), bind_of_ok (upWrite_eq hlockO)] at hunlock
    cases hunlock
    have hedited : InCall oldpath newpath t ⟨fun _ =>
        ⟨some (⟨oldpath, newpath, ho, hn⟩, .unlockNew .writing), [hn, ho]⟩, t₁⟩ :=
      hin.step (by simp) (x := (_, _)) (by simp only [chpathStep, hrows, if_neg hpresent])
    exact ⟨_, (hedited.unlockNew hlockN).unlockOld hlockO⟩

end Spacefish
