import Spacefish.CloseOnExec

/-!
How the slots follow the processes, and what an `exec` hands to the new program. The slot
of a process says that its table is in shared memory from the `exec` to the start of the
new program; the object stays there until a process ends that knows the process id.
-/

namespace Spacefish

open Program

variable {b : Build} {env env' : Env} {s s' s₁ : PidMeta} {l l₁ l₂ l' : Life} {im im' : Image}
  {me p q k j child : Nat} {out : LifeOut} {ev : LifeEvent} {path : Path} {found : Bool}
  {fds : Nat → FdInfo} {outs : List LifeOut} {es : List LifeEvent}

/-! The slots. -/

/-- A process has at most one slot, and the free slots say nothing. -/
structure SlotsWf (s : PidMeta) : Prop where
  unique : ∀ j < maxExecHanging, ∀ k < maxExecHanging, (s j).pid ≠ 0 → (s j).pid = (s k).pid → j = k
  free : ∀ k < maxExecHanging, (s k).pid = 0 → (s k).fdsBackedUp = false
  unlocked : ∀ k, (s k).lock = false

def HasSlot (s : PidMeta) (p : Nat) : Prop := ∃ k < maxExecHanging, (s k).pid = p

/-- The slot of the process says that its table is in shared memory. -/
def BackedUp (s : PidMeta) (p : Nat) : Prop :=
  ∃ k < maxExecHanging, (s k).pid = p ∧ (s k).fdsBackedUp = true

theorem BackedUp.hasSlot (h : BackedUp s p) : HasSlot s p := by
  obtain ⟨k, hk, hpid, _⟩ := h
  exact ⟨k, hk, hpid⟩

theorem SlotsWf.backedUp_iff (wf : SlotsWf s) (hk : k < maxExecHanging) (hp : p ≠ 0)
    (hpid : (s k).pid = p) : BackedUp s p ↔ (s k).fdsBackedUp = true := by
  constructor
  · rintro ⟨j, hj, hpj, hflag⟩
    obtain rfl := wf.unique j hj k hk (hpj ▸ hp) (hpj.trans hpid.symm)
    exact hflag
  · exact fun hflag => ⟨k, hk, hpid, hflag⟩

/-- Slot `k`, free or of process `p`, becomes `pi`, free or of process `p`. -/
structure SlotEdit (s s' : PidMeta) (k p : Nat) (pi : PidInfo) : Prop where
  range : k < maxExecHanging
  only : ∀ j < maxExecHanging, (s j).pid = p → j = k
  before : (s k).pid = p ∨ (s k).pid = 0
  self : s' k = pi
  other : ∀ j, j ≠ k → s' j = s j
  after : pi.pid = p ∨ pi.pid = 0 ∧ pi.fdsBackedUp = false
  unlocked : pi.lock = false

theorem SlotEdit.wf {pi : PidInfo} (hc : SlotEdit s s' k p pi) (wf : SlotsWf s) (hp : p ≠ 0) :
    SlotsWf s' := by
  have hother : ∀ i < maxExecHanging, i ≠ k → (s' i).pid ≠ p := by
    intro i hi hik hpid
    rw [hc.other i hik] at hpid
    exact hik (hc.only i hi hpid)
  have hself : (s' k).pid ≠ 0 → (s' k).pid = p := by
    intro hne
    rw [hc.self] at hne ⊢
    exact hc.after.resolve_right (fun h => hne h.1)
  refine ⟨fun i hi j hj hne heq => ?_, fun j hj hfree => ?_, fun j => ?_⟩
  · by_cases hik : i = k
    · subst hik
      by_cases hjk : j = i
      · exact hjk.symm
      · exact absurd (heq ▸ hself hne) (hother j hj hjk)
    · by_cases hjk : j = k
      · subst hjk
        exact absurd (heq ▸ hself (heq ▸ hne)) (hother i hi hik)
      · rw [hc.other i hik] at hne heq
        rw [hc.other j hjk] at heq
        exact wf.unique i hi j hj hne heq
  · by_cases hjk : j = k
    · subst hjk
      rw [hc.self] at hfree ⊢
      exact (hc.after.resolve_left (fun h => hp (h.symm.trans hfree))).2
    · rw [hc.other j hjk] at hfree ⊢
      exact wf.free j hj hfree
  · by_cases hjk : j = k
    · rw [hjk, hc.self]
      exact hc.unlocked
    · rw [hc.other j hjk]
      exact wf.unlocked j

/-- The slots of the other processes are as they were. -/
theorem SlotEdit.others {pi : PidInfo} (hc : SlotEdit s s' k p pi) (hq : q ≠ 0) (hqp : q ≠ p) :
    (BackedUp s' q ↔ BackedUp s q) ∧ (HasSlot s' q ↔ HasSlot s q) := by
  have hnew : (s' k).pid ≠ q := by
    rw [hc.self]
    rcases hc.after with h | h
    · exact fun heq => hqp (heq.symm.trans h)
    · exact fun heq => hq (heq.symm.trans h.1)
  have hold : (s k).pid ≠ q := by
    rcases hc.before with h | h
    · exact fun heq => hqp (heq.symm.trans h)
    · exact fun heq => hq (heq.symm.trans h)
  have hsame : ∀ j, ((s' j).pid = q → s' j = s j) ∧ ((s j).pid = q → s' j = s j) := by
    intro j
    by_cases hjk : j = k
    · subst hjk
      exact ⟨fun h => absurd h hnew, fun h => absurd h hold⟩
    · exact ⟨fun _ => hc.other j hjk, fun _ => hc.other j hjk⟩
  refine ⟨⟨?_, ?_⟩, ⟨?_, ?_⟩⟩
  · rintro ⟨j, hj, hpid, hflag⟩
    have heq := (hsame j).1 hpid
    exact ⟨j, hj, heq ▸ hpid, heq ▸ hflag⟩
  · rintro ⟨j, hj, hpid, hflag⟩
    have heq := (hsame j).2 hpid
    exact ⟨j, hj, by rw [heq, hpid], by rw [heq, hflag]⟩
  · rintro ⟨j, hj, hpid⟩
    exact ⟨j, hj, (hsame j).1 hpid ▸ hpid⟩
  · rintro ⟨j, hj, hpid⟩
    exact ⟨j, hj, by rw [(hsame j).2 hpid, hpid]⟩

theorem SlotEdit.self_backedUp {pi : PidInfo} (hc : SlotEdit s s' k p pi) :
    BackedUp s' p ↔ pi.pid = p ∧ pi.fdsBackedUp = true := by
  constructor
  · rintro ⟨j, hj, hpid, hflag⟩
    by_cases hjk : j = k
    · subst hjk
      rw [hc.self] at hpid hflag
      exact ⟨hpid, hflag⟩
    · rw [hc.other j hjk] at hpid
      exact absurd (hc.only j hj hpid) hjk
  · rintro ⟨hpid, hflag⟩
    exact ⟨k, hc.range, by rw [hc.self, hpid], by rw [hc.self, hflag]⟩

theorem find?_range {P : Nat → Bool} {n : Nat} (hfind : (List.range n).find? P = some k) :
    k < n ∧ P k = true :=
  ⟨List.mem_range.mp (List.mem_of_find?_eq_some hfind), List.find?_some hfind⟩

theorem find?_range_none {P : Nat → Bool} {n : Nat} (hfind : (List.range n).find? P = none) :
    ∀ j < n, P j = false :=
  fun j hj => Bool.eq_false_of_not_eq_true (List.find?_eq_none.mp hfind j (List.mem_range.mpr hj))

/-- What `get_pid_meta_ind` finds or makes. -/
theorem getPidMetaInd_spec (wf : SlotsWf s) (hme : me ≠ 0)
    (hind : im.pidMetaIndSet = true → im.pidMetaInd < maxExecHanging)
    (hget : getPidMetaInd me im s = some (im', s')) :
    im'.pid = im.pid ∧ im'.pidMetaIndSet = true ∧ (s' im'.pidMetaInd).pid = me ∧
      SlotEdit s s' im'.pidMetaInd me (s' im'.pidMetaInd) ∧
      (BackedUp s' me ↔ BackedUp s me) := by
  have hfound : ∀ k < maxExecHanging, (s k).pid = me →
      SlotEdit s s k me (s k) := by
    intro k hk hpid
    exact ⟨hk, fun j hj hpj => wf.unique j hj k hk (hpj ▸ hme) (hpj.trans hpid.symm), Or.inl hpid,
      rfl, fun _ _ => rfl, Or.inl hpid, wf.unlocked k⟩
  rw [getPidMetaInd] at hget
  split at hget
  · next hhit =>
    obtain ⟨rfl, rfl⟩ := Prod.mk.inj (Option.some.inj hget)
    obtain ⟨hset, hpid⟩ := Bool.and_eq_true_iff.mp hhit
    have hpid := beq_iff_eq.mp hpid
    exact ⟨rfl, hset, hpid, hfound _ (hind hset) hpid, Iff.rfl⟩
  · split at hget
    · next j hown =>
      obtain ⟨rfl, rfl⟩ := Prod.mk.inj (Option.some.inj hget)
      obtain ⟨hj, hhit⟩ := find?_range hown
      have hpid := beq_iff_eq.mp hhit
      exact ⟨rfl, rfl, hpid, hfound j hj hpid, Iff.rfl⟩
    · next hown =>
      split at hget
      · next k hnew =>
        obtain ⟨rfl, rfl⟩ := Prod.mk.inj (Option.some.inj hget)
        obtain ⟨hk, hhit⟩ := find?_range hnew
        have hfree := (Bool.and_eq_true_iff.mp hhit).1
        have hno : ∀ j < maxExecHanging, (s j).pid ≠ me := by
          intro j hj hpid
          have hmiss := find?_range_none hown j hj
          exact beq_eq_false_iff_ne.mp hmiss hpid
        have hpid : (s.set k (fun pi => { pi with pid := me }) k).pid = me := by rw [set_self]
        have hc : SlotEdit s (s.set k (fun pi => { pi with pid := me })) k me
            (s.set k (fun pi => { pi with pid := me }) k) :=
          ⟨hk, fun j hj hpj => absurd hpj (hno j hj), Or.inr (beq_iff_eq.mp hfree), rfl,
            fun j hj => set_of_ne _ hj, Or.inl hpid, by rw [set_self]; exact wf.unlocked k⟩
        refine ⟨rfl, rfl, hpid, hc, hc.self_backedUp.trans (iff_of_false ?_ ?_)⟩
        · rw [set_self, wf.free k hk (beq_iff_eq.mp hfree)]
          exact fun h => Bool.false_ne_true h.2
        · rintro ⟨j, hj, hpj, _⟩
          exact hno j hj hpj
      · cases hget

/-- Another slot that is claimed by `get_pid_meta_ind` is edited. -/
theorem SlotEdit.edit {pi : PidInfo} {f : PidInfo → PidInfo} (hc : SlotEdit s s' k p pi)
    (hpid : (s' k).pid = p) (hlock : ∀ pi, (f pi).lock = pi.lock)
    (hafter : (f (s' k)).pid = p ∨ (f (s' k)).pid = 0 ∧ (f (s' k)).fdsBackedUp = false) :
    SlotEdit s' (s'.set k f) k p (f (s' k)) := by
  refine ⟨hc.range, fun j hj hpj => ?_, Or.inl hpid, set_self f, fun j hj => set_of_ne f hj, hafter,
    ?_⟩
  · by_cases hjk : j = k
    · exact hjk
    · rw [hc.other j hjk] at hpj
      exact hc.only j hj hpj
  · rw [hlock, hc.self]
    exact hc.unlocked

/-- A step of process `me` leaves the slots of the others as they were. -/
structure SlotsKept (me : Nat) (s s' : PidMeta) : Prop where
  wf : SlotsWf s'
  others : ∀ q, q ≠ 0 → q ≠ me → (BackedUp s' q ↔ BackedUp s q) ∧ (HasSlot s' q ↔ HasSlot s q)

theorem SlotEdit.slotsKept {pi : PidInfo} (hc : SlotEdit s s' k me pi) (wf : SlotsWf s)
    (hme : me ≠ 0) : SlotsKept me s s' :=
  ⟨hc.wf wf hme, fun _ hq hqm => hc.others hq hqm⟩

theorem SlotsKept.trans (h : SlotsKept me s s₁) (h' : SlotsKept me s₁ s') : SlotsKept me s s' :=
  ⟨h'.wf, fun q hq hqm => ⟨(h'.others q hq hqm).1.trans (h.others q hq hqm).1,
    (h'.others q hq hqm).2.trans (h.others q hq hqm).2⟩⟩

theorem removePidSlot_spec (wf : SlotsWf s) (hme : me ≠ 0)
    (hind : im.pidMetaIndSet = true → im.pidMetaInd < maxExecHanging)
    (hremove : removePidSlot me im s = some s') : SlotsKept me s s' ∧ ¬ HasSlot s' me := by
  rw [removePidSlot] at hremove
  split at hremove
  · next im₁ s₁ hget =>
    obtain rfl := Option.some.inj hremove
    obtain ⟨_, _, hpid, hc, _⟩ := getPidMetaInd_spec wf hme hind hget
    have hc' := hc.edit (f := clearSlot) hpid (fun _ => rfl) (Or.inr ⟨rfl, rfl⟩)
    refine ⟨(hc.slotsKept wf hme).trans (hc'.slotsKept (hc.wf wf hme) hme), ?_⟩
    rintro ⟨j, hj, hpj⟩
    by_cases hjk : j = im₁.pidMetaInd
    · subst hjk
      rw [set_self] at hpj
      exact hme hpj.symm
    · rw [set_of_ne _ hjk] at hpj
      exact hjk (hc'.only j hj hpj)
  · cases hremove

/-! What a step can do. -/

/-- What holds between the steps of the processes. -/
structure LifeInv (l : Life) : Prop where
  slots : SlotsWf l.pidMeta
  ind : ∀ p im, l.tasks p = .running im → im.pidMetaIndSet = true → im.pidMetaInd < maxExecHanging
  zero : l.tasks 0 = .none
  execed : ∀ p, l.tasks p = .loaded true → BackedUp l.pidMeta p
  flags : AllNoFlags l.sys
  saved : ∀ p fds, l.backups p = some fds → NoFlags fds

theorem LifeInv.nonzero (hinv : LifeInv l) (htask : l.tasks me ≠ .none) : me ≠ 0 := by
  rintro rfl
  exact htask hinv.zero

/-- Process `me` has ended by `exit`, and the object with the process id `p` is gone. -/
structure Ended (l : Life) (me p : Nat) (t : MetaShm) (d : DataShm) (l' : Life) : Prop where
  sys : l'.sys = ⟨t, d, Function.update l.sys.fds me initFdTable⟩
  slots : SlotsKept me l.pidMeta l'.pidMeta
  gone : ¬ HasSlot l'.pidMeta me
  backups : l'.backups = Function.update l.backups p none
  tasks : l'.tasks = Function.update l.tasks me .none

/-- Process `me` runs with a slot of its own. -/
structure Started (l : Life) (me : Nat) (fds : Nat → FdInfo) (l' : Life) : Prop where
  sys : l'.sys = { l.sys with fds := Function.update l.sys.fds me fds }
  slots : SlotsKept me l.pidMeta l'.pidMeta
  own : HasSlot l'.pidMeta me
  clear : ¬ BackedUp l'.pidMeta me
  backups : l'.backups = l.backups
  tasks : ∃ k < maxExecHanging, l'.tasks = Function.update l.tasks me (.running ⟨me, k, true⟩)

/-- Process `me` has left its table behind for the program that replaces it. -/
structure LeftTable (l : Life) (me : Nat) (w : World) (l' : Life) : Prop where
  sys : l'.sys = ⟨w.table, w.data, Function.update l.sys.fds me initFdTable⟩
  slots : SlotsKept me l.pidMeta l'.pidMeta
  up : BackedUp l'.pidMeta me
  backups : l'.backups = Function.update l.backups me (some (l.sys.fds me))
  tasks : l'.tasks = Function.update l.tasks me (.loaded true)

/-- Why an `exec` ends its process: the object is there already, the path of the program
cannot be built or looked up, or the kernel does not load it. -/
inductive ExecFails (l : Life) (me : Nat) (env : Env) (path : Path) (found : Bool) :
    MetaShm → DataShm → Prop where
  | taken {fds : Nat → FdInfo} (hsaved : l.backups me = some fds) :
      ExecFails l me env path found l.sys.table l.sys.data
  | path {u : UErr} {w : World} (hsaved : l.backups me = none)
      (hfile : execFileInShm env path (l.sys.view me) = .error (.exit u) w) :
      ExecFails l me env path found w.table w.data
  | lost {file : Option (Path × List Byte)} {w : World} (hsaved : l.backups me = none)
      (hfile : execFileInShm env path (l.sys.view me) = .ok file w) (hfound : found = false) :
      ExecFails l me env path found w.table w.data

/-- The steps by their outcome. -/
inductive LifeCase (b : Build) (l : Life) : LifeEvent → LifeOut → Life → Prop where
  | call {e : Event} {im : Image} {r : Ret} {s : Sys} (htask : l.tasks e.pid = .running im)
      (hexec : exec b l.sys e = (.ret r, s)) :
      LifeCase b l (.call e) (.ret r) { l with sys := s }
  | callEnds {e : Event} {im : Image} {u : UErr} {s : Sys} {l' : Life}
      (htask : l.tasks e.pid = .running im) (hexec : exec b l.sys e = (.halt (.exit u), s))
      (hend : Ended { l with sys := s } e.pid im.pid s.table s.data l') :
      LifeCase b l (.call e) .ended l'
  | fork {me child : Nat} {im : Image} (htask : l.tasks me = .running im)
      (hfree : l.tasks child = .none) (hchild : child ≠ 0) :
      LifeCase b l (.fork me child) .done
        ((l.setFds child (l.sys.fds me)).setTask child (.running im))
  | loaded {me : Nat} {im : Image} {env : Env} {path : Path} {file : Option (Path × List Byte)}
      {w : World} {l' : Life} (htask : l.tasks me = .running im) (hsaved : l.backups me = none)
      (hfile : execFileInShm env path (l.sys.view me) = .ok file w) (hhand : LeftTable l me w l') :
      LifeCase b l (.exec me env path true) (.loaded file) l'
  | execEnds {me : Nat} {im : Image} {env : Env} {path : Path} {found : Bool} {t : MetaShm}
      {d : DataShm} {l' : Life} (htask : l.tasks me = .running im)
      (hfails : ExecFails l me env path found t d) (hend : Ended l me me t d l') :
      LifeCase b l (.exec me env path found) .ended l'
  | spawn {me : Nat} (hfree : l.tasks me = .none) (hme : me ≠ 0) :
      LifeCase b l (.spawn me) .done (l.setTask me (.loaded false))
  | fresh {me : Nat} {env : Env} {execed : Bool} {l' : Life} (htask : l.tasks me = .loaded execed)
      (hclear : ¬ BackedUp l.pidMeta me) (hstart : Started l me initFdTable l') :
      LifeCase b l (.start me env) .done l'
  | restored {me : Nat} {env : Env} {execed : Bool} {fds : Nat → FdInfo} {l' : Life}
      (htask : l.tasks me = .loaded execed) (hup : BackedUp l.pidMeta me)
      (hsaved : l.backups me = some fds) (hstart : Started l me fds l') :
      LifeCase b l (.start me env) .done l'
  | startEnds {me : Nat} {env : Env} {execed : Bool} {l' : Life}
      (htask : l.tasks me = .loaded execed) (hup : BackedUp l.pidMeta me)
      (hsaved : l.backups me = none) (hend : Ended l me me l.sys.table l.sys.data l') :
      LifeCase b l (.start me env) .ended l'
  | exit {me : Nat} {im : Image} {l' : Life} (htask : l.tasks me = .running im)
      (hend : Ended l me im.pid l.sys.table l.sys.data l') : LifeCase b l (.exit me) .ended l'
  | kill {me : Nat} (htask : l.tasks me ≠ .none) : LifeCase b l (.kill me) .done (l.drop me .none)

theorem exit_spec (wf : SlotsWf l.pidMeta) (hme : me ≠ 0)
    (hind : im.pidMetaIndSet = true → im.pidMetaInd < maxExecHanging)
    (hend : l.ending me im = some (out, l')) :
    out = .ended ∧ Ended l me im.pid l.sys.table l.sys.data l' := by
  rw [Life.ending, Life.exit] at hend
  split at hend
  · next s' hremove =>
    obtain ⟨rfl, rfl⟩ := Prod.mk.inj (Option.some.inj hend)
    obtain ⟨hslots, hgone⟩ := removePidSlot_spec wf hme hind hremove
    exact ⟨rfl, rfl, hslots, hgone, rfl, rfl⟩
  · cases hend

/-- What came before the end of the process does not count any more. -/
theorem Ended.before {t : MetaShm} {d : DataShm} (hend : Ended l₁ me p t d l')
    (hslots : SlotsKept me l.pidMeta l₁.pidMeta)
    (hfds : Function.update l₁.sys.fds me initFdTable = Function.update l.sys.fds me initFdTable)
    (hbackups : Function.update l₁.backups p none = Function.update l.backups p none)
    (htasks : l₁.tasks = l.tasks) : Ended l me p t d l' :=
  ⟨by rw [hend.sys, hfds], hslots.trans hend.slots, hend.gone, hend.backups.trans hbackups,
    by rw [hend.tasks, htasks]⟩

theorem LifeInv.exec_case (hinv : LifeInv l) (htask : l.tasks me = .running im)
    (hexec : l.exec me im env path found = some (out, l')) :
    LifeCase b l (.exec me env path found) out l' := by
  have hme : me ≠ 0 := hinv.nonzero (by rw [htask]; simp)
  rw [Life.exec] at hexec
  split at hexec
  · cases hexec
  next im₁ s₁ hget =>
  have hind₀ : ({ im with pid := me } : Image).pidMetaIndSet = true →
      ({ im with pid := me } : Image).pidMetaInd < maxExecHanging := hinv.ind me im htask
  obtain ⟨hpid, hset, hown, hc, _⟩ := getPidMetaInd_spec hinv.slots hme hind₀ hget
  have hslots := hc.slotsKept hinv.slots hme
  have hind : im₁.pidMetaIndSet = true → im₁.pidMetaInd < maxExecHanging := fun _ => hc.range
  have hpid : im₁.pid = me := hpid
  dsimp only at hexec
  cases hsaved : l.backups me with
  | some fds =>
      rw [hsaved, Option.isSome_some, if_pos rfl] at hexec
      obtain ⟨rfl, hend⟩ := exit_spec (l := { l with pidMeta := s₁ }) hslots.wf hme hind hexec
      rw [hpid] at hend
      exact .execEnds htask (.taken hsaved) (hend.before hslots rfl rfl rfl)
  | none =>
      rw [hsaved, Option.isSome_none, if_neg Bool.false_ne_true] at hexec
      have hc' := hc.edit (f := fun pi => { pi with fdsBackedUp := true }) hown (fun _ => rfl)
        (Or.inl hown)
      have hslots' := hslots.trans (hc'.slotsKept hslots.wf hme)
      have hview : ∀ w : World, Function.update (l.sys.put me w).fds me initFdTable =
          Function.update l.sys.fds me initFdTable := fun w => Function.update_idem ..
      have hforget : Function.update (Function.update l.backups me (some (l.sys.fds me))) me none =
          Function.update l.backups me none := Function.update_idem ..
      -- the end of the process after the work on the file
      have hstop : ∀ w : World, Life.ending
          { l with
            pidMeta := s₁.set im₁.pidMetaInd (fun pi => { pi with fdsBackedUp := true })
            backups := Function.update l.backups me (some (l.sys.fds me))
            sys := l.sys.put me w } me im₁ = some (out, l') →
          out = .ended ∧ Ended l me me w.table w.data l' := by
        intro w hending
        obtain ⟨rfl, hend⟩ := exit_spec hslots'.wf hme hind hending
        rw [hpid] at hend
        exact ⟨rfl, hend.before hslots' (hview w) hforget rfl⟩
      split at hexec
      · next file w hfile =>
        cases found with
        | true =>
            rw [if_pos rfl] at hexec
            obtain ⟨rfl, rfl⟩ := Prod.mk.inj (Option.some.inj hexec)
            refine .loaded htask hsaved hfile ⟨?_, hslots', ?_, rfl, rfl⟩
            · exact congrArg (Sys.mk w.table w.data) (hview w)
            · exact hc'.self_backedUp.mpr ⟨hown, rfl⟩
        | false =>
            rw [if_neg Bool.false_ne_true] at hexec
            obtain ⟨rfl, hend⟩ := hstop w hexec
            exact .execEnds htask (.lost hsaved hfile rfl) hend
      · next u w hfile =>
        obtain ⟨rfl, hend⟩ := hstop w hexec
        exact .execEnds htask (.path hsaved hfile) hend
      · cases hexec

/-- A saved table that is put back is free of close-on-exec flags. -/
theorem LifeInv.table_noFlags (hinv : LifeInv l) (hsaved : l.backups me = some fds) (l₁ : Life) :
    NoFlags ((l₁.setFds me fds).sys.view me).fdTable := by
  have htable : (l₁.setFds me fds).sys.fds me = fds := Function.update_self ..
  have hno := hinv.saved me fds hsaved
  rw [← htable] at hno
  exact hno

theorem LifeInv.start_case {execed : Bool} (hinv : LifeInv l) (htask : l.tasks me = .loaded execed)
    (hstart : l.start me env = some (out, l')) : LifeCase b l (.start me env) out l' := by
  have hme : me ≠ 0 := hinv.nonzero (by rw [htask]; simp)
  rw [Life.start] at hstart
  generalize hfirst : (⟨me, 0, false⟩ : Image) = im₀ at hstart
  split at hstart
  · cases hstart
  next im₁ s₁ hget =>
  obtain ⟨hpid, hset, hown, hc, hkept⟩ := getPidMetaInd_spec hinv.slots hme
    (fun hset => by subst hfirst; cases hset) hget
  have hpid : im₁.pid = me := by rw [hpid, ← hfirst]
  have hslots := hc.slotsKept hinv.slots hme
  have hself : im₁ = ⟨me, im₁.pidMetaInd, true⟩ := by
    obtain ⟨_, _, _⟩ := im₁
    obtain rfl : _ = me := hpid
    obtain rfl : _ = true := hset
    rfl
  have hup : BackedUp l.pidMeta me ↔ (s₁ im₁.pidMetaInd).fdsBackedUp = true :=
    hkept.symm.trans (hslots.wf.backedUp_iff hc.range hme hown)
  have hslot : HasSlot s₁ me := ⟨im₁.pidMetaInd, hc.range, hown⟩
  dsimp only at hstart
  split at hstart
  · next hflag =>
    have hsaved' : (Life.setFds { l with pidMeta := s₁ } me initFdTable).backups me =
        l.backups me := rfl
    rw [hsaved'] at hstart
    cases hsaved : l.backups me with
    | none =>
        rw [hsaved] at hstart
        obtain ⟨rfl, hend⟩ := exit_spec hslots.wf hme (fun _ => hc.range) hstart
        rw [hpid] at hend
        have hidem : Function.update (Function.update l.sys.fds me initFdTable) me initFdTable =
            Function.update l.sys.fds me initFdTable := Function.update_idem ..
        exact .startEnds htask (hup.mpr hflag) hsaved (hend.before hslots hidem rfl rfl)
    | some fds =>
        rw [hsaved] at hstart
        dsimp only at hstart
        have htable : ((Life.setFds { l with pidMeta := s₁ } me initFdTable).setFds me
            fds).sys.fds me = fds := Function.update_self ..
        rw [closeCloexec_eq (hinv.table_noFlags hsaved _)] at hstart
        obtain ⟨rfl, rfl⟩ := Prod.mk.inj (Option.some.inj hstart)
        have hc' := hc.edit (f := fun pi => { pi with fdsBackedUp := false }) hown (fun _ => rfl)
          (Or.inl hown)
        have hslot' : HasSlot (s₁.set im₁.pidMetaInd (fun pi => { pi with fdsBackedUp := false })) me :=
          ⟨im₁.pidMetaInd, hc.range, by rw [set_self]; exact hown⟩
        have hdown : ¬ BackedUp (s₁.set im₁.pidMetaInd (fun pi => { pi with fdsBackedUp := false }))
            me := fun h => Bool.false_ne_true (hc'.self_backedUp.mp h).2
        have hfds : Function.update (Function.update l.sys.fds me initFdTable) me
            (((Life.setFds { l with pidMeta := s₁ } me initFdTable).setFds me fds).sys.fds me) =
            Function.update l.sys.fds me fds := by
          rw [htable, Function.update_idem]
        exact .restored htask (hup.mpr hflag) hsaved
          ⟨congrArg (Sys.mk l.sys.table l.sys.data) hfds, hslots.trans (hc'.slotsKept hslots.wf hme),
            hslot', hdown, rfl, ⟨im₁.pidMetaInd, hc.range,
              congrArg (fun im => Function.update l.tasks me (.running im)) hself⟩⟩
  · next hflag =>
    obtain ⟨rfl, rfl⟩ := Prod.mk.inj (Option.some.inj hstart)
    refine .fresh htask (fun h => hflag (hup.mp h)) ⟨rfl, hslots, hslot, ?_, rfl,
      ⟨im₁.pidMetaInd, hc.range, congrArg (fun im => Function.update l.tasks me (.running im))
        hself⟩⟩
    exact fun h => hflag (hup.mp (hkept.mp h))

/-- Every step is one of the cases. -/
theorem LifeInv.cases (hinv : LifeInv l) (hstep : lifeStep b l ev = some (out, l')) :
    LifeCase b l ev out l' := by
  cases ev with
  | call e =>
      rw [lifeStep] at hstep
      split at hstep
      · next im htask =>
        rw [Life.call] at hstep
        split at hstep
        · next r s hexec =>
          obtain ⟨rfl, rfl⟩ := Prod.mk.inj (Option.some.inj hstep)
          exact .call htask hexec
        · next u s hexec =>
          obtain ⟨rfl, hend⟩ := exit_spec (l := { l with sys := s }) hinv.slots
            (hinv.nonzero (by rw [htask]; simp)) (hinv.ind e.pid im htask) hstep
          exact .callEnds htask hexec hend
        · cases hstep
      · cases hstep
  | fork me child =>
      rw [lifeStep] at hstep
      split at hstep
      · next im htask hfree =>
        split at hstep
        · cases hstep
        · next hchild =>
          obtain ⟨rfl, rfl⟩ := Prod.mk.inj (Option.some.inj hstep)
          exact .fork htask hfree hchild
      · cases hstep
  | exec me env path found =>
      rw [lifeStep] at hstep
      split at hstep
      · next im htask => exact hinv.exec_case htask hstep
      · cases hstep
  | spawn me =>
      rw [lifeStep] at hstep
      split at hstep
      · next hfree =>
        split at hstep
        · cases hstep
        · next hme =>
          obtain ⟨rfl, rfl⟩ := Prod.mk.inj (Option.some.inj hstep)
          exact .spawn hfree hme
      · cases hstep
  | start me env =>
      rw [lifeStep] at hstep
      split at hstep
      · next execed htask => exact hinv.start_case htask hstep
      · cases hstep
  | exit me =>
      rw [lifeStep] at hstep
      split at hstep
      · next im htask =>
        obtain ⟨rfl, hend⟩ := exit_spec hinv.slots (hinv.nonzero (by rw [htask]; simp))
          (hinv.ind me im htask) hstep
        exact .exit htask hend
      · cases hstep
  | kill me =>
      rw [lifeStep] at hstep
      split at hstep
      · cases hstep
      · next htask =>
        obtain ⟨rfl, rfl⟩ := Prod.mk.inj (Option.some.inj hstep)
        exact .kill htask

/-! The invariant. -/

theorem LifeInv.next {task : Task} (hinv : LifeInv l) (hme : me ≠ 0)
    (hslots : SlotsKept me l.pidMeta l'.pidMeta)
    (htasks : l'.tasks = Function.update l.tasks me task)
    (hind : ∀ im, task = .running im → im.pidMetaIndSet = true → im.pidMetaInd < maxExecHanging)
    (hexeced : task = .loaded true → BackedUp l'.pidMeta me) (hflags : AllNoFlags l'.sys)
    (hsaved : ∀ p fds, l'.backups p = some fds → NoFlags fds) : LifeInv l' := by
  refine ⟨hslots.wf, fun p im hp => ?_, ?_, fun p hp => ?_, hflags, hsaved⟩
  · rw [htasks] at hp
    by_cases hpm : p = me
    · subst hpm
      rw [Function.update_self] at hp
      exact hind im hp
    · rw [Function.update_of_ne hpm] at hp
      exact hinv.ind p im hp
  · rw [htasks, Function.update_of_ne hme.symm]
    exact hinv.zero
  · rw [htasks] at hp
    by_cases hpm : p = me
    · subst hpm
      rw [Function.update_self] at hp
      exact hexeced hp
    · rw [Function.update_of_ne hpm] at hp
      have hzero : p ≠ 0 := hinv.nonzero (by rw [hp]; simp)
      exact (hslots.others p hzero hpm).1.mpr (hinv.execed p hp)

theorem SlotsKept.refl (wf : SlotsWf s) : SlotsKept me s s := ⟨wf, fun _ _ _ => ⟨Iff.rfl, Iff.rfl⟩⟩

/-- The flags where at most one table has changed. -/
theorem LifeInv.tables (hinv : LifeInv l) (hfds : NoFlags fds) (t : MetaShm) (d : DataShm) (me : Nat) :
    AllNoFlags ⟨t, d, Function.update l.sys.fds me fds⟩ :=
  AllNoFlags.setFds (s := ⟨t, d, l.sys.fds⟩) hinv.flags hfds me

theorem Ended.lifeInv {t : MetaShm} {d : DataShm} (hend : Ended l me p t d l') (hinv : LifeInv l)
    (hme : me ≠ 0) : LifeInv l' := by
  refine hinv.next hme hend.slots hend.tasks (fun _ h => nomatch h) (fun h => nomatch h) ?_ ?_
  · rw [hend.sys]
    exact hinv.tables initFdTable_noFlags t d me
  · intro q fds hq
    rw [hend.backups, Function.update_apply] at hq
    split at hq
    · cases hq
    · exact hinv.saved q fds hq

theorem Started.lifeInv (hstart : Started l me fds l') (hinv : LifeInv l) (hme : me ≠ 0)
    (hfds : NoFlags fds) : LifeInv l' := by
  obtain ⟨k, hk, htasks⟩ := hstart.tasks
  refine hinv.next hme hstart.slots htasks ?_ (fun h => nomatch h) ?_ ?_
  · intro im him _
    obtain rfl := Task.running.inj him
    exact hk
  · rw [hstart.sys]
    exact hinv.tables hfds _ _ me
  · rw [hstart.backups]
    exact hinv.saved

theorem LifeCase.lifeInv (hcase : LifeCase b l ev out l') (hinv : LifeInv l) : LifeInv l' := by
  have hrunning : ∀ {me im}, l.tasks me = .running im → me ≠ 0 :=
    fun htask => hinv.nonzero (by rw [htask]; simp)
  have hloaded : ∀ {me execed}, l.tasks me = .loaded execed → me ≠ 0 :=
    fun htask => hinv.nonzero (by rw [htask]; simp)
  cases hcase with
  | call htask hexec =>
      exact ⟨hinv.slots, hinv.ind, hinv.zero, hinv.execed, hinv.flags.exec hexec, hinv.saved⟩
  | callEnds htask hexec hend =>
      exact hend.lifeInv ⟨hinv.slots, hinv.ind, hinv.zero, hinv.execed, hinv.flags.exec hexec,
        hinv.saved⟩ (hrunning htask)
  | fork htask hfree hchild =>
      refine hinv.next hchild (.refl hinv.slots) rfl ?_ (fun h => nomatch h) ?_ hinv.saved
      · intro im him
        obtain rfl := Task.running.inj him
        exact hinv.ind _ _ htask
      · exact hinv.tables (hinv.flags _) _ _ _
  | loaded htask hsaved hfile hhand =>
      refine hinv.next (hrunning htask) hhand.slots hhand.tasks (fun _ h => nomatch h)
        (fun _ => hhand.up) ?_ ?_
      · rw [hhand.sys]
        exact hinv.tables initFdTable_noFlags _ _ _
      · intro q fds hq
        rw [hhand.backups, Function.update_apply] at hq
        split at hq
        · exact Option.some.inj hq ▸ hinv.flags _
        · exact hinv.saved q fds hq
  | execEnds htask hfails hend => exact hend.lifeInv hinv (hrunning htask)
  | spawn hfree hme =>
      refine hinv.next hme (.refl hinv.slots) rfl (fun _ h => nomatch h) ?_ hinv.flags hinv.saved
      exact fun h => nomatch Task.loaded.inj h
  | fresh htask hclear hstart => exact hstart.lifeInv hinv (hloaded htask) initFdTable_noFlags
  | restored htask hup hsaved hstart =>
      exact hstart.lifeInv hinv (hloaded htask) (hinv.saved _ _ hsaved)
  | startEnds htask hup hsaved hend => exact hend.lifeInv hinv (hloaded htask)
  | exit htask hend => exact hend.lifeInv hinv (hrunning htask)
  | kill htask =>
      exact hinv.next (hinv.nonzero htask) (.refl hinv.slots) rfl (fun _ h => nomatch h)
        (fun h => nomatch h) (hinv.tables initFdTable_noFlags _ _ _) hinv.saved

end Spacefish
