import Mathlib.Data.Finset.Card
import Mathlib.Tactic.Tauto
import Spacefish.ProcessHandover

/-!
Runs of the processes. A program that an `exec` has loaded starts with the descriptor table
of the old one unless a process that remembers its process id has ended in between; a second
`exec` of the process ends it unless such a process has ended; and the slots are enough for
as many processes as there are slots.
-/

namespace Spacefish

open Program

variable {b : Build} {env env' : Env} {s : Sys} {l l₀ l₁ l₂ l' : Life} {im : Image}
  {me p q : Nat} {out : LifeOut} {ev : LifeEvent} {path : Path} {found : Bool}
  {pre es : List LifeEvent} {preOuts outs : List LifeOut} {file : Option (Path × List Byte)}

theorem boot_lifeInv (hs : ∀ pid, s.fds pid = initFdTable) : LifeInv (Life.boot s) :=
  ⟨⟨fun _ _ _ _ hne => absurd rfl hne, fun _ _ _ => rfl, fun _ => rfl⟩, (fun _ _ h => nomatch h),
    rfl, (fun _ h => nomatch h), fun pid => hs pid ▸ initFdTable_noFlags, fun _ _ h => nomatch h⟩

theorem LifeInv.run (hinv : LifeInv l) (hrun : LifeRun b l es outs l') : LifeInv l' := by
  induction es generalizing l outs with
  | nil =>
      cases outs with
      | nil =>
          obtain rfl : l' = l := hrun
          exact hinv
      | cons _ _ => exact hrun.elim
  | cons ev es ih =>
      cases outs with
      | nil => exact hrun.elim
      | cons out outs =>
          obtain ⟨l₁, hstep, hrest⟩ := hrun
          exact ih ((hinv.cases hstep).lifeInv hinv) hrest

/-! The objects that are left behind. -/

/-- The process that takes the step. -/
def LifeEvent.actor : LifeEvent → Nat
  | .call e => e.pid
  | .fork me _ => me
  | .exec me _ _ _ => me
  | .spawn me => me
  | .start me _ => me
  | .exit me => me
  | .kill me => me

/-- The process id in the name that `ufs_fin` unlinks when the step ends its process:
`exec_fd_backup` and `ufs_init` have called `getpid`, a forked child still has the process
id of the parent. -/
def Life.unlinks (l : Life) (ev : LifeEvent) : Option Nat :=
  match ev with
  | .exec me _ _ _ => some me
  | .start me _ => some me
  | ev =>
      match l.tasks ev.actor with
      | .running im => some im.pid
      | _ => none

/-- The step ends its process and takes the object of `p` with it. -/
def Unlinks (l : Life) (ev : LifeEvent) (out : LifeOut) (p : Nat) : Prop :=
  out = .ended ∧ l.unlinks ev = some p

/-- The new program of process `p` has been loaded. -/
def Loads (ev : LifeEvent) (out : LifeOut) (p : Nat) : Prop :=
  ev.actor = p ∧ ∃ file, out = .loaded file

theorem unlinked_iff (hback : l'.backups = Function.update l.backups q none)
    (hname : l.unlinks ev = some q) :
    (l'.backups p ≠ none ↔ Loads ev .ended p ∨ l.backups p ≠ none ∧ ¬ Unlinks l ev .ended p) := by
  rw [hback, Function.update_apply]
  have hloads : ¬ Loads ev .ended p := fun h => nomatch h.2.choose_spec
  split
  · next heq =>
    subst heq
    exact iff_of_false (fun h => h rfl) (fun h => h.elim hloads (fun h => h.2 ⟨rfl, hname⟩))
  · next hne =>
    constructor
    · exact fun h => Or.inr ⟨h, fun hun => hne (Option.some.inj (hun.2.symm.trans hname))⟩
    · exact fun h => (h.resolve_left hloads).1

/-- An object is there after a step that makes it, or when it was there before and is not
unlinked. -/
theorem LifeCase.backups_iff (hcase : LifeCase b l ev out l') :
    (l'.backups p ≠ none ↔ Loads ev out p ∨ l.backups p ≠ none ∧ ¬ Unlinks l ev out p) := by
  have hplain : ∀ {ev : LifeEvent} {out : LifeOut} {l' : Life}, l'.backups = l.backups →
      out ≠ .ended → (∀ file, out ≠ .loaded file) →
      (l'.backups p ≠ none ↔ Loads ev out p ∨ l.backups p ≠ none ∧ ¬ Unlinks l ev out p) := by
    intro ev out l' heq hne hno
    rw [heq]
    constructor
    · exact fun h => Or.inr ⟨h, fun hun => hne hun.1⟩
    · rintro (⟨_, file, hfile⟩ | ⟨h, _⟩)
      · exact absurd hfile (hno file)
      · exact h
  cases hcase with
  | call htask hexec => exact hplain rfl (fun h => nomatch h) (fun _ h => nomatch h)
  | callEnds htask hexec hend =>
      exact unlinked_iff hend.backups (by simp [Life.unlinks, LifeEvent.actor, htask])
  | fork htask hfree hchild => exact hplain rfl (fun h => nomatch h) (fun _ h => nomatch h)
  | @loaded me im env path file w l' htask hsaved hfile hhand =>
      rw [hhand.backups, Function.update_apply]
      split
      · next heq => exact iff_of_true (fun h => nomatch h) (Or.inl ⟨heq.symm, file, rfl⟩)
      · next hne =>
        constructor
        · exact fun h => Or.inr ⟨h, fun hun => nomatch hun.1⟩
        · rintro (⟨heq, _⟩ | ⟨h, _⟩)
          · exact absurd heq.symm hne
          · exact h
  | execEnds htask hfails hend => exact unlinked_iff hend.backups rfl
  | spawn hfree hme => exact hplain rfl (fun h => nomatch h) (fun _ h => nomatch h)
  | fresh htask hclear hstart =>
      exact hplain hstart.backups (fun h => nomatch h) (fun _ h => nomatch h)
  | restored htask hup hsaved hstart =>
      exact hplain hstart.backups (fun h => nomatch h) (fun _ h => nomatch h)
  | startEnds htask hup hsaved hend => exact unlinked_iff hend.backups rfl
  | exit htask hend =>
      exact unlinked_iff hend.backups (by simp [Life.unlinks, LifeEvent.actor, htask])
  | kill htask => exact hplain rfl (fun h => nomatch h) (fun _ h => nomatch h)

/-- No step takes the object of `p` away. -/
def Untaken (b : Build) (p : Nat) : Life → List LifeEvent → Prop
  | _, [] => True
  | l, ev :: es => ∀ out l₁, lifeStep b l ev = some (out, l₁) →
      ¬ Unlinks l ev out p ∧ Untaken b p l₁ es

/-- A new program of process `p` has been loaded, and its object was not taken away since. -/
def LeftBehind (b : Build) (p : Nat) (l : Life) (es : List LifeEvent) : Prop :=
  ∃ pre ev post outs out l₁ l₂, es = pre ++ ev :: post ∧ LifeRun b l pre outs l₁ ∧
    lifeStep b l₁ ev = some (out, l₂) ∧ Loads ev out p ∧ Untaken b p l₂ post

theorem untaken_cons (hstep : lifeStep b l ev = some (out, l₁)) :
    Untaken b p l (ev :: es) ↔ ¬ Unlinks l ev out p ∧ Untaken b p l₁ es := by
  constructor
  · exact fun h => h out l₁ hstep
  · intro h out' l₁' hstep'
    obtain ⟨rfl, rfl⟩ := Prod.mk.inj (Option.some.inj (hstep'.symm.trans hstep))
    exact h

theorem leftBehind_cons (hstep : lifeStep b l ev = some (out, l₁)) :
    LeftBehind b p l (ev :: es) ↔
      Loads ev out p ∧ Untaken b p l₁ es ∨ LeftBehind b p l₁ es := by
  constructor
  · rintro ⟨pre, ev', post, outs, out', l₂, l₃, heq, hpre, hstep', hloads, hpost⟩
    cases pre with
    | nil =>
        obtain ⟨rfl, rfl⟩ := List.cons.inj heq
        cases outs with
        | cons _ _ => exact hpre.elim
        | nil =>
            obtain rfl : l₂ = l := hpre
            obtain ⟨rfl, rfl⟩ := Prod.mk.inj (Option.some.inj (hstep'.symm.trans hstep))
            exact Or.inl ⟨hloads, hpost⟩
    | cons ev₁ pre =>
        obtain ⟨rfl, rfl⟩ := List.cons.inj heq
        cases outs with
        | nil => exact hpre.elim
        | cons out₁ outs =>
            obtain ⟨l₁', hfirst, hpre⟩ := hpre
            obtain ⟨rfl, rfl⟩ := Prod.mk.inj (Option.some.inj (hfirst.symm.trans hstep))
            exact Or.inr ⟨pre, ev', post, outs, out', l₂, l₃, rfl, hpre, hstep', hloads, hpost⟩
  · rintro (⟨hloads, hpost⟩ | ⟨pre, ev', post, outs, out', l₂, l₃, rfl, hpre, hstep', hloads, hpost⟩)
    · exact ⟨[], ev, es, [], out, l, l₁, rfl, rfl, hstep, hloads, hpost⟩
    · exact ⟨ev :: pre, ev', post, out :: outs, out', l₂, l₃, rfl, ⟨l₁, hstep, hpre⟩, hstep', hloads,
        hpost⟩

/-- Which objects are there after a run. -/
theorem LifeInv.backups_iff (hinv : LifeInv l) (hrun : LifeRun b l es outs l') :
    l'.backups p ≠ none ↔
      l.backups p ≠ none ∧ Untaken b p l es ∨ LeftBehind b p l es := by
  induction es generalizing l outs with
  | nil =>
      cases outs with
      | cons _ _ => exact hrun.elim
      | nil =>
          obtain rfl : l' = l := hrun
          have hno : ¬ LeftBehind b p l' [] := by
            rintro ⟨pre, ev, post, _, _, _, _, heq, _⟩
            cases pre <;> cases heq
          exact ⟨fun h => Or.inl ⟨h, trivial⟩, fun h => (h.resolve_right hno).1⟩
  | cons ev es ih =>
      cases outs with
      | nil => exact hrun.elim
      | cons out outs =>
          obtain ⟨l₁, hstep, hrest⟩ := hrun
          have hcase := hinv.cases hstep
          rw [ih (hcase.lifeInv hinv) hrest, hcase.backups_iff, untaken_cons hstep,
            leftBehind_cons hstep]
          tauto

theorem boot_backups_iff (hs : ∀ pid, s.fds pid = initFdTable)
    (hrun : LifeRun b (Life.boot s) es outs l) :
    l.backups p ≠ none ↔ LeftBehind b p (Life.boot s) es := by
  rw [(boot_lifeInv hs).backups_iff hrun]
  exact ⟨fun h => h.resolve_left (fun h => h.1 rfl), Or.inr⟩

/-- Where the kernel would load the program, an `exec` ends its process exactly when an
earlier program of the process was loaded by an `exec` whose object no process has taken away
since, or when `exec_file_in_shm` ends it: the path of the program cannot be built or looked up,
or `write_to_disk` does not get through its buckets. -/
theorem exec_ends_iff (hs : ∀ pid, s.fds pid = initFdTable)
    (hrun : LifeRun b (Life.boot s) es outs l)
    (hstep : lifeStep b l (.exec me env path true) = some (out, l')) :
    out = .ended ↔ LeftBehind b me (Life.boot s) es ∨
      ∃ u w, execFileInShm env path (l.sys.view me) = .error (.exit u) w := by
  rw [← boot_backups_iff hs hrun]
  cases ((boot_lifeInv hs).run hrun).cases hstep with
  | loaded htask hsaved hfile hhand =>
      refine iff_of_false (by simp) ?_
      rintro (h | ⟨u, w, herr⟩)
      · exact h hsaved
      · rw [herr] at hfile
        cases hfile
  | execEnds htask hfails hend =>
      refine iff_of_true rfl ?_
      cases hfails with
      | taken hsaved => exact Or.inl (by rw [hsaved]; simp)
      | path hsaved hfile => exact Or.inr ⟨_, _, hfile⟩
      | lost hsaved hfile hfound => cases hfound

/-- The child 1 of process 2 has replaced itself by `/b` and was killed, and another child has
its process id. -/
def killedBehindExec : List LifeEvent :=
  [.spawn 2, .start 2 emptyDisk, .fork 2 1, .exec 1 emptyDisk [47, 98] true, .kill 1, .fork 2 1]

theorem exec_ends_killedBehindExec : ∃ outs l l',
    LifeRun defaultBuild (Life.boot initSys) killedBehindExec outs l ∧
      lifeStep defaultBuild l (.exec 1 emptyDisk [47, 98] true) = some (.ended, l') ∧
      (LeftBehind defaultBuild 1 (Life.boot initSys) killedBehindExec ∨
        ∃ u w, execFileInShm emptyDisk [47, 98] (l.sys.view 1) = .error (.exit u) w) := by
  obtain ⟨outs, l, out, l', hrun, hstep, htest⟩ := evaluated killedBehindExec
    (.exec 1 emptyDisk [47, 98] true) (fun _ out _ => out.isEnded) (by decide +kernel)
  obtain rfl := LifeOut.isEnded_spec htest
  exact ⟨outs, l, l', hrun, hstep, (exec_ends_iff (fun _ => rfl) hrun hstep).mp rfl⟩

/-! The table of the old program. -/

theorem HasSlot.get {s : PidMeta} (hslot : HasSlot s me) (im : Image) :
    ∃ x, getPidMetaInd me im s = some x := by
  obtain ⟨k, hk, hpid⟩ := hslot
  rw [getPidMetaInd]
  split
  · exact ⟨_, rfl⟩
  · split
    · exact ⟨_, rfl⟩
    · next hnone =>
      exact absurd hpid (beq_eq_false_iff_ne.mp (find?_range_none hnone k hk))

theorem HasSlot.remove {s : PidMeta} (hslot : HasSlot s me) (im : Image) :
    ∃ s', removePidSlot me im s = some s' := by
  obtain ⟨x, hget⟩ := hslot.get im
  exact ⟨_, by rw [removePidSlot, hget]⟩

/-- A loaded program that gets a slot can start, or ends. -/
theorem LifeInv.start_returns {execed : Bool} (hinv : LifeInv l) (htask : l.tasks me = .loaded execed)
    (hslots : ∀ im, ∃ x, getPidMetaInd me im l.pidMeta = some x) (env : Env) :
    ∃ out l', lifeStep b l (.start me env) = some (out, l') := by
  have hme : me ≠ 0 := hinv.nonzero (by rw [htask]; simp)
  obtain ⟨⟨im₁, s₁⟩, hget⟩ := hslots ⟨me, 0, false⟩
  obtain ⟨_, _, hown, hc, _⟩ := getPidMetaInd_spec hinv.slots hme
    (fun hset => absurd hset Bool.false_ne_true) hget
  have hslot₁ : HasSlot s₁ me := ⟨im₁.pidMetaInd, hc.range, hown⟩
  obtain ⟨s', hremove⟩ := hslot₁.remove im₁
  rw [lifeStep, htask]
  dsimp only
  rw [Life.start, hget]
  dsimp only
  split
  · cases hsaved : l.backups me with
    | none =>
        rw [show (Life.setFds { l with pidMeta := s₁ } me initFdTable).backups me = none from hsaved]
        dsimp only
        rw [Life.ending, Life.exit, show (Life.setFds { l with pidMeta := s₁ } me
          initFdTable).pidMeta = s₁ from rfl, hremove]
        exact ⟨_, _, rfl⟩
    | some fds =>
        rw [show (Life.setFds { l with pidMeta := s₁ } me initFdTable).backups me = some fds from
          hsaved]
        dsimp only
        rw [closeCloexec_eq (hinv.table_noFlags hsaved _)]
        exact ⟨_, _, rfl⟩
  · exact ⟨_, _, rfl⟩

/-- The steps of the other processes leave a loaded program alone, and its object the same
if it is there. -/
theorem LifeCase.loaded_kept {execed : Bool} (hcase : LifeCase b l ev out l')
    (htask : l.tasks me = .loaded execed) (hother : ev.actor ≠ me) :
    l'.tasks me = .loaded execed ∧ (l'.backups me ≠ none → l'.backups me = l.backups me) := by
  have hupdate : ∀ {q task}, q ≠ me → Function.update l.tasks q task me = .loaded execed :=
    fun hq => (Function.update_of_ne hq.symm _ _).trans htask
  have hended : ∀ {q : Nat} {l₁ l₂ : Life}, l₂.tasks = Function.update l.tasks ev.actor .none →
      l₁.backups = l.backups → l₂.backups = Function.update l₁.backups q none →
      l₂.tasks me = .loaded execed ∧ (l₂.backups me ≠ none → l₂.backups me = l.backups me) := by
    intro q l₁ l₂ htasks hsame hback
    refine ⟨by rw [htasks]; exact hupdate hother, fun hne => ?_⟩
    rw [hback, hsame, Function.update_apply] at hne ⊢
    split at hne
    · exact absurd rfl hne
    · next hq => rw [if_neg hq]
  cases hcase with
  | call htask' hexec => exact ⟨htask, fun _ => rfl⟩
  | callEnds htask' hexec hend => exact hended hend.tasks rfl hend.backups
  | fork htask' hfree hchild =>
      refine ⟨hupdate ?_, fun _ => rfl⟩
      rintro rfl
      rw [htask] at hfree
      cases hfree
  | loaded htask' hsaved hfile hhand =>
      refine ⟨by rw [hhand.tasks]; exact hupdate hother, fun _ => ?_⟩
      rw [hhand.backups]
      exact Function.update_of_ne hother.symm _ _
  | execEnds htask' hfails hend => exact hended hend.tasks rfl hend.backups
  | spawn hfree hme => exact ⟨hupdate hother, fun _ => rfl⟩
  | fresh htask' hclear hstart =>
      obtain ⟨k, _, htasks⟩ := hstart.tasks
      exact ⟨by rw [htasks]; exact hupdate hother, fun _ => by rw [hstart.backups]⟩
  | restored htask' hup hsaved hstart =>
      obtain ⟨k, _, htasks⟩ := hstart.tasks
      exact ⟨by rw [htasks]; exact hupdate hother, fun _ => by rw [hstart.backups]⟩
  | startEnds htask' hup hsaved hend => exact hended hend.tasks rfl hend.backups
  | exit htask' hend => exact hended hend.tasks rfl hend.backups
  | kill htask' => exact ⟨hupdate hother, fun _ => rfl⟩

theorem LifeInv.loaded_run {execed : Bool} (hinv : LifeInv l) (hrun : LifeRun b l es outs l')
    (htask : l.tasks me = .loaded execed) (hother : ∀ ev ∈ es, ev.actor ≠ me) :
    l'.tasks me = .loaded execed ∧ (l'.backups me ≠ none → l'.backups me = l.backups me) := by
  induction es generalizing l outs with
  | nil =>
      cases outs with
      | cons _ _ => exact hrun.elim
      | nil =>
          obtain rfl : l' = l := hrun
          exact ⟨htask, fun _ => rfl⟩
  | cons ev es ih =>
      cases outs with
      | nil => exact hrun.elim
      | cons out outs =>
          obtain ⟨l₁, hstep, hrest⟩ := hrun
          have hcase := hinv.cases hstep
          obtain ⟨htask₁, hback₁⟩ := hcase.loaded_kept htask (hother ev (by simp))
          have hinv₁ := hcase.lifeInv hinv
          obtain ⟨htask', hback'⟩ := ih hinv₁ hrest htask₁ (fun ev hev => hother ev (by simp [hev]))
          refine ⟨htask', fun hne => ?_⟩
          have hsame := hback' hne
          rw [hsame] at hne ⊢
          exact hback₁ hne

/-- A program that an `exec` has loaded starts with exactly the descriptor table that the old
program had, close-on-exec or not, when no process that remembers its process id has ended in
between, whatever the other processes did. Otherwise it ends instead. -/
theorem exec_hands_over (hs : ∀ pid, s.fds pid = initFdTable)
    (hboot : LifeRun b (Life.boot s) pre preOuts l)
    (hexec : lifeStep b l (.exec me env path found) = some (.loaded file, l₁))
    (hrun : LifeRun b l₁ es outs l₂) (hother : ∀ ev ∈ es, ev.actor ≠ me) (env' : Env) :
    ∃ out l', lifeStep b l₂ (.start me env') = some (out, l') ∧
      (Untaken b me l₁ es → out = .done ∧
        l'.sys = { l₂.sys with fds := Function.update l₂.sys.fds me (l.sys.fds me) }) ∧
      (¬ Untaken b me l₁ es → out = .ended ∧ l'.tasks me = .none) := by
  have hinv := (boot_lifeInv hs).run hboot
  have hcase := hinv.cases hexec
  have hinv₁ := hcase.lifeInv hinv
  have hinv₂ := hinv₁.run hrun
  cases hcase with
  | loaded htask hsaved hfile hhand =>
      have htask₁ : l₁.tasks me = .loaded true := by
        rw [hhand.tasks, Function.update_self]
      have hback₁ : l₁.backups me = some (l.sys.fds me) := by
        rw [hhand.backups, Function.update_self]
      obtain ⟨htask₂, hback₂⟩ := hinv₁.loaded_run hrun htask₁ hother
      have hup := hinv₂.execed me htask₂
      have hthere : l₂.backups me ≠ none ↔ Untaken b me l₁ es := by
        rw [hinv₁.backups_iff hrun]
        have hno : ¬ LeftBehind b me l₁ es := by
          rintro ⟨_, ev, _, _, _, _, _, rfl, _, _, hloads, _⟩
          exact hother ev (by simp) hloads.1
        exact ⟨fun h => (h.resolve_right hno).2, fun h => Or.inl ⟨by rw [hback₁]; simp, h⟩⟩
      obtain ⟨out, l', hstart⟩ := hinv₂.start_returns (b := b) htask₂ hup.hasSlot.get env'
      refine ⟨out, l', hstart, fun hun => ?_, fun hun => ?_⟩
      · have hsaved₂ := (hback₂ (hthere.mpr hun)).trans hback₁
        cases hinv₂.cases hstart with
        | fresh htask' hclear hstart => exact absurd hup hclear
        | restored htask' hup' hsaved' hstart =>
            obtain rfl := Option.some.inj (hsaved'.symm.trans hsaved₂)
            exact ⟨rfl, hstart.sys⟩
        | startEnds htask' hup' hsaved' hend =>
            rw [hsaved'] at hsaved₂
            cases hsaved₂
      · have hnone : l₂.backups me = none := by
          by_contra hne
          exact hun (hthere.mp hne)
        cases hinv₂.cases hstart with
        | fresh htask' hclear hstart => exact absurd hup hclear
        | restored htask' hup' hsaved' hstart =>
            rw [hnone] at hsaved'
            cases hsaved'
        | startEnds htask' hup' hsaved' hend =>
            exact ⟨rfl, by rw [hend.tasks, Function.update_self]⟩

def oCloexec : Nat := 0o2000000

/-- Process 1 has opened a new file `/a`, to be closed by the next `exec`. -/
def opensCloexec : List LifeEvent :=
  [.spawn 1, .start 1 emptyDisk, .call ⟨1, emptyDisk, .open [47, 97] (oCreat ||| oCloexec) 0⟩]

/-- The file is still open in the new program. -/
theorem exec_hands_over_opensCloexec : ∃ outs l l₁ file l',
    LifeRun defaultBuild (Life.boot initSys) opensCloexec outs l ∧
      lifeStep defaultBuild l (.exec 1 emptyDisk [47, 98] true) = some (.loaded file, l₁) ∧
      lifeStep defaultBuild (l₁.setTask 2 (.loaded false)) (.start 1 emptyDisk) = some (.done, l') ∧
      (l.sys.fds 1 firstUserFd).empty = false ∧ l'.sys.fds 1 = l.sys.fds 1 := by
  obtain ⟨outs, l, out, l₁, hrun, hexec, htest⟩ := evaluated opensCloexec
    (.exec 1 emptyDisk [47, 98] true)
    (fun l out l' => !(l.sys.fds 1 firstUserFd).empty && (out.isLoaded && l'.tasks 2 == .none))
    (by decide +kernel)
  obtain ⟨hopen, hout⟩ := Bool.and_eq_true_iff.mp htest
  obtain ⟨hloaded, hfree⟩ := Bool.and_eq_true_iff.mp hout
  obtain ⟨file, rfl⟩ := LifeOut.isLoaded_spec hloaded
  have hspawn : lifeStep defaultBuild l₁ (.spawn 2) = some (.done, l₁.setTask 2 (.loaded false)) := by
    rw [lifeStep, beq_iff_eq.mp hfree]
    rfl
  have hrest : LifeRun defaultBuild l₁ [.spawn 2] [.done] (l₁.setTask 2 (.loaded false)) :=
    ⟨_, hspawn, rfl⟩
  have huntaken : Untaken defaultBuild 1 l₁ [.spawn 2] :=
    (untaken_cons hspawn).mpr ⟨fun hun => LifeOut.noConfusion hun.1, trivial⟩
  obtain ⟨out, l', hstart, hdone, _⟩ := exec_hands_over (fun _ => rfl) hrun hexec hrest
    (by simp [LifeEvent.actor]) emptyDisk
  obtain ⟨rfl, hsys⟩ := hdone huntaken
  have hfds : l'.sys.fds = Function.update l₁.sys.fds 1 (l.sys.fds 1) := congrArg Sys.fds hsys
  exact ⟨outs, l, l₁, file, l', hrun, hexec, hstart, by simpa using hopen,
    by rw [hfds, Function.update_self]⟩

/-! Enough slots. -/

/-- Every slot in use is that of a process, or of one of those in `K`. -/
def SlotsOwned (K : Nat → Prop) (l : Life) : Prop :=
  ∀ p, p ≠ 0 → HasSlot l.pidMeta p → l.tasks p ≠ .none ∨ K p

variable {K : Nat → Prop}

theorem SlotsOwned.next {K' : Nat → Prop} {task : Task} (howned : SlotsOwned K l)
    (hslots : SlotsKept me l.pidMeta l'.pidMeta) (htasks : l'.tasks = Function.update l.tasks me task)
    (hself : HasSlot l'.pidMeta me → task ≠ .none ∨ K' me) (hK : ∀ p, K p → K' p) :
    SlotsOwned K' l' := by
  intro p hp hslot
  rw [htasks]
  by_cases hpm : p = me
  · subst hpm
    rw [Function.update_self]
    exact hself hslot
  · rw [Function.update_of_ne hpm]
    exact (howned p hp ((hslots.others p hp hpm).2.mp hslot)).imp_right (hK p)

theorem LifeCase.slotsOwned (hcase : LifeCase b l ev out l') (hinv : LifeInv l)
    (howned : SlotsOwned K l) : SlotsOwned (fun p => K p ∨ ev = .kill p) l' := by
  have hrefl : ∀ {me}, SlotsKept me l.pidMeta l.pidMeta := .refl hinv.slots
  have hK : ∀ {ev' : LifeEvent} p, K p → K p ∨ ev' = .kill p := fun _ h => Or.inl h
  cases hcase with
  | call htask hexec => exact fun p hp hslot => (howned p hp hslot).imp_right Or.inl
  | callEnds htask hexec hend =>
      exact howned.next hend.slots hend.tasks (fun h => absurd h hend.gone) hK
  | fork htask hfree hchild => exact howned.next hrefl rfl (fun _ => Or.inl (fun h => nomatch h)) hK
  | loaded htask hsaved hfile hhand =>
      exact howned.next hhand.slots hhand.tasks (fun _ => Or.inl (fun h => nomatch h)) hK
  | execEnds htask hfails hend =>
      exact howned.next hend.slots hend.tasks (fun h => absurd h hend.gone) hK
  | spawn hfree hme => exact howned.next hrefl rfl (fun _ => Or.inl (fun h => nomatch h)) hK
  | fresh htask hclear hstart =>
      obtain ⟨k, _, htasks⟩ := hstart.tasks
      exact howned.next hstart.slots htasks (fun _ => Or.inl (fun h => nomatch h)) hK
  | restored htask hup hsaved hstart =>
      obtain ⟨k, _, htasks⟩ := hstart.tasks
      exact howned.next hstart.slots htasks (fun _ => Or.inl (fun h => nomatch h)) hK
  | startEnds htask hup hsaved hend =>
      exact howned.next hend.slots hend.tasks (fun h => absurd h hend.gone) hK
  | exit htask hend => exact howned.next hend.slots hend.tasks (fun h => absurd h hend.gone) hK
  | kill htask => exact howned.next hrefl rfl (fun _ => Or.inr (Or.inr rfl)) hK

theorem LifeInv.slotsOwned_run (hinv : LifeInv l) (howned : SlotsOwned K l)
    (hrun : LifeRun b l es outs l') : SlotsOwned (fun p => K p ∨ .kill p ∈ es) l' := by
  induction es generalizing l outs K with
  | nil =>
      cases outs with
      | cons _ _ => exact hrun.elim
      | nil =>
          obtain rfl : l' = l := hrun
          exact fun p hp hslot => (howned p hp hslot).imp_right Or.inl
  | cons ev es ih =>
      cases outs with
      | nil => exact hrun.elim
      | cons out outs =>
          obtain ⟨l₁, hstep, hrest⟩ := hrun
          have hcase := hinv.cases hstep
          intro p hp hslot
          refine (ih (hcase.lifeInv hinv) (hcase.slotsOwned hinv howned) hrest p hp hslot).imp_right ?_
          rintro ((h | rfl) | h)
          · exact Or.inl h
          · exact Or.inr (by simp)
          · exact Or.inr (by simp [h])

/-- A process gets a slot when all slots in use are those of not more than `MAX_EXEC_HANGING`
process ids, its own among them. -/
theorem SlotsWf.get {s : PidMeta} {R : Finset Nat} (wf : SlotsWf s) (hme : me ∈ R)
    (hslots : ∀ p, p ≠ 0 → HasSlot s p → p ∈ R) (hcard : R.card ≤ maxExecHanging) (im : Image) :
    ∃ x, getPidMetaInd me im s = some x := by
  by_cases hown : HasSlot s me
  · exact hown.get im
  obtain ⟨k, hk, hfree⟩ : ∃ k < maxExecHanging, (s k).pid = 0 := by
    by_contra hfull
    have hused : ∀ k < maxExecHanging, (s k).pid ≠ 0 := fun k hk hz => hfull ⟨k, hk, hz⟩
    have hle : (Finset.range maxExecHanging).card ≤ (R.erase me).card := by
      refine Finset.card_le_card_of_injOn (fun k => (s k).pid) ?_ ?_
      · intro k hk
        have hk := Finset.mem_range.mp hk
        refine Finset.mem_erase.mpr ⟨fun heq => hown ⟨k, hk, heq⟩, ?_⟩
        exact hslots _ (hused k hk) ⟨k, hk, rfl⟩
      · intro j hj k hk heq
        exact wf.unique j (Finset.mem_range.mp hj) k (Finset.mem_range.mp hk)
          (hused j (Finset.mem_range.mp hj)) heq
    rw [Finset.card_range, Finset.card_erase_of_mem hme] at hle
    have hpos := Finset.card_pos.mpr ⟨me, hme⟩
    omega
  rw [getPidMetaInd]
  split
  · exact ⟨_, rfl⟩
  · split
    · exact ⟨_, rfl⟩
    · split
      · exact ⟨_, rfl⟩
      · next hnone =>
        have hmiss := find?_range_none hnone k hk
        rw [hfree, wf.unlocked k] at hmiss
        cases hmiss

theorem boot_slotsOwned : SlotsOwned (fun _ => False) (Life.boot s) :=
  fun _ hp ⟨_, _, hpid⟩ => absurd hpid hp.symm

/-- In every run the slots in use are those of processes that exist or were killed, one for
each, so while these are at most `MAX_EXEC_HANGING` every process can exit and every loaded
program can start or ends for lack of its object. -/
theorem slots_suffice (hs : ∀ pid, s.fds pid = initFdTable)
    (hrun : LifeRun b (Life.boot s) es outs l) :
    (∀ p, p ≠ 0 → HasSlot l.pidMeta p → l.tasks p ≠ .none ∨ .kill p ∈ es) ∧
      (∀ j < maxExecHanging, ∀ k < maxExecHanging, (l.pidMeta j).pid ≠ 0 →
        (l.pidMeta j).pid = (l.pidMeta k).pid → j = k) ∧
      ∀ R : Finset Nat, (∀ p, l.tasks p ≠ .none → p ∈ R) → (∀ p, .kill p ∈ es → p ∈ R) →
        R.card ≤ maxExecHanging →
        (∀ me im, l.tasks me = .running im → ∃ l', lifeStep b l (.exit me) = some (.ended, l')) ∧
          ∀ me execed env, l.tasks me = .loaded execed →
            ∃ out l', lifeStep b l (.start me env) = some (out, l') := by
  have hinv := (boot_lifeInv hs).run hrun
  have howned : ∀ p, p ≠ 0 → HasSlot l.pidMeta p → l.tasks p ≠ .none ∨ .kill p ∈ es :=
    fun p hp hslot => ((boot_lifeInv hs).slotsOwned_run boot_slotsOwned hrun p hp hslot).imp_right
      (fun h => h.resolve_left id)
  refine ⟨howned, hinv.slots.unique, fun R hlive hkilled hcard => ?_⟩
  have hin : ∀ p, p ≠ 0 → HasSlot l.pidMeta p → p ∈ R :=
    fun p hp hslot => (howned p hp hslot).elim (hlive p) (hkilled p)
  refine ⟨fun me im htask => ?_, fun me execed env htask => ?_⟩
  · have hme : l.tasks me ≠ .none := by rw [htask]; simp
    obtain ⟨x, hget⟩ := hinv.slots.get (hlive me hme) hin hcard im
    rw [lifeStep, htask]
    dsimp only
    rw [Life.ending, Life.exit, removePidSlot, hget]
    exact ⟨_, rfl⟩
  · have hme : l.tasks me ≠ .none := by rw [htask]; simp
    exact hinv.start_returns htask (hinv.slots.get (hlive me hme) hin hcard) env

/-- Process 1 was killed before it started. -/
def spawnedTwice : List LifeEvent := [.spawn 1, .kill 1, .spawn 2]

theorem slots_suffice_spawnedTwice : ∃ outs l,
    LifeRun defaultBuild (Life.boot initSys) spawnedTwice outs l ∧
      ∃ out l', lifeStep defaultBuild l (.start 2 emptyDisk) = some (out, l') := by
  have hrun : LifeRun defaultBuild (Life.boot initSys) spawnedTwice [.done, .done, .done]
      ((((Life.boot initSys).setTask 1 (.loaded false)).drop 1 .none).setTask 2 (.loaded false)) :=
    ⟨_, rfl, _, rfl, _, rfl, rfl⟩
  have hlive : ∀ p, (Function.update (Function.update (Function.update (fun _ => Task.none) 1
      (.loaded false)) 1 .none) 2 (.loaded false) : Nat → Task) p ≠ .none →
      p ∈ ({1, 2} : Finset Nat) := by
    intro p hp
    by_cases htwo : p = 2
    · simp [htwo]
    · by_cases hone : p = 1
      · simp [hone]
      · rw [Function.update_of_ne htwo, Function.update_of_ne hone, Function.update_of_ne hone] at hp
        exact absurd rfl hp
  have hkilled : ∀ p, .kill p ∈ spawnedTwice → p ∈ ({1, 2} : Finset Nat) := by
    intro p hp
    simp only [spawnedTwice, List.mem_cons, List.not_mem_nil, or_false, LifeEvent.kill.injEq,
      reduceCtorEq, false_or] at hp
    simp [hp]
  exact ⟨_, _, hrun, ((slots_suffice (fun _ => rfl) hrun).2.2 {1, 2} hlive hkilled
    (by decide)).2 2 false emptyDisk rfl⟩

end Spacefish
