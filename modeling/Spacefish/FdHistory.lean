import Mathlib.Order.Bounds.Basic
import Spacefish.FdBounds

/-!
The descriptor table over a run. What a process has open is told by the calls alone:
the numbers that `open` returned and `close` has not taken back. The user part of the
table is always marked that way, so `open` returns the least number that is not in use.
It holds while the argument of every call lies in the table and `open` meets a table that is
not full: nothing in the code tests either.
-/

namespace Spacefish

open Program

variable {b : Build} {env : Env} {w : World} {fds : Nat → FdInfo} {held : Set Int}

/-- The descriptors a process starts with. -/
def stdFds : Set Int := {0, 1, 2}

/-- The descriptors a process has open after a call. A process that ends starts
again with the first three. -/
def heldAfter (call : Call) (held : Set Int) : Out → Set Int
  | .halt _ => stdFds
  | .ret r =>
      match call with
      | .open _ _ _ => if 0 ≤ r.ret then insert r.ret held else held
      | .close fd => if r.ret = 0 then held \ {fd} else held
      | _ => held

/-- The descriptors for files of the store that a process does not have open. -/
def freeFds (held : Set Int) : Set Int := {fd | firstUserFd ≤ fd ∧ fd < maxNumFd ∧ fd ∉ held}

/-- The user part of the table marks what is open. -/
def TracksFds (fds : Nat → FdInfo) (held : Set Int) : Prop :=
  ∀ i, firstUserFd ≤ i → i < maxNumFd → ((fds i).empty = false ↔ (i : Int) ∈ held)

theorem initFdTable_tracks : TracksFds initFdTable stdFds := by
  intro i hi _
  refine iff_of_false ?_ ?_
  · simp only [initFdTable, initFd, firstUserFd] at hi ⊢
    simpa using by omega
  · simp only [stdFds, Set.mem_insert_iff, Set.mem_singleton_iff, firstUserFd] at hi ⊢
    omega

theorem TracksFds.congr {w' : World} (ht : TracksFds w.fdTable held)
    (heq : fdView FdInfo.empty w' = fdView FdInfo.empty w) : TracksFds w'.fdTable held := by
  intro i hi hi'
  rw [← ht i hi hi']
  exact iff_of_eq (congrArg (· = false) (congrFun heq i))

/-- A descriptor is taken. -/
theorem TracksFds.take {w' : World} (ht : TracksFds w.fdTable held) {fd : Int} (hfd : 0 ≤ fd)
    (heq : fdView FdInfo.empty w' = Function.update (fdView FdInfo.empty w) fd.toNat false) :
    TracksFds w'.fdTable (insert fd held) := by
  intro i hi hi'
  have hmark : (w'.fdTable i).empty = _ := congrFun heq i
  rw [hmark, Set.mem_insert_iff, ← ht i hi hi']
  by_cases hi : i = fd.toNat
  · subst hi
    rw [Function.update_self]
    exact iff_of_true rfl (Or.inl (by omega))
  · rw [Function.update_of_ne hi]
    exact (or_iff_right (by omega)).symm

/-- A descriptor is given back. -/
theorem TracksFds.give {w' : World} (ht : TracksFds w.fdTable held) {fd : Int} (hfd : 0 ≤ fd)
    (heq : fdView FdInfo.empty w' = Function.update (fdView FdInfo.empty w) fd.toNat true) :
    TracksFds w'.fdTable (held \ {fd}) := by
  intro i hi hi'
  have hmark : (w'.fdTable i).empty = _ := congrFun heq i
  rw [hmark, Set.mem_sdiff, Set.mem_singleton_iff, ← ht i hi hi']
  by_cases hi : i = fd.toNat
  · subst hi
    rw [Function.update_self]
    exact iff_of_false Bool.noConfusion (fun h => h.2 (by omega))
  · rw [Function.update_of_ne hi]
    exact (and_iff_left (by omega)).symm

/-- What lies below the user descriptors does not matter. -/
theorem TracksFds.insert_low (ht : TracksFds fds held) {fd : Int} (hfd : fd < firstUserFd) :
    TracksFds fds (insert fd held) := by
  intro i hi hi'
  rw [Set.mem_insert_iff, ← ht i hi hi']
  exact (or_iff_right (by omega)).symm

/-- The first free entry is the least free descriptor. -/
theorem TracksFds.least (ht : TracksFds fds held) {j : Nat} (h : FirstFreeFd fds firstUserFd j) :
    IsLeast (freeFds held) (j : Int) := by
  have hlow := h.low
  have hhigh := h.high
  refine ⟨⟨by omega, by omega, fun hin => ?_⟩, fun fd hfd => ?_⟩
  · have := (ht j hlow hhigh).mpr hin
    rw [h.free] at this
    cases this
  · obtain ⟨hpos, hlt, hnot⟩ := hfd
    by_contra hless
    refine hnot ?_
    have hmark := (ht fd.toNat (by omega) (by omega)).mp (h.before _ (by omega) (by omega))
    rwa [Int.toNat_of_nonneg (by omega)] at hmark

theorem TracksFds.firstFree (ht : TracksFds fds held) (hfree : (freeFds held).Nonempty) :
    ∃ j, FirstFreeFd fds firstUserFd j := by
  obtain ⟨fd, hpos, hlt, hnot⟩ := hfree
  refine exists_firstFreeFd (k := fd.toNat) (by omega) (by omega) ?_
  have hmark := mt (ht fd.toNat (by omega) (by omega)).mp
    (by rwa [Int.toNat_of_nonneg (by omega)])
  simpa using hmark

theorem TracksFds.full (ht : TracksFds fds held) (hfull : freeFds held = ∅) : FdsFull fds := by
  intro j hj hj'
  refine (ht j hj hj').mpr (by_contra fun hnot => ?_)
  have hmem : (j : Int) ∈ freeFds held := ⟨by omega, by omega, hnot⟩
  rw [hfull] at hmem
  exact hmem

/-! One call. -/

/-- A descriptor number and the table behind `open` without a kernel descriptor. -/
theorem openSlot_tracks (ht : TracksFds w.fdTable held) (mb : Int) :
    Ends (openSlot env mb w)
      (fun r w' => TracksFds w'.fdTable (if 0 ≤ r.ret then insert r.ret held else held))
      (fun _ _ => True) := by
  rcases (freeFds held).eq_empty_or_nonempty with hfull | hfree
  · refine (openSlot_full (ht.full hfull) mb).mono ?_ (fun _ _ h => h)
    rintro _ _ ⟨rfl, rfl⟩
    exact ht
  · obtain ⟨j, hj⟩ := ht.firstFree hfree
    obtain ⟨w', hrun, hview⟩ := openSlot_first hj mb
    rw [hrun, ends_ok, if_pos (Int.natCast_nonneg j)]
    exact ht.take (Int.natCast_nonneg j) hview

theorem sysOpen_tracks (ht : TracksFds w.fdTable held) (pathname : Path) (flags mode : Nat) :
    Ends (sysOpen b env pathname flags mode w)
      (fun r w' => TracksFds w'.fdTable (if 0 ≤ r.ret then insert r.ret held else held))
      (fun _ _ => True) := by
  by_cases hexcl : exclusivePath pathname = true
  · rw [sysOpen, run_ite, if_pos hexcl]
    dsimp only
    rw [run_ite]
    split
    · next hpos =>
      by_cases hlt : env.realOpen pathname flags < maxNumFd
      · rw [setFddes_eq (by omega) hlt]
        rw [ends_pure, if_pos (Int.le_of_lt hpos)]
        refine ht.take (Int.le_of_lt hpos) (funext fun i => ?_)
        by_cases hi : i = (env.realOpen pathname flags).toNat
        · subst hi
          simp [fdView, World.setFd]
        · simp [fdView, World.setFd, hi]
      · rw [setFddes, if_neg (fun hin => hlt hin.2)]
        exact trivial
    · next hpos =>
      rw [ends_pure]
      split
      · exact ht.insert_low (by simp only [firstUserFd]; omega)
      · exact ht
  · by_cases hlen : pathname.length ≤ pathMax
    · rw [sysOpen_eq_openFile (by simpa using hexcl) hlen, ends_bind]
      refine (openFile_fds b env pathname flags mode w).mono ?_ (fun _ _ _ => trivial)
      intro r w' hfds
      rw [← hfds] at ht
      cases r with
      | error e => exact ht
      | ok mb => exact openSlot_tracks ht mb
    · rw [sysOpen, run_ite, if_neg hexcl, run_ite, if_pos (by omega)]
      exact ht

theorem sysClose_tracks (ht : TracksFds w.fdTable held) (fd : Int) :
    Ends (sysClose env fd w)
      (fun r w' => TracksFds w'.fdTable (if r.ret = 0 then held \ {fd} else held))
      (fun _ _ => True) := by
  have hreset : ∀ w' : World, fdView FdInfo.empty (w'.setFd fd.toNat resetFd) =
      Function.update (fdView FdInfo.empty w') fd.toNat true := by
    intro w'
    funext i
    by_cases hi : i = fd.toNat
    · subst hi
      simp [fdView, World.setFd, resetFd]
    · simp [fdView, World.setFd, hi]
  refine (sysClose_ends env fd w).mono ?_ (fun _ _ _ => trivial)
  rintro r w' ⟨hpos, _, hclose⟩
  cases hclose with
  | kernel _ hret =>
      rw [if_pos hret]
      exact ht.give hpos (hreset w)
  | refused _ hret =>
      rw [if_neg hret]
      exact ht
  | unopened => exact ht
  | store => exact ht.give hpos (hreset _)

/-- A call leaves the marks of what its process has open then. -/
theorem callOp_tracks (ht : TracksFds w.fdTable held) (call : Call) :
    Ends (callOp b env call w) (fun r w' => TracksFds w'.fdTable (heldAfter call held (.ret r)))
      (fun _ _ => True) := by
  have hempty : Unstamped FdInfo.empty := ⟨fun _ _ _ => rfl, fun _ _ _ => rfl⟩
  have hview : ∀ {x : Op World Ret}, Frames (fdView FdInfo.empty) x →
      Ends (x w) (fun _ w' => TracksFds w'.fdTable held) (fun _ _ => True) :=
    fun hx => (hx w).mono (fun _ _ heq => ht.congr heq) (fun _ _ _ => trivial)
  have htable : ∀ {x : Op World Ret}, Frames World.fdTable x →
      Ends (x w) (fun _ w' => TracksFds w'.fdTable held) (fun _ _ => True) :=
    fun hx => hview (hx.map (fun fds i => (fds i).empty))
  cases call with
  | «open» pathname flags mode => exact sysOpen_tracks ht pathname flags mode
  | close fd => exact sysClose_tracks ht fd
  | read fd count => exact hview (sysRead_view env hempty fd count)
  | write fd buf => exact hview (sysWrite_view b env hempty fd buf)
  | pread fd count offset => exact hview (sysPread_view b env hempty fd count offset)
  | pwrite fd buf offset => exact hview (sysPwrite_view b env hempty fd buf offset)
  | unlink pathname => exact htable (sysUnlink_fds env pathname)
  | rename old new => exact htable (sysRename_fds env old new)
  | xstat path => exact htable (sysXstat_fds env path)
  | fxstat fd => exact htable (sysFxstat_fds env fd)
  | upload name => exact htable (upload_fds b env name)

/-! Runs. -/

/-- The states of the runs, with what every process has open in them. -/
inductive Tracked (b : Build) : Sys → (Nat → Set Int) → Prop
  | init : Tracked b initSys (fun _ => stdFds)
  | step {s s' : Sys} {held : Nat → Set Int} {e : Event} {out : Out} (hrun : Tracked b s held)
      (hexec : exec b s e = (out, s')) :
      Tracked b s' (Function.update held e.pid (heldAfter e.call (held e.pid) out))

theorem Tracked.tracks {s : Sys} {held : Nat → Set Int} (hrun : Tracked b s held) (pid : Nat) :
    TracksFds (s.fds pid) (held pid) := by
  induction hrun generalizing pid with
  | init => exact initFdTable_tracks
  | @step s s' held e out _ hexec ih =>
      rcases exec_ends (callOp_tracks (ih e.pid) e.call) hexec with
        ⟨r, w', rfl, rfl, hr⟩ | ⟨h, w', rfl, rfl, _⟩
      · by_cases hp : pid = e.pid
        · subst hp
          simpa only [Sys.put, Function.update_self] using hr
        · simpa only [Sys.put, Function.update_of_ne hp] using ih pid
      · by_cases hp : pid = e.pid
        · subst hp
          simpa only [Sys.put, Function.update_self, heldAfter] using initFdTable_tracks
        · simpa only [Sys.put, Function.update_of_ne hp] using ih pid

/-- The condition on a call. The argument is an index of the table, and so is the number
the kernel opens a file of its own under. An `open` that is not forwarded meets a table
with a free entry and no kernel that is itself out of descriptors. -/
def FdSafe (held : Set Int) (e : Event) : Prop :=
  match e.call with
  | .open pathname flags _ =>
      if exclusivePath pathname then e.env.realOpen pathname flags < maxNumFd
      else (freeFds held).Nonempty ∧ NoKernelEmfile e.env
  | .close fd => 0 ≤ fd ∧ fd < maxNumFd
  | .read fd _ => 0 ≤ fd ∧ fd < maxNumFd
  | .write fd _ => 0 ≤ fd ∧ fd < maxNumFd
  | .pread fd _ _ => 0 ≤ fd ∧ fd < maxNumFd
  | .pwrite fd _ _ => 0 ≤ fd ∧ fd < maxNumFd
  | .fxstat fd => 0 ≤ fd ∧ fd < maxNumFd
  | _ => True

/-- A call of `open` that is not forwarded to the kernel. -/
def OrdinaryOpen (call : Call) : Prop :=
  ∃ pathname flags mode, call = .open pathname flags mode ∧ exclusivePath pathname = false

/-- What the descriptor table owes a call. -/
structure FdGood (b : Build) (s : Sys) (held : Set Int) (e : Event) : Prop where
  bounds : ∀ k ∈ fdUses b e.env (s.view e.pid) e.call, 0 ≤ k ∧ k < maxNumFd
  /-- `open` returns the least free descriptor or fails. -/
  least : OrdinaryOpen e.call → ∀ r, (exec b s e).1 = .ret r →
    r.ret = -1 ∨ IsLeast (freeFds held) r.ret
  /-- It fails with `EMFILE` exactly if there is none. -/
  emfile : OrdinaryOpen e.call → ∀ r, (exec b s e).1 = .ret r →
    (r.ret = -1 ∧ r.err = .emfile ↔ freeFds held = ∅)

theorem fdUses_bounds (ht : TracksFds w.fdTable held) {e : Event} (hsafe : FdSafe held e) {k : Int}
    (hk : k ∈ fdUses b e.env w e.call) : 0 ≤ k ∧ k < maxNumFd := by
  obtain ⟨pid, env, call⟩ := e
  have hone : ∀ {fd : Int}, (0 ≤ fd ∧ fd < maxNumFd) → k ∈ [fd] → 0 ≤ k ∧ k < maxNumFd := by
    intro fd hfd hk
    rwa [List.mem_singleton.mp hk]
  cases call with
  | «open» pathname flags mode =>
      simp only [fdUses] at hk
      simp only [FdSafe] at hsafe
      split at hk
      · next hexcl =>
        rw [if_pos hexcl] at hsafe
        split at hk
        · next hpos => exact hone ⟨Int.le_of_lt hpos, hsafe⟩ hk
        · cases hk
      · next hexcl =>
        rw [if_neg hexcl] at hsafe
        obtain ⟨j, hj⟩ := ht.firstFree hsafe.1
        have hhigh := hj.high
        split at hk
        · cases hk
        · have hfds := openFile_fds b env pathname flags mode w
          split at hk
          · next hrun =>
            rw [hrun, ends_ok] at hfds
            rw [hfds] at hk
            have := scannedFds_first hj hk
            omega
          · cases hk
  | close fd => exact hone hsafe hk
  | read fd count => exact hone hsafe hk
  | write fd buf => exact hone hsafe hk
  | pread fd count offset => exact hone hsafe hk
  | pwrite fd buf offset => exact hone hsafe hk
  | unlink pathname => cases hk
  | rename old new => cases hk
  | xstat path => cases hk
  | fxstat fd => exact hone hsafe hk
  | upload name => cases hk

/-- An `open` in a table that is not full. -/
theorem sysOpen_least (ht : TracksFds w.fdTable held) (hfree : (freeFds held).Nonempty)
    (henv : NoKernelEmfile env) {pathname : Path} (hexcl : exclusivePath pathname = false)
    (flags mode : Nat) :
    Ends (sysOpen b env pathname flags mode w)
      (fun r _ => (r.ret = -1 ∧ r.err ≠ .emfile) ∨ (IsLeast (freeFds held) r.ret ∧ r.err = .ok))
      (fun _ _ => True) := by
  by_cases hlen : pathname.length ≤ pathMax
  · rw [sysOpen_eq_openFile hexcl hlen, ends_bind]
    refine ((openFile_fds b env pathname flags mode w).and
      (openFile_errno henv pathname flags mode w)).mono ?_ (fun _ _ _ => trivial)
    rintro r w' ⟨hfds, hr⟩
    cases r with
    | error e => exact Or.inl ⟨rfl, fun he => hr (congrArg _ he)⟩
    | ok mb =>
        obtain ⟨j, hj⟩ := ht.firstFree hfree
        have hleast := ht.least hj
        rw [← hfds] at hj
        obtain ⟨w₁, hrun, _⟩ := openSlot_first hj mb
        dsimp only
        rw [hrun]
        exact Or.inr ⟨hleast, rfl⟩
  · rw [sysOpen, run_ite, if_neg (by simp [hexcl]), run_ite, if_pos (by omega)]
    exact Or.inl ⟨rfl, by decide⟩

/-- In every run, a call that meets the condition stays in the table, and `open` returns
the least free descriptor and fails with `EMFILE` exactly if there is none. -/
theorem descriptors_in_bounds {s : Sys} {held : Nat → Set Int} (hrun : Tracked b s held)
    {e : Event} (hsafe : FdSafe (held e.pid) e) : FdGood b s (held e.pid) e := by
  obtain ⟨pid, env, call⟩ := e
  have ht : TracksFds (s.view pid).fdTable (held pid) := hrun.tracks pid
  have hopen : OrdinaryOpen call → ∀ r, (exec b s ⟨pid, env, call⟩).1 = .ret r →
      (freeFds (held pid)).Nonempty ∧
        ((r.ret = -1 ∧ r.err ≠ .emfile) ∨ (IsLeast (freeFds (held pid)) r.ret ∧ r.err = .ok)) := by
    rintro ⟨pathname, flags, mode, rfl, hexcl⟩ r hr
    simp only [FdSafe, hexcl, Bool.false_eq_true, if_false] at hsafe
    refine ⟨hsafe.1, ?_⟩
    rcases exec_ends (e := ⟨pid, env, .open pathname flags mode⟩)
      (sysOpen_least (b := b) ht hsafe.1 hsafe.2 hexcl flags mode) (Prod.eta _).symm with
      ⟨r', _, hout, _, hr'⟩ | ⟨_, _, hout, _⟩
    · rw [hr] at hout
      cases hout
      exact hr'
    · rw [hr] at hout
      cases hout
  refine ⟨fun k hk => fdUses_bounds ht hsafe hk, fun hord r hr => ?_, fun hord r hr => ?_⟩
  · obtain ⟨_, ⟨hret, _⟩ | ⟨hleast, _⟩⟩ := hopen hord r hr
    · exact Or.inl hret
    · exact Or.inr hleast
  · obtain ⟨hfree, h⟩ := hopen hord r hr
    refine iff_of_false (fun hmf => ?_) hfree.ne_empty
    obtain ⟨_, hne⟩ | ⟨_, hok⟩ := h
    · exact hne hmf.2
    · rw [hok] at hmf
      cases hmf.2

/-- With all user descriptors in use, an `open` that finds its file reads the entry
behind the table. -/
theorem full_open_reads_past (ht : TracksFds w.fdTable held) (hfull : freeFds held = ∅)
    {pathname : Path} (hexcl : exclusivePath pathname = false) (hlen : pathname.length ≤ pathMax)
    {flags mode : Nat} {mb : Int} {w' : World}
    (hfile : openFile b env pathname flags mode w = .ok (.ok mb) w') :
    (maxNumFd : Int) ∈ fdUses b env w (.open pathname flags mode) := by
  have hfds := openFile_fds b env pathname flags mode w
  rw [hfile, ends_ok] at hfds
  rw [← hfds] at ht
  simp only [fdUses, hexcl, Bool.false_eq_true, if_false, if_neg (Nat.not_lt.mpr hlen), hfile]
  exact scannedFds_full (ht.full hfull) (Nat.le_refl _) (by decide) (by decide)

/-- The first `open` of a process, which creates `/a`. -/
theorem first_open_least :
    FdGood defaultBuild initSys stdFds ⟨0, emptyDisk, .open [47, 97] oCreat 0⟩ := by
  refine descriptors_in_bounds (.init : Tracked defaultBuild initSys fun _ => stdFds) ?_
  have hexcl : exclusivePath [47, 97] = false := by decide
  simp only [FdSafe, hexcl, Bool.false_eq_true, if_false]
  refine ⟨⟨firstUserFd, ?_⟩, ?_⟩
  · refine ⟨Int.le_refl _, by decide, ?_⟩
    simp [stdFds, firstUserFd]
  · refine ⟨fun _ he => ?_, fun _ _ he _ => ?_⟩
    · cases he
    · cases he

/-- `close` uses its argument as an index untested, also where the argument is `-1`. -/
theorem close_below_table :
    ¬ ∀ (s : Sys) (held : Nat → Set Int) (e : Event), Tracked defaultBuild s held →
      FdGood defaultBuild s (held e.pid) e := by
  intro hall
  have hbounds := (hall initSys _ ⟨0, emptyDisk, .close (-1)⟩ .init).bounds (-1)
    (List.mem_singleton.mpr rfl)
  exact absurd hbounds.1 (by decide)

end Spacefish
