import Spacefish.FdFrames

/-!
The indices that the calls use on `fdTable`, and the descriptor that `open` takes. The
argument of a call is not tested, and the search for a free entry looks one entry
further than the table is long. Apart from that `open` takes the lowest free entry.
-/

namespace Spacefish

open Program

variable {b : Build} {env : Env} {w : World} {fds : Nat → FdInfo}

/-! The search. -/

/-- The indices that the loop of `get_empty_fd` reads; behind the table there is some
entry or other. -/
def scannedFds (env : Env) (fds : Nat → FdInfo) : Nat → Nat → List Int
  | 0, _ => []
  | n + 1, i =>
      (i : Int) :: if (if i < maxNumFd then (fds i).empty else env.pastFdTable) then []
        else scannedFds env fds n (i + 1)

/-- The entry `j` is the first free one from `i` on. -/
structure FirstFreeFd (fds : Nat → FdInfo) (i j : Nat) : Prop where
  low : i ≤ j
  high : j < maxNumFd
  free : (fds j).empty = true
  before : ∀ k, i ≤ k → k < j → (fds k).empty = false

theorem FirstFreeFd.next {i j : Nat} (h : FirstFreeFd fds i j) (hi : (fds i).empty = false) :
    FirstFreeFd fds (i + 1) j := by
  have hne : i ≠ j := by
    rintro rfl
    rw [h.free] at hi
    cases hi
  exact ⟨Nat.lt_of_le_of_ne h.low hne, h.high, h.free, fun k hk hkj => h.before k (by omega) hkj⟩

theorem exists_firstFreeFd {i k : Nat} (hik : i ≤ k) (hk : k < maxNumFd)
    (hfree : (fds k).empty = true) : ∃ j, FirstFreeFd fds i j := by
  classical
  have hex : ∃ k, i ≤ k ∧ (fds k).empty = true := ⟨k, hik, hfree⟩
  obtain ⟨hlow, hempty⟩ := Nat.find_spec hex
  refine ⟨Nat.find hex, hlow, Nat.lt_of_le_of_lt (Nat.find_min' hex ⟨hik, hfree⟩) hk, hempty,
    fun l hl hlt => ?_⟩
  have hmin := Nat.find_min hex hlt
  simpa using fun hl' => hmin ⟨hl, hl'⟩

/-- The search ends at the first free entry and takes it. -/
theorem getEmptyFdLoop_first {n i j : Nat} (h : FirstFreeFd w.fdTable i j) (hn : j < i + n) :
    getEmptyFdLoop env n i w = .ok (some j) (w.setFd j (fun f => { f with empty := false })) := by
  induction n generalizing i with
  | zero =>
      have := h.low
      omega
  | succ n ih =>
      have hlow := h.low
      have hlt : i < maxNumFd := Nat.lt_of_le_of_lt h.low h.high
      rw [getEmptyFdLoop, run_get_bind, run_ite, if_pos hlt, run_ite]
      by_cases hempty : (w.fdTable i).empty = true
      · obtain rfl : i = j := by
          by_contra hne
          have := h.before i (Nat.le_refl i) (by omega)
          rw [hempty] at this
          cases this
        rw [if_pos hempty]
        rfl
      · rw [if_neg hempty]
        exact ih (h.next (by simpa using hempty)) (by omega)

theorem scannedFds_first {n i j : Nat} (h : FirstFreeFd fds i j) {k : Int}
    (hk : k ∈ scannedFds env fds n i) : 0 ≤ k ∧ k ≤ j := by
  induction n generalizing i with
  | zero => cases hk
  | succ n ih =>
      have hlow := h.low
      have hlt : i < maxNumFd := Nat.lt_of_le_of_lt h.low h.high
      rw [scannedFds, if_pos hlt] at hk
      rcases List.mem_cons.mp hk with rfl | hk
      · omega
      · split at hk
        · cases hk
        · next hempty => exact ih (h.next (by simpa using hempty)) hk

/-- The search in a full table looks behind it. -/
theorem scannedFds_full (hfull : FdsFull fds) {n i : Nat} (hlow : firstUserFd ≤ i)
    (hi : i ≤ maxNumFd) (hn : maxNumFd < i + n) :
    (maxNumFd : Int) ∈ scannedFds env fds n i := by
  induction n generalizing i with
  | zero => omega
  | succ n ih =>
      by_cases hlt : i < maxNumFd
      · rw [scannedFds, if_pos hlt, hfull i hlow hlt, if_neg Bool.false_ne_true]
        exact List.mem_cons_of_mem _ (ih (by omega) (by omega) (by omega))
      · obtain rfl : i = maxNumFd := by omega
        exact List.mem_cons_self

/-! The indices of a call. -/

/-- What `open` does before it looks for a descriptor. -/
def openFile (b : Build) (env : Env) (pathname : Path) (flags mode : Nat) :
    Op World (Except Errno Int) := do
  let fpath ← buildAbsPath1 env pathname
  match ← openResolve b env pathname fpath flags mode with
  | .error e => return .error e
  | .ok mb =>
      openPosition flags mb
      return .ok mb

/-- The indices that a call uses on `fdTable`. -/
def fdUses (b : Build) (env : Env) (w : World) : Call → List Int
  | .open pathname flags mode =>
      if exclusivePath pathname then
        if env.realOpen pathname flags > 0 then [env.realOpen pathname flags] else []
      else if pathname.length > pathMax then []
      else
        match openFile b env pathname flags mode w with
        | .ok (.ok _) w' => scannedFds env w'.fdTable (maxNumFd + 1 - firstUserFd) firstUserFd
        | _ => []
  | .close fd => [fd]
  | .read fd _ => [fd]
  | .write fd _ => [fd]
  | .pread fd _ _ => [fd]
  | .pwrite fd _ _ => [fd]
  | .fxstat fd => [fd]
  | _ => []

theorem openFile_fds (b : Build) (env : Env) (pathname : Path) (flags mode : Nat) :
    Frames World.fdTable (openFile b env pathname flags mode) := by
  refine (buildAbsPath1_fds env pathname).bind (fun p =>
    (openResolve_fds b env pathname p flags mode).bind (fun r => ?_))
  cases r with
  | error e => exact (Keeps.pure _).frames
  | ok mb => exact (openPosition_fds flags mb).bind (fun _ => (Keeps.pure _).frames)

/-- The descriptor that `open` takes for its file. -/
def openSlot (env : Env) (mb : Int) : Op World Ret := do
  match ← getEmptyFd env firstUserFd maxNumFd with
  | none => return { ret := -1, err := .emfile }
  | some fd =>
      setFddes fd (fun f => { f with mindex := mb.toNat })
      return { ret := fd, err := .ok }

/-- An `open` that is not forwarded. -/
theorem sysOpen_eq_openFile {pathname : Path} (hexcl : exclusivePath pathname = false)
    (hlen : pathname.length ≤ pathMax) (flags mode : Nat) (w : World) :
    sysOpen b env pathname flags mode w = (openFile b env pathname flags mode >>= fun r =>
      match r with
      | .error e => pure { ret := -1, err := e }
      | .ok mb => openSlot env mb) w := by
  rw [sysOpen, run_ite, if_neg (by simp [hexcl]), run_ite, if_neg (by omega), openFile, bind_assoc]
  refine congrFun (congrArg (buildAbsPath1 env pathname >>= ·) (funext fun fpath => ?_)) w
  rw [bind_assoc]
  refine congrArg (openResolve b env pathname fpath flags mode >>= ·) (funext fun r => ?_)
  cases r with
  | error e => rfl
  | ok mb =>
      dsimp only
      rw [bind_assoc]
      rfl

/-- A free entry is found and taken. -/
theorem openSlot_first {j : Nat} (h : FirstFreeFd w.fdTable firstUserFd j) (mb : Int) :
    ∃ w', openSlot env mb w = .ok { ret := j, err := .ok } w' ∧
      fdView FdInfo.empty w' = Function.update (fdView FdInfo.empty w) j false := by
  have hhigh := h.high
  have hlow := h.low
  have hloop : getEmptyFd env firstUserFd maxNumFd w =
      .ok (some j) (w.setFd j (fun f => { f with empty := false })) :=
    getEmptyFdLoop_first h (by omega)
  rw [openSlot, bind_of_ok hloop]
  dsimp only
  rw [setFddes_eq (by omega) (by omega)]
  refine ⟨_, rfl, funext fun i => ?_⟩
  by_cases hi : i = j
  · subst hi
    simp [fdView, World.setFd]
  · simp [fdView, World.setFd, hi]

/-- In a full table there is nothing to take. -/
theorem openSlot_full (hfull : FdsFull w.fdTable) (mb : Int) :
    Ends (openSlot env mb w) (fun r w' => r = { ret := -1, err := .emfile } ∧ w' = w)
      (fun _ _ => True) := by
  refine (openSlot_ends mb).mono ?_ (fun _ _ _ => trivial)
  rintro r w' (⟨hr, hw, _⟩ | ⟨i, _, _, _, hopened⟩)
  · exact ⟨hr, hw⟩
  · have hused := hfull i hopened.low hopened.high
    rw [hopened.free] at hused
    cases hused

/-! The errors before the search for a descriptor. -/

/-- The kernel does not answer an upload that its own table is full, neither for the status
of the file nor where it cannot open or read it. -/
structure NoKernelEmfile (env : Env) : Prop where
  stat : ∀ p, env.realStat p ≠ .error .emfile
  file : ∀ p st, env.realStat p = .ok st →
    (env.realOpen p 0 < 0 ∨ (env.realRead (env.realOpen p 0) st.stSize).1 ≠ st.stSize) →
    env.realErrno ≠ .emfile

/-- The result is a file or another error than `EMFILE`. -/
def NotEmfile (r : Except Errno Int) (_ : World) : Prop := r ≠ .error .emfile

theorem uploadFile_errno (henv : NoKernelEmfile env) (name : Path) (w : World) :
    Ends (uploadFile b env name w) NotEmfile (fun _ _ => True) := by
  unfold uploadFile
  cases hstat : env.realStat name with
  | error e =>
      intro he
      obtain rfl : e = .emfile := by simpa using he
      exact henv.stat name hstat
  | ok st =>
      have herrno := henv.file name st hstat
      dsimp only
      rw [run_ite]
      split
      · next hfd => exact fun he => herrno (Or.inl hfd) (by simpa using he)
      · refine Ends.seq fun r w₁ => ?_
        cases r with
        | none =>
            intro he
            cases he
        | some mb =>
            dsimp only
            rw [run_ite]
            split
            · next hread => exact fun he => herrno (Or.inr hread) (by simpa using he)
            · refine Ends.seq fun _ _ => Ends.seq fun _ _ => Ends.seq fun _ _ he => ?_
              cases he

theorem openResolve_errno (henv : NoKernelEmfile env) (pathname p : Path) (flags mode : Nat)
    (w : World) : Ends (openResolve b env pathname p flags mode w) NotEmfile (fun _ _ => True) := by
  have hok : ∀ (mb : Int) w, NotEmfile (.ok mb) w := fun _ _ he => by cases he
  have hexist : ∀ w, NotEmfile (.error .eexist) w := fun _ he => by cases he
  have hcreate : ∀ w, Ends (createNewFile b env p mode w) NotEmfile (fun _ _ => True) :=
    fun w => createNewFile_enospc.mono (fun r _ hr he => by cases hr _ he) (fun _ _ h => h)
  unfold openResolve
  rw [run_ite]
  split
  · refine Ends.seq fun r w₁ => ?_
    cases r with
    | none => exact uploadFile_errno henv p w₁
    | some mb => exact hok mb w₁
  · rw [run_ite]
    split
    · refine Ends.seq fun r w₁ => ?_
      cases r with
      | none => exact hcreate w₁
      | some mb =>
          exact Ends.seq fun _ _ => Ends.seq fun _ _ => Ends.seq fun _ _ => Ends.seq fun _ w₂ =>
            hok mb w₂
    · refine Ends.seq fun r w₁ => ?_
      cases r with
      | some mb =>
          dsimp only
          rw [run_ite]
          split
          · exact hexist w₁
          · exact hok mb w₁
      | none =>
          dsimp only
          cases env.realStat pathname with
          | error e => exact hcreate w₁
          | ok st =>
              dsimp only
              rw [run_ite]
              split
              · exact hexist w₁
              · exact uploadFile_errno henv p w₁

theorem openFile_errno (henv : NoKernelEmfile env) (pathname : Path) (flags mode : Nat) (w : World) :
    Ends (openFile b env pathname flags mode w) NotEmfile (fun _ _ => True) := by
  refine Ends.seq fun p w₁ => ?_
  rw [ends_bind]
  refine (openResolve_errno henv pathname p flags mode w₁).mono (fun r w₂ hr => ?_) (fun _ _ h => h)
  cases r with
  | error e => exact hr
  | ok mb =>
      refine Ends.seq fun _ _ he => ?_
      cases he

end Spacefish
