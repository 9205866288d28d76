import Spacefish.OpenExisting
import Spacefish.TwoStores
import Spacefish.Representation

/-!
What a truncation hides. Two stores that differ only in the data of one file
are alike once the file has been truncated, since every bucket of its chain
then holds no bytes. They stay alike under the calls on a descriptor unless a
`pread` or `pwrite` begins behind the bytes of its bucket: there the old
content of the buffer is returned, or becomes part of the file.
-/

namespace Spacefish

open LinkedArray Program Buffer

/-- The two systems differ in the data of the file `m` at most: in what the
buffers of its chain hold and in how many bytes of them count. -/
structure SameButFile (s₁ s₂ : Sys) (m : Int) : Prop where
  table : s₂.table = s₁.table
  fds : s₂.fds = s₁.fds
  steps : s₂.data.dbucketSteps = s₁.data.dbucketSteps
  counter : s₂.data.dbucketsInUse = s₁.data.dbucketsInUse
  other : ∀ b ∉ fileChain s₁ m, s₂.data.bucket b = s₁.data.bucket b
  chain : ∀ b ∈ fileChain s₁ m, (s₂.data.bucket b).inUse = (s₁.data.bucket b).inUse ∧
    (s₂.data.bucket b).nextIx = (s₁.data.bucket b).nextIx ∧
    (s₂.data.bucket b).lock = (s₁.data.bucket b).lock

variable {s s₁ s₂ : Sys} {rows : Nat → List Int} {ch : Int → List Nat} {m : Int} {env : Env}
  {pathname p : Path} {flags mode : Nat} {e : Event} {es : List Event} {w : World}
  {l : List Nat} {b : Nat}

theorem appendLoop_matches {d₁ d₂ : DataShm} {fuel : Nat} (h : Alike d₁ d₂) :
    Matches Alike (appendLoop fuel b d₁) (appendLoop fuel b d₂) := by
  induction fuel generalizing b with
  | zero => exact .throw _ h
  | succ fuel ih =>
      unfold appendLoop
      rw [run_getDbucketPtr, run_getDbucketPtr, h.steps, (h.bucket b).nextIx]
      by_cases hb : b / dataBucketsStep ≥ d₁.dbucketSteps
      · rw [if_pos hb, if_pos hb]
        exact ⟨rfl, h⟩
      · rw [if_neg hb, if_neg hb]
        exact ih

theorem getEmptyFdLoop_matches {w₁ w₂ : World} (n i : Nat) (h : AlikeWorld w₁ w₂) :
    Matches AlikeWorld (getEmptyFdLoop env n i w₁) (getEmptyFdLoop env n i w₂) := by
  induction n generalizing i with
  | zero => exact .pure _ h
  | succ n ih =>
      unfold getEmptyFdLoop
      rw [run_get_bind, run_get_bind, h.fds]
      refine .ite (fun _ => .ite (fun _ => ?_) (fun _ => ih _)) (fun _ => .ite (fun _ => ?_)
        (fun _ => ih _))
      · refine (Matches.modify ⟨h.table, h.data, ?_⟩).bind (fun _ _ _ h => .pure _ h)
        rw [World.setFd, World.setFd, h.fds]
      · exact .throw _ h

theorem getEmptyFd_matches {w₁ w₂ : World} (start stop : Nat) (h : AlikeWorld w₁ w₂) :
    Matches AlikeWorld (getEmptyFd env start stop w₁) (getEmptyFd env start stop w₂) :=
  getEmptyFdLoop_matches _ _ h

theorem openPlace_matches {w₁ w₂ : World} (h : AlikeWorld w₁ w₂) :
    Matches AlikeWorld (openPlace env flags m w₁) (openPlace env flags m w₂) := by
  have hpos : Matches AlikeWorld (openPosition flags m w₁) (openPosition flags m w₂) := by
    unfold openPosition
    rw [run_get_bind, run_get_bind, h.table]
    exact .ite (fun _ => onData_matches h (appendLoop_matches h.data))
      (fun _ => setMb_matches h _ _)
  unfold openPlace
  refine hpos.bind (fun _ _ _ h => ?_)
  refine (getEmptyFd_matches firstUserFd maxNumFd h).bind (fun r _ _ h => ?_)
  cases r with
  | none => exact .pure _ h
  | some fd =>
      dsimp only
      generalize (fd : Int) = i
      exact (setFddes_matches h i _).bind (fun _ _ _ h => .pure _ h)

theorem clear_alike {d₁ d₂ : DataShm} (hsteps : d₂.dbucketSteps = d₁.dbucketSteps)
    (hcounter : d₂.dbucketsInUse = d₁.dbucketsInUse)
    (hle : ∀ b, (d₁.bucket b).bytes ≤ dbucketBufSize)
    (hother : ∀ b ∉ l, d₂.bucket b = d₁.bucket b)
    (hchain : ∀ b ∈ l, (d₂.bucket b).inUse = (d₁.bucket b).inUse ∧
      (d₂.bucket b).nextIx = (d₁.bucket b).nextIx ∧
      (d₂.bucket b).lock = (d₁.bucket b).lock) : Alike (d₁.clear l) (d₂.clear l) := by
  refine ⟨hsteps, hcounter, fun b => ?_⟩
  by_cases hb : b ∈ l
  · obtain ⟨h₁, h₂, h₃⟩ := hchain b hb
    simp only [DataShm.clear, hb, if_true]
    exact ⟨h₁, h₂, h₃, rfl, Nat.zero_le _, fun i hi => absurd hi (Nat.not_lt_zero i)⟩
  · rw [clear_of_not_mem hb, clear_of_not_mem hb, hother b hb]
    exact ⟨rfl, rfl, rfl, rfl, hle b, fun _ _ => rfl⟩

theorem SameButFile.sameLinks (hdiff : SameButFile s₁ s₂ m) : SameLinks s₁.data s₂.data := by
  have hcase : ∀ b, (s₂.data.bucket b).inUse = (s₁.data.bucket b).inUse ∧
      (s₂.data.bucket b).nextIx = (s₁.data.bucket b).nextIx ∧
      (s₂.data.bucket b).lock = (s₁.data.bucket b).lock := by
    intro b
    by_cases hb : b ∈ fileChain s₁ m
    · exact hdiff.chain b hb
    · rw [hdiff.other b hb]
      exact ⟨rfl, rfl, rfl⟩
  exact ⟨hdiff.steps, hdiff.counter, fun b => (hcase b).1, fun b => (hcase b).2.1,
    fun b => (hcase b).2.2⟩

/-- The stores are alike after a truncating `open` of the file they differ in. -/
theorem SameButFile.open_matches (hdiff : SameButFile s₁ s₂ m) (hinv : SysWf s₁ rows ch)
    (pid : Nat) (hlead : LeadsTo env s₁.table pathname m) (hflag : truncates flags = true) :
    Matches AlikeWorld (sysOpen defaultBuild env pathname flags mode (s₁.view pid))
      (sysOpen defaultBuild env pathname flags mode (s₂.view pid)) := by
  obtain ⟨p, hpath, hfind⟩ := hlead.2.2
  obtain ⟨_, h, hok, hfound⟩ := getMbucket_of_lookup hinv.store.table hfind
  have huse : (s₁.table.mb m).inUse = true := hinv.store.table.findPath_inUse hok hfound
  have hchain : fileChain s₁ m = ch m := hinv.store.toLinkWf.fileChain_eq huse
  have hother := hdiff.other
  have hsame := hdiff.chain
  rw [hchain] at hother hsame
  have wf₂ : LinkWf ((s₂.view pid).store rows ch) := by
    have := hinv.store.toLinkWf.sameData hdiff.sameLinks
    rw [World.store, Sys.view, hdiff.table]
    exact this
  have hlead₂ : LeadsTo env (s₂.view pid).table pathname m := by
    rw [Sys.view, hdiff.table]
    exact hlead
  have hclear := clear_alike hdiff.steps hdiff.counter hinv.store.bytes_le hother hsame
  rw [LeadsTo.sysOpen_eq (w := s₁.view pid) mode hlead hinv.store.toLinkWf hflag,
    LeadsTo.sysOpen_eq mode hlead₂ wf₂ hflag]
  by_cases hl : ch m = []
  · rw [if_pos hl, if_pos hl]
    refine ⟨rfl, hdiff.table, ⟨hdiff.steps, hdiff.counter, fun b => ?_⟩, congrFun hdiff.fds pid⟩
    have := hclear.bucket b
    rwa [clear_of_not_mem (by simp [hl]), clear_of_not_mem (by simp [hl])] at this
  · rw [if_neg hl, if_neg hl]
    refine openPlace_matches ⟨?_, hclear, congrFun hdiff.fds pid⟩
    simp only [afterTrunc, Sys.view, hdiff.table]

/-! Runs. -/

theorem exec_matches (e : Event)
    (h : Matches AlikeWorld (callOp defaultBuild e.env e.call (s₁.view e.pid))
      (callOp defaultBuild e.env e.call (s₂.view e.pid)))
    (hfds : s₂.fds = s₁.fds) :
    (exec defaultBuild s₁ e).1 = (exec defaultBuild s₂ e).1 ∧
      AlikeSys (exec defaultBuild s₁ e).2 (exec defaultBuild s₂ e).2 := by
  unfold exec
  revert h
  cases callOp defaultBuild e.env e.call (s₁.view e.pid) with
  | ok r w₁ =>
      cases callOp defaultBuild e.env e.call (s₂.view e.pid) with
      | ok r₂ w₂ =>
          rintro ⟨rfl, h⟩
          exact ⟨rfl, h.table, h.data, by simp only [Sys.put, hfds, h.fds]⟩
      | error x w₂ => exact False.elim
  | error x w₁ =>
      cases callOp defaultBuild e.env e.call (s₂.view e.pid) with
      | ok r₂ w₂ => exact False.elim
      | error x₂ w₂ =>
          rintro ⟨rfl, h⟩
          exact ⟨rfl, h.table, h.data, by simp only [Sys.put, hfds]⟩

/-- The calls made after the truncation: `read`, `write`, and `pread` and
`pwrite` with an offset that is not negative. -/
def DataCall : Call → Prop
  | .read _ _ => True
  | .write _ _ => True
  | .pread _ _ offset => 0 ≤ offset
  | .pwrite _ _ offset => 0 ≤ offset
  | _ => False

/-- A `pread` that asks for data and every `pwrite` begins no later than the
bytes of its bucket end. -/
def BeginsInside (s : Sys) (e : Event) : Prop :=
  match e.call with
  | .pread fd count offset => count = 0 ∨ OffsetInside (s.view e.pid) fd offset
  | .pwrite fd _ offset => OffsetInside (s.view e.pid) fd offset
  | _ => True

theorem SysWf.cursorInside (hinv : SysWf s rows ch) (pid : Nat) (fd : Int) :
    CursorInside (s.view pid) fd := by
  intro m hu hlt
  have huse : (s.table.mb m).inUse = true := by
    have := (hinv.slots pid fd.toNat).used hu.nonempty hu.exclusive
    rwa [show (s.fds pid fd.toNat).mindex = m from hu.mindex] at this
  by_cases hcur : (s.table.mb m).lastDbucket = noIx
  · have hsteps : s.data.dbucketSteps = totalStepsAllowed := hinv.store.links.steps
    rw [show ((s.view pid).table.mb m).lastDbucket = noIx from hcur,
      show (s.view pid).data.dbucketSteps = totalStepsAllowed from hsteps] at hlt
    exact absurd hlt (by decide)
  · obtain ⟨_, _, _, hsize, hoff⟩ :=
      StoreWf.cursor_split (w := s.view pid) hinv.store huse hcur
    rw [hsize]
    exact hoff

/-- Alike systems return the same to every call that begins inside the data. -/
theorem AlikeSys.step (h : AlikeSys s₁ s₂) (hinv : SysWf s₁ rows ch) (hcall : DataCall e.call)
    (hin : BeginsInside s₁ e) :
    (exec defaultBuild s₁ e).1 = (exec defaultBuild s₂ e).1 ∧
      AlikeSys (exec defaultBuild s₁ e).2 (exec defaultBuild s₂ e).2 := by
  have hw : AlikeWorld (s₁.view e.pid) (s₂.view e.pid) :=
    ⟨h.table, h.data, congrFun h.fds e.pid⟩
  refine exec_matches e ?_ h.fds
  unfold BeginsInside at hin
  cases hc : e.call with
  | read fd count => exact sysRead_matches count hw (hinv.cursorInside _ _)
  | write fd buf => exact sysWrite_matches hw (hinv.cursorInside _ _)
  | pread fd count offset =>
      rw [hc] at hcall hin
      exact sysPread_matches hw hcall hin
  | pwrite fd buf offset =>
      rw [hc] at hcall hin
      exact sysPwrite_matches hw hcall hin
  | _ =>
      rw [hc] at hcall
      exact hcall.elim

theorem DataCall.keeps {out : Out} (hcall : DataCall e.call) (hout : ReturnsOrExits out) :
    KeepsOpenFiles s e out := by
  refine ⟨?_, ?_, hout⟩
  · cases hc : e.call <;> rw [hc] at hcall <;> simp_all [DataCall, CallOk]
  · intro m _ _ hit
    cases hc : e.call <;> rw [hc] at hcall hit <;> simp_all [DataCall, Hits]

/-- The events after the truncation. -/
def HideAllowed (s : Sys) (e : Event) (out : Out) : Prop :=
  DataCall e.call ∧ ReturnsOrExits out ∧ BeginsInside s e

theorem AlikeSys.outs_eq (h : AlikeSys s₁ s₂) (hinv : ∃ rows ch, SysWf s₁ rows ch)
    (hes : Along defaultBuild HideAllowed s₁ es) :
    outs defaultBuild s₁ es = outs defaultBuild s₂ es := by
  induction es generalizing s₁ s₂ with
  | nil => rfl
  | cons e es ih =>
      obtain ⟨⟨hcall, hout, hin⟩, hrest⟩ := hes
      obtain ⟨rows, ch, hwf⟩ := hinv
      obtain ⟨hsame, halike⟩ := h.step hwf hcall hin
      have hinv' : ∃ rows ch, SysWf (exec defaultBuild s₁ e).2 rows ch :=
        (hcall.keeps hout).sysWf rfl ⟨rows, ch, hwf⟩
      rw [outs, outs, hsame, ih halike hinv' hrest]

/-- After a truncating `open` that returned, no call tells two stores apart that
differed in the data of the file, as long as every `pread` and `pwrite` begins
inside the data. -/
theorem truncation_hides {pid : Nat}
    (hreach : Run defaultBuild KeepsOpenFiles initSys s₁) (hdiff : SameButFile s₁ s₂ m)
    (hlead : LeadsTo env s₁.table pathname m) (hflag : truncates flags = true)
    (hret : Returns (exec defaultBuild s₁ ⟨pid, env, .open pathname flags mode⟩).1)
    (hes : Along defaultBuild HideAllowed
      (exec defaultBuild s₁ ⟨pid, env, .open pathname flags mode⟩).2 es) :
    outs defaultBuild s₁ (⟨pid, env, .open pathname flags mode⟩ :: es) =
      outs defaultBuild s₂ (⟨pid, env, .open pathname flags mode⟩ :: es) := by
  obtain ⟨rows, ch, hwf⟩ := run_sysWf hreach
  obtain ⟨hsame, halike⟩ := exec_matches ⟨pid, env, .open pathname flags mode⟩
    (hdiff.open_matches hwf pid hlead hflag) hdiff.fds
  have happ : hasFlag flags oAppend = true → truncates flags = false := by
    intro happ
    obtain ⟨x, hstop⟩ := openPlace_append env m (afterTrunc env m (ch m) (s₁.view pid)) happ
    have hrun := LeadsTo.sysOpen_eq (w := s₁.view pid) mode hlead hwf.store.toLinkWf hflag
    rw [hstop] at hrun
    simp only [exec, callOp, hrun] at hret
    by_cases hl : ch m = []
    · rw [if_pos hl] at hret
      exact hret.elim
    · rw [if_neg hl] at hret
      exact hret.elim
  have hkeeps : KeepsOpenFiles s₁ ⟨pid, env, .open pathname flags mode⟩
      (exec defaultBuild s₁ ⟨pid, env, .open pathname flags mode⟩).1 :=
    ⟨happ, fun _ _ _ => id, hret.orExits⟩
  have hinv' := hkeeps.sysWf rfl ⟨rows, ch, hwf⟩
  rw [outs, outs, hsame, halike.outs_eq hinv' hes]

/-- The system with other bytes in the buffer of one data bucket. -/
def Sys.rewrite (s : Sys) (b : Nat) (buf : Nat → Byte) : Sys :=
  { s with data := s.data.set b (fun db => { db with buf := buf }) }

theorem rewrite_sameButFile (buf : Nat → Byte) (hb : b ∈ fileChain s m) :
    SameButFile s (s.rewrite b buf) m := by
  unfold Sys.rewrite
  refine ⟨rfl, rfl, rfl, rfl, fun c hc => ?_, fun c _ => ?_⟩
  · have hne : c ≠ b := by
      rintro rfl
      exact hc hb
    dsimp only
    rw [set_bucket_of_ne _ hne]
  · dsimp only
    by_cases hc : c = b
    · subst hc
      simp
    · rw [set_bucket_of_ne _ hc]
      exact ⟨rfl, rfl, rfl⟩

theorem threeBytes_leads : LeadsTo emptyDisk threeBytes.table pathA 0 :=
  ⟨by decide, by decide, pathA, rfl, by decide +kernel⟩

theorem threeBytes_differ : SameButFile threeBytes (threeBytes.rewrite 0 (fun _ => 9)) 0 :=
  rewrite_sameButFile _ (by decide +kernel)

/-- The truncating `open` and calls by the process that made the file. -/
def afterTruncation (calls : List Call) : List Event :=
  (.open pathA 578 0 :: calls).map (fun c => ⟨0, emptyDisk, c⟩)

theorem truncation_hides_written :
    outs defaultBuild threeBytes (afterTruncation [.pwrite 1025 [5] 0, .pread 1025 1 0]) =
      outs defaultBuild (threeBytes.rewrite 0 (fun _ => 9))
        (afterTruncation [.pwrite 1025 [5] 0, .pread 1025 1 0]) := by
  have hrets : ∀ out ∈ outs defaultBuild threeBytes
      (afterTruncation [.pwrite 1025 [5] 0, .pread 1025 1 0]), out.isRet = true := by
    decide +kernel
  refine truncation_hides threeBytes_reached threeBytes_differ threeBytes_leads (by decide)
    (Out.returns_of_isRet (hrets _ (by simp [afterTruncation, outs])))
    ⟨⟨Int.le_refl 0, (Out.isRet_spec (hrets _ (by simp [afterTruncation, outs]))).1, ?_⟩,
      ⟨Int.le_refl 0, (Out.isRet_spec (hrets _ (by simp [afterTruncation, outs]))).1, ?_⟩, trivial⟩
  · exact fun _ _ _ => Nat.zero_le _
  · exact Or.inr (fun _ _ _ => Nat.zero_le _)

/-- After the truncation of a file of three bytes a `pread` at offset 1 returns
two of them. -/
theorem truncated_bytes_returned :
    SameButFile threeBytes (threeBytes.rewrite 0 (fun _ => 9)) 0 ∧
      Run defaultBuild KeepsOpenFiles initSys threeBytes ∧
      LeadsTo emptyDisk threeBytes.table pathA 0 ∧ truncates 578 = true ∧
      (∀ out ∈ outs defaultBuild threeBytes (afterTruncation [.pread 1025 2 1]),
        out.isRet = true) ∧
      (outs defaultBuild threeBytes (afterTruncation [.pread 1025 2 1])).map Out.data =
        [[], [2, 3]] ∧
      (outs defaultBuild (threeBytes.rewrite 0 (fun _ => 9))
        (afterTruncation [.pread 1025 2 1])).map Out.data = [[], [9, 9]] :=
  ⟨threeBytes_differ, threeBytes_reached, threeBytes_leads, by decide, by decide +kernel,
    by decide +kernel, by decide +kernel⟩

end Spacefish
