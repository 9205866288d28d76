import Spacefish.TruncFreeCalls
import Spacefish.TruncFreeTest

/-!
Runs of a build with `O_TRUNC_FREE`. A truncating `open` releases data buckets with
their links and byte counts; the chains of the files stay disjoint, and new files are
empty, as long as no call takes such a bucket.
-/

namespace Spacefish

open LinkedArray Program

/-- The state that `init_mount` leaves for allocation method `m`. -/
def initMount (m : AllocMethod) : Sys := { initSys with data := (initCores m).data }

/-- The calls `open` without `O_APPEND`, `close`, `read` and `write`. -/
def StreamCall : Call → Prop
  | .open _ flags _ => hasFlag flags oAppend = false
  | .close _ => True
  | .read _ _ => True
  | .write _ _ => True
  | _ => False

/-- The chains of distinct files are disjoint and consist of buckets in use. -/
def ChainsDisjoint (s : Sys) : Prop := ∃ ch, Chains s.table s.data ch

/-- Every file that the call has made is empty: its first bucket has no bytes and no link. -/
def NewFilesEmpty (s s' : Sys) (e : Event) : Prop :=
  createsNew e.env e.call = true → ∀ a, (s.table.mb a).inUse = false →
    (s'.table.mb a).inUse = true →
      (s'.data.bucket (s'.table.mb a).firstDbucket).bytes = 0 ∧
        (s'.data.bucket (s'.table.mb a).firstDbucket).nextIx = noIx

/-- What a call needs of a data bucket that it takes: no link, and no bytes when it
becomes the bucket of a new file. -/
def fitFor (e : Event) (db : DataBucket) : Bool :=
  decide (db.nextIx = noIx) && (!createsNew e.env e.call || decide (db.bytes = 0))

/-- The allocator hands out nothing else in the course of the call: it makes no
difference when every other bucket is refused. -/
def TakesFit (b : Build) (s : Sys) (e : Event) : Prop :=
  exec (b.refusing (fitFor e)) s e = exec b s e

/-- The allocator hands out buckets of created steps only: the number of the round that it
returns has not gone past them. -/
def KeepsInSteps (b : Build) (s : Sys) (e : Event) : Prop :=
  exec (b.refusing (fun _ => true)) s e = exec b s e

variable {s s' : Sys} {e : Event} {out : Out} {m : AllocMethod} {ncores : Nat}

theorem fitFor_nextIx (e : Event) : ∀ db, fitFor e db = true → db.nextIx = noIx := by
  intro db hdb
  rw [fitFor, Bool.and_eq_true] at hdb
  exact of_decide_eq_true hdb.1

theorem fitFor_bytes {db : DataBucket} (hnew : createsNew e.env e.call = true)
    (hdb : fitFor e db = true) : db.bytes = 0 := by
  rw [fitFor, hnew, Bool.and_eq_true] at hdb
  simpa using hdb.2

/-- With the method in steps no call takes a stale bucket, unless its search wraps. -/
theorem steps_takesFit (hin : KeepsInSteps (truncFreeBuild .steps ncores) s e) :
    TakesFit (truncFreeBuild .steps ncores) s e := by
  have hfit : ∀ db : DataBucket, db.nextIx = noIx → db.bytes = 0 → fitFor e db = true := by
    intro db hnext hbytes
    simp [fitFor, hnext, hbytes]
  rw [TakesFit, steps_refusing ncores hfit]
  exact hin

/-- Every allowed call keeps the chains disjoint. -/
theorem callOp_free {bld : Build} {fit : DataBucket → Bool} {w : World} (env : Env) {call : Call}
    (hands : Hands bld fit) (hfit : ∀ db, fit db = true → db.nextIx = noIx)
    (hbld : bld.oTruncFree = true) (hcall : StreamCall call) (hok : FreeOk w) :
    FreeEnds (callOp bld env call w)
      (fun _ w' => FreeOk w' ∧ (createsNew env call = true → NewFilesFit fit w w')) := by
  have hold : ∀ {x : EStateM.Result Halt World Ret}, createsNew env call = false →
      FreeEnds x (fun _ w' => FreeOk w') → FreeEnds x (fun _ w' => FreeOk w' ∧
        (createsNew env call = true → NewFilesFit fit w w')) := by
    intro x hno hx
    refine Ends.mono hx (fun r w' h => ⟨h, fun hnew => ?_⟩) (fun _ _ he => he)
    rw [hno] at hnew
    cases hnew
  cases call with
  | «open» pathname flags mode => exact sysOpen_free hands hfit hbld hok pathname mode hcall
  | close fd => exact hold rfl (sysClose_free hok fd)
  | read fd count => exact hold rfl (sysRead_free hok fd count)
  | write fd buf => exact hold rfl (sysWrite_free hands hfit hok fd buf)
  | _ => exact hcall.elim

/-- The store of the system has disjoint chains. -/
def FreeInv (s : Sys) : Prop := ∃ rows ch, FreeWf s.table s.data rows ch

theorem FreeInv.step (hinv : FreeInv s) (hcall : StreamCall e.call) (hout : ReturnsOrExits out)
    (hfit : TakesFit (truncFreeBuild m ncores) s e)
    (hexec : exec (truncFreeBuild m ncores) s e = (out, s')) :
    FreeInv s' ∧ (out.isRet = true → NewFilesEmpty s s' e) := by
  have hview : FreeOk (s.view e.pid) := hinv
  have hends := callOp_free e.env (refusing_handed m ncores) (fitFor_nextIx e) rfl hcall hview
  rcases exec_ends hends (hfit.trans hexec) with ⟨r, w', rfl, rfl, hok, hnew⟩ | ⟨h, w', rfl, rfl, hok⟩
  · refine ⟨hok, fun _ hcreates a hfree huse => ?_⟩
    have hbucket := hnew hcreates a hfree huse
    exact ⟨fitFor_bytes hcreates hbucket, fitFor_nextIx e _ hbucket⟩
  · cases h with
    | exit u => exact ⟨hok u rfl, fun hret => by cases hret⟩
    | hang => exact hout.elim
    | undefined => exact hout.elim

theorem initMount_free (m : AllocMethod) : FreeInv (initMount m) := by
  have wf := initSys_wf.store.toLinkWf
  refine ⟨_, fun _ => [], wf.table, ?_, ⟨?_, ?_, ?_⟩, ?_, ?_⟩
  · change (if m = .steps then 1 else totalStepsAllowed) ≤ maxDataBucketsSteps
    split
    · decide
    · decide
  · exact fun a ha => by cases ha
  · exact fun a ha => by cases ha
  · exact fun a _ ha => by cases ha
  · exact fun a ha => by cases ha
  · exact fun a _ => rfl

/-- In every state that such a run reaches the chains of the files are disjoint and in
use, and every file that a call makes there is empty, provided that no call takes a
bucket that still has a link, or makes a new file of one that still has bytes. With the
method in steps only a call whose search wraps can take one (`steps_takesFit`). -/
theorem chains_stay_disjoint (m : AllocMethod) (ncores : Nat)
    (hrun : Run (truncFreeBuild m ncores) (fun s e out => StreamCall e.call ∧ ReturnsOrExits out ∧
      TakesFit (truncFreeBuild m ncores) s e) (initMount m) s) :
    ChainsDisjoint s ∧ ∀ e out s', exec (truncFreeBuild m ncores) s e = (out, s') →
      StreamCall e.call → out.isRet = true → TakesFit (truncFreeBuild m ncores) s e →
        ChainsDisjoint s' ∧ NewFilesEmpty s s' e := by
  have hdisjoint : ∀ {s : Sys}, FreeInv s → ChainsDisjoint s := by
    rintro s ⟨rows, ch, wf⟩
    exact ⟨ch, wf.chains⟩
  have hinv : FreeInv s := hrun.invariant (initMount_free m)
    (fun s e out s' hinv hallow hexec =>
      (hinv.step hallow.1 hallow.2.1 hallow.2.2 hexec).1)
  refine ⟨hdisjoint hinv, fun e out s' hexec hcall hret hfit => ?_⟩
  obtain ⟨hinv', hempty⟩ := hinv.step hcall (Out.isRet_spec hret).1 hfit hexec
  exact ⟨hdisjoint hinv', hempty hret⟩

/-! Lists of calls by one process on an empty disk. -/

/-- A call that returns under a test takes no other bucket. -/
theorem refusing_of_ret {b : Build} {fit : DataBucket → Bool} (hcall : StreamCall e.call)
    (hret : (exec (b.refusing fit) s e).1.isRet = true) :
    exec (b.refusing fit) s e = exec b s e := by
  have hrestricts : Restricts (callOp (b.refusing fit) e.env e.call) (callOp b e.env e.call) := by
    cases hc : e.call with
    | «open» pathname flags mode => exact sysOpen_restricts _ _ _
    | close fd => exact .refl _
    | read fd count => exact .refl _
    | write fd buf => exact sysWrite_restricts _ _
    | _ =>
        rw [hc] at hcall
        exact hcall.elim
  unfold exec
  rcases hrestricts (s.view e.pid) with heq | ⟨w', hstop⟩
  · rw [heq]
  · rw [exec, hstop] at hret
    cases hret

def streamEvent (c : Call) : Event := ⟨0, emptyDisk, c⟩

/-- What a call returns, and the state after it. -/
def streamStep (m : AllocMethod) (s : Sys) (c : Call) : Out × Sys :=
  exec (truncFreeBuild m 1) s (streamEvent c)

/-- The state after a list of calls in the build of method `m`. -/
def afterStream (m : AllocMethod) (calls : List Call) : Sys :=
  calls.foldl (fun s c => (streamStep m s c).2) (initMount m)

theorem afterStream_concat (m : AllocMethod) (calls : List Call) (c : Call) :
    streamStep m (afterStream m calls) c =
      ((streamStep m (afterStream m calls) c).1, afterStream m (calls ++ [c])) := by
  rw [afterStream, afterStream, List.foldl_append]
  rfl

/-- Whether the calls of a list all return when they are made one after the other. -/
def streamReturns (m : AllocMethod) : Sys → List Call → Bool
  | _, [] => true
  | s, c :: calls => (streamStep m s c).1.isRet && streamReturns m (streamStep m s c).2 calls

/-- Whether they do so when stale buckets are refused. -/
def streamTakesFit (m : AllocMethod) : Sys → List Call → Bool
  | _, [] => true
  | s, c :: calls =>
      (exec ((truncFreeBuild m 1).refusing (fitFor (streamEvent c))) s (streamEvent c)).1.isRet &&
        streamTakesFit m (streamStep m s c).2 calls

/-- The calls of a list make a run. -/
theorem stream_run {allow : Sys → Event → Out → Prop} {calls : List Call}
    (hret : streamReturns m s calls = true) (hallow : ∀ c ∈ calls, ∀ s, (streamStep m s c).1.isRet = true →
      allow s (streamEvent c) (streamStep m s c).1) :
    Run (truncFreeBuild m 1) allow s (calls.foldl (fun s c => (streamStep m s c).2) s) := by
  induction calls generalizing s with
  | nil => exact .refl
  | cons c calls ih =>
      obtain ⟨hc, hrest⟩ := Bool.and_eq_true_iff.mp hret
      refine .head ⟨streamEvent c, _, rfl, hallow c (by simp) s hc⟩ ?_
      exact ih hrest (fun a ha => hallow a (by simp [ha]))

/-- A list of calls that return under the test makes a run of calls that take no stale bucket. -/
theorem takeFit_run {calls : List Call} (hret : streamTakesFit m s calls = true)
    (hcalls : ∀ c ∈ calls, StreamCall c) :
    Run (truncFreeBuild m 1) (fun s e out => StreamCall e.call ∧ ReturnsOrExits out ∧
      TakesFit (truncFreeBuild m 1) s e) s (calls.foldl (fun s c => (streamStep m s c).2) s) := by
  induction calls generalizing s with
  | nil => exact .refl
  | cons c calls ih =>
      obtain ⟨hc, hrest⟩ := Bool.and_eq_true_iff.mp hret
      have hstream := hcalls c (by simp)
      have hfit : TakesFit (truncFreeBuild m 1) s (streamEvent c) := refusing_of_ret hstream hc
      rw [hfit] at hc
      exact .head ⟨streamEvent c, _, rfl, hstream, (Out.isRet_spec hc).1, hfit⟩
        (ih hrest (fun a ha => hcalls a (by simp [ha])))

/-- Fill a bucket and one byte of the next, and truncate. -/
def truncateTwo : List Call :=
  [.open pathA 66 0, .write 1024 (List.replicate 4097 0), .open pathA 578 0]

/-- The method in steps clears the bucket that was released when a new file takes it. -/
theorem steps_clears_released :
    ChainsDisjoint (afterStream .steps truncateTwo) ∧
      NewFilesEmpty (afterStream .steps truncateTwo)
        (afterStream .steps (truncateTwo ++ [.open pathB 66 0])) (streamEvent (.open pathB 66 0)) := by
  have hcalls : ∀ c ∈ truncateTwo, StreamCall c := by
    simp only [truncateTwo, List.mem_cons, List.not_mem_nil, or_false]
    rintro c (rfl | rfl | rfl)
    · exact (by decide : hasFlag 66 oAppend = false)
    · exact trivial
    · exact (by decide : hasFlag 578 oAppend = false)
  have hopen : StreamCall (.open pathB 66 0) := (by decide : hasFlag 66 oAppend = false)
  have hrun := takeFit_run (by decide +kernel : streamTakesFit .steps (initMount .steps) truncateTwo = true)
    hcalls
  obtain ⟨hdisjoint, hstep⟩ := chains_stay_disjoint .steps 1 hrun
  have hret : (streamStep .steps (afterStream .steps truncateTwo) (.open pathB 66 0)).1.isRet =
      true := by
    decide +kernel
  have hfit : TakesFit (truncFreeBuild .steps 1) (afterStream .steps truncateTwo)
      (streamEvent (.open pathB 66 0)) :=
    steps_takesFit (refusing_of_ret hopen (by decide +kernel))
  exact ⟨hdisjoint, (hstep _ _ _ (afterStream_concat _ _ _) hopen hret hfit).2⟩

/-- Truncate a file of three buckets, make a second file, and let the first one grow. -/
def growReleased : List Call :=
  [.open pathA 66 0, .write 1024 (List.replicate 8193 0), .open pathA 578 0, .open pathB 66 0,
    .write 1024 (List.replicate 4097 0)]

/-- Two files have chains of two buckets that end with the same one. -/
def SharedTail (s : Sys) (a c : Int) (i j k : Nat) : Prop :=
  (s.table.mb a).inUse = true ∧ (s.table.mb c).inUse = true ∧
    (s.table.mb a).firstDbucket = i ∧ (s.table.mb c).firstDbucket = j ∧
    s.data.next i = k ∧ s.data.next j = k ∧ s.data.next k = noIx ∧ i ≠ noIx ∧ j ≠ noIx ∧ k ≠ noIx

instance (s : Sys) (a c : Int) (i j k : Nat) : Decidable (SharedTail s a c i j k) :=
  inferInstanceAs (Decidable (_ ∧ _))

theorem SharedTail.not_disjoint {a c : Int} {i j k : Nat} (h : SharedTail s a c i j k)
    (hne : a ≠ c) : ¬ ChainsDisjoint s := by
  obtain ⟨ha, hc, hi, hj, hik, hjk, hend, hi', hj', hk⟩ := h
  rintro ⟨ch, hchains⟩
  have hmem : ∀ {x : Int} {y : Nat}, (s.table.mb x).inUse = true →
      (s.table.mb x).firstDbucket = y → y ≠ noIx → s.data.next y = k → k ∈ ch x := by
    intro x y hx hfirst hy hnext
    have hlinked : Linked s.data.next noIx (s.table.mb x).firstDbucket [y, k] :=
      ⟨hfirst, hy, hnext, hk, hend⟩
    rw [Linked.unique (hchains.linked x hx) hlinked]
    simp
  exact hne (hchains.apart a c ha hc k (hmem ha hi hi' hik) (hmem hc hj hj' hjk))

/-- The new file takes the second bucket with its link to the third, which the first file
takes when it grows: both chains end with it. -/
theorem released_bucket_shared :
    ¬ ∀ (m : AllocMethod) (ncores : Nat) (s : Sys),
      Run (truncFreeBuild m ncores) (fun _ e out => StreamCall e.call ∧ ReturnsOrExits out)
        (initMount m) s →
      ChainsDisjoint s ∧ ∀ e out s', exec (truncFreeBuild m ncores) s e = (out, s') →
        StreamCall e.call → out.isRet = true → ChainsDisjoint s' ∧ NewFilesEmpty s s' e := by
  intro hall
  have hcalls : ∀ c ∈ growReleased, StreamCall c := by
    simp only [growReleased, List.mem_cons, List.not_mem_nil, or_false]
    rintro c (rfl | rfl | rfl | rfl | rfl)
    · exact (by decide : hasFlag 66 oAppend = false)
    · exact trivial
    · exact (by decide : hasFlag 578 oAppend = false)
    · exact (by decide : hasFlag 66 oAppend = false)
    · exact trivial
  have hreturn : streamReturns .allRandom (initMount .allRandom) growReleased = true := by
    decide +kernel
  have hrun : Run (truncFreeBuild .allRandom 1) (fun _ e out => StreamCall e.call ∧ ReturnsOrExits out)
      (initMount .allRandom) (afterStream .allRandom growReleased) :=
    stream_run hreturn (fun c hc s hret => ⟨hcalls c hc, (Out.isRet_spec hret).1⟩)
  have hshared : SharedTail (afterStream .allRandom growReleased) 0 1 0 1 2 := by decide +kernel
  exact hshared.not_disjoint (by decide) (hall .allRandom 1 _ hrun).1

end Spacefish
