import Spacefish.CreateRaces

/-!
Any interleaving of opens and uploads. Paths stay unique, and of the opens with
`O_CREAT|O_EXCL` of one path at most one succeeds, in the runs in which nobody makes a
bucket for a path while somebody else holds one for it without the path stored, uploads
are read completely, and no such open finds its file and truncates it.
-/

namespace Spacefish

open Interleaving Program

variable {ι : Type*} {b : Build}

/-- The condition on a step. -/
def Unraced (c : Config ι OpenProc OpenShared) (i : ι) (_ : OpenCall) : Prop :=
  match (c.proc i).call with
  | some (o, .get p) =>
      o.Excl → oTruncCheck o.flags = true → lookup c.shared.table p = none
  | some (_, .create p) => NoRival c i p
  | some (_, .insert p _) => NoRival c i p
  | some (o, .read p s _) => (o.env.realRead (o.env.realOpen p 0) s.stSize).1 = s.stSize
  | _ => True

variable {c c' : Config ι OpenProc OpenShared} {rows : Nat → List Int} {name : Int → Path} {i : ι}
  {o : OpenCall} {pc : OpenPc}

/-- All calls have returned. -/
def AllReturned (c : Config ι OpenProc OpenShared) : Prop := ∀ i, (c.proc i).call = none

/-- No two buckets in use carry the same path. -/
def PathsUnique (t : MetaShm) : Prop :=
  ∀ m m', (t.mb m).inUse = true → (t.mb m').inUse = true → (t.mb m).path = (t.mb m').path → m = m'

/-- Of the opens with `O_CREAT|O_EXCL` of one path at most one has succeeded. -/
def OneWinner (log : List (OpenCall × Ret)) : Prop :=
  ∀ p, log.Pairwise (fun x y => ¬ (Won p x ∧ Won p y))

/-- The table is at rest and no process is in a call. -/
structure OpenStart (c : Config ι OpenProc OpenShared) : Prop where
  table : ∃ rows, MapWf c.shared.table rows
  idle : AllReturned c
  log : c.shared.log = []

theorem OpenStart.raceWf (hstart : OpenStart c) : ∃ rows name, RaceWf rows name c := by
  obtain ⟨⟨rows, hmap⟩, hidle, hlog⟩ := hstart
  have hnone : (fun i => (c.proc i).unnamed) = fun _ => none :=
    funext fun i => by rw [OpenProc.unnamed, hidle i]; rfl
  refine ⟨rows, fun m => (c.shared.table.mb m).path, ?_, fun i o pc hcall => ?_, ?_, ?_, ?_⟩
  · rw [hnone]
    exact .of_map hmap
  · rw [hidle i] at hcall
    cases hcall
  · rintro i j p ⟨o, pc, hcall, _⟩
    rw [hidle i] at hcall
    cases hcall
  · rw [hlog]
    intro x hx
    cases hx
  · rw [hlog]
    exact fun p => .nil

variable [DecidableEq ι]

/-! Steps. -/

/-- `get_mbucket` in a configuration that meets the condition. -/
theorem RaceWf.search (hc : RaceWf rows name c) {p : Path}
    (hcall : (c.proc i).call = some (o, .get p))
    (hallow : o.Excl → oTruncCheck o.flags = true → lookup c.shared.table p = none) :
    Ends (stepGet o p (worldOf c i)) (fun pc' w => Stepped c i o pc' false w)
      (fun e w => e = .hang ∨ Stepped c i o (.get p) true w) := by
  obtain ⟨_, hpath, _, _⟩ := hc.procs i o (.get p) hcall
  have hcreate : ∀ {w}, w.table = c.shared.table → Stepped c i o (.create p) false w := by
    intro w hw
    refine hc.still hcall hw rfl (fun m hm => ?_) hpath (fun hs => ?_) (fun _ => rfl)
    · cases hm
    · cases hs
  have hupload : ∀ {w}, w.table = c.shared.table → ¬ o.Excl →
      Stepped c i o (.upload p) false w := by
    intro w hw hex
    refine hc.still hcall hw rfl (fun m hm => ?_) hpath (fun _ => hex) (fun _ => rfl)
    cases hm
  unfold stepGet
  rw [ends_bind, onMeta, ends_zoom]
  refine (getMbucket_ends hc.names.wf p).mono ?_ ?_
  · rintro r t' ⟨rfl, h, hok, hr⟩
    have hfound : ∀ {m}, r = some m → (c.shared.table.mb m).inUse = true := by
      rintro m rfl
      exact (hc.names.wf.inUse_iff m).mpr ⟨h, hash_lt hok, List.mem_of_find?_eq_some hr.symm⟩
    have hplace : ∀ {w m}, w.table = c.shared.table → r = some m → ¬ o.Excl →
        Stepped c i o (.place p m) false w := by
      intro w m hw hrm hex
      refine hc.still hcall hw rfl (fun a ha => ?_) hpath (fun hs => ?_) (fun he => absurd he hex)
      · cases ha
        exact hfound hrm
      · cases hs
    have hlookup : lookup c.shared.table p = r := by
      rw [hr]
      exact lookup_of_run (hc.names.wf.getMbucket_eq hok (hc.names.idle h))
    rw [run_ite]
    split
    · next hcreat =>
      have hex : ¬ o.Excl := fun he => by simp [he.creat] at hcreat
      cases r with
      | none => exact hupload rfl hex
      | some m => exact hplace rfl rfl hex
    · rw [run_ite]
      split
      · next htrunc =>
        cases r with
        | none => exact hcreate rfl
        | some m =>
            have hex : ¬ o.Excl := fun he => by
              rw [hallow he htrunc] at hlookup
              cases hlookup
            refine hc.still hcall rfl rfl (fun a ha => ?_) hpath (fun _ => hex) (fun _ => rfl)
            cases ha
            exact hfound rfl
      · cases r with
        | some m =>
            dsimp only
            rw [run_ite]
            split
            · exact hc.returns hcall rfl rfl (fun _ => rfl)
            · next hexcl => exact hplace rfl rfl (fun he => hexcl he.excl)
        | none =>
            dsimp only
            cases o.env.realStat o.pathname with
            | error e => exact hcreate rfl
            | ok st =>
                dsimp only
                rw [run_ite]
                split
                · exact hc.returns hcall rfl rfl (fun _ => rfl)
                · next hexcl => exact hupload rfl (fun he => hexcl he.excl)
  · rintro e t' (⟨rfl, _⟩ | ⟨rfl, rfl, _⟩)
    · exact Or.inl rfl
    · exact Or.inr (hc.ended hcall rfl)

theorem RaceWf.start (hc : RaceWf rows name c) (hcall : (c.proc i).call = some (o, .start)) :
    Ends (stepStart o (worldOf c i)) (fun pc' w => Stepped c i o pc' false w)
      (fun e w => e = .hang ∨ Stepped c i o .start true w) := by
  unfold stepStart
  rw [run_ite]
  split
  · next hdaemon =>
    refine hc.still hcall rfl rfl (fun m hm => ?_) (fun q hq hno => ?_) (fun _ he => ?_) (fun _ => rfl)
    · cases hm
    · rw [hdaemon] at hno
      cases hno
    · rw [he.opens] at hdaemon
      cases hdaemon
  · rw [run_ite]
    split
    · next hexcl =>
      have hno : o.Excl → ∀ r : Ret, r.ret = -1 := fun he => by
        rw [he.own] at hexcl
        cases hexcl
      dsimp only
      rw [run_ite]
      split
      · refine (setFddes_frames _ _).then (fun _ w hw => hc.returns hcall hw rfl (fun he => hno he _)) ?_
        exact fun e w hw => Or.inr (hc.ended hcall hw)
      · exact hc.returns hcall rfl rfl (fun he => hno he _)
    · rw [run_ite]
      split
      · exact hc.returns hcall rfl rfl (fun _ => rfl)
      · rcases absPath_cases o.env o.pathname with ⟨q, hq, hrun⟩ | ⟨e, _, _, hrun⟩
        · rw [bind_of_ok (hrun _)]
          refine hc.still hcall rfl rfl (fun m hm => ?_) (fun p hp _ => ?_) (fun hs => ?_) (fun _ => rfl)
          · cases hm
          · cases hp
            exact hq
          · cases hs
        · rw [bind_of_error (hrun _)]
          exact Or.inr (hc.ended hcall rfl)


theorem RaceWf.upload (hc : RaceWf rows name c) {p : Path}
    (hcall : (c.proc i).call = some (o, .upload p)) :
    Ends (openStep b o (.upload p) (worldOf c i)) (fun pc' w => Stepped c i o pc' false w)
      (fun e w => e = .hang ∨ Stepped c i o (.upload p) true w) := by
  obtain ⟨_, hpath, hshares, _⟩ := hc.procs i o (.upload p) hcall
  cases hstat : o.env.realStat p with
  | error e =>
      rw [openStep, hstat]
      exact hc.returns hcall rfl rfl (fun _ => rfl)
  | ok s =>
      rw [openStep, hstat]
      dsimp only
      rw [run_ite]
      split
      · exact hc.returns hcall rfl rfl (fun _ => rfl)
      · refine hc.still hcall rfl rfl (fun m hm => ?_) hpath hshares (fun _ => rfl)
        cases hm

/-- One step of a call. -/
theorem RaceWf.step (hc : RaceWf rows name c) (hcall : (c.proc i).call = some (o, pc))
    (hret : ∀ r, pc ≠ .ret r) {e : OpenCall} (hallow : Unraced c i e) :
    Ends (openStep b o pc (worldOf c i)) (fun pc' w => Stepped c i o pc' false w)
      (fun e w => e = .hang ∨ Stepped c i o pc true w) := by
  rw [Unraced, hcall] at hallow
  cases pc with
  | start => exact hc.start hcall
  | get p => exact hc.search hcall hallow
  | truncate p m =>
      have hx : EditsMb m (do
          let w ← get
          onData (truncChain b (w.table.mb m).firstDbucket)
          setMb m (fun a =>
            { a with s := Spacefish.stamp o.env { a.s with stSize := 0, stBlocks := 1 }
                            (stMod ||| stChg) })
          mbModify m : Op World Unit) :=
        .bind (.of_frames Keeps.get.frames) (fun _ => .bind (.onData _) (fun _ =>
          .bind (.write (fun _ => ⟨rfl, rfl, rfl, rfl, rfl⟩)) (fun _ => .mark m)))
      have hedit := hc.edit (k := fun _ => .place p m) hcall rfl hx (fun _ => rfl)
        (fun _ => ⟨fun _ h => h, fun _ h => h, fun h => (by cases h), fun _ => Or.inr rfl⟩)
      simp only [bind_assoc] at hedit
      exact hedit
  | create p =>
      refine hc.make hcall rfl rfl hallow rfl (fun _ => rfl) (fun _ => rfl) (fun _ => rfl) ?_
      exact fun _ h => h
  | first p m =>
      have hedit := hc.edit (k := fun _ => .fields p m) hcall rfl
        ((EditsMb.onData (b.getFreeDbucketIx (o.env.rand 0))).bind (fun ix => .write (f := fun a =>
          { a with firstDbucket := ix }) (fun _ => ⟨rfl, rfl, rfl, rfl, rfl⟩))) (fun _ => rfl)
        (fun _ => ⟨fun _ h => h, fun _ h => h, fun h => (by cases h), fun _ => Or.inl rfl⟩)
      rw [bind_assoc] at hedit
      exact hedit
  | fields p m =>
      exact hc.edit hcall rfl (.write (fun _ => ⟨rfl, rfl, rfl, rfl, rfl⟩)) (fun _ => rfl)
        (fun _ => ⟨fun _ h => h, fun _ h => h, fun h => (by cases h), fun _ => Or.inl rfl⟩)
  | name p m =>
      exact hc.store hcall rfl rfl
        ⟨fun _ h => h, fun _ h => h, fun h => (by cases h), fun _ => Or.inl rfl⟩
  | stamp p m =>
      exact hc.edit hcall rfl (.write (fun _ => ⟨rfl, rfl, rfl, rfl, rfl⟩)) (fun _ => rfl)
        (fun _ => ⟨fun _ h => h, fun _ h => h, fun h => (by cases h), fun _ => Or.inl rfl⟩)
  | modify p m =>
      exact hc.edit hcall rfl (.mark m) (fun _ => rfl)
        (fun _ => ⟨fun _ h => h, fun _ h => h, fun h => (by cases h), fun _ => Or.inl rfl⟩)
  | upload p => exact hc.upload hcall
  | insert p s =>
      refine hc.make hcall rfl rfl hallow rfl (fun _ => rfl) (fun _ => rfl) (fun _ => rfl) ?_
      exact fun _ h => h
  | read p s m =>
      have hread : openStep b o (.read p s m) = (strcpyPath m p >>= fun _ =>
          pure (.stat p s (o.env.realRead (o.env.realOpen p 0) s.stSize).2 m)) := by
        unfold openStep
        exact if_neg (fun hne => hne hallow)
      rw [hread]
      exact hc.store hcall rfl rfl
        ⟨fun _ h => h, fun _ h => h, fun h => h, fun h => (by cases h)⟩
  | stat p s buf m =>
      exact hc.edit hcall rfl (.write (fun _ => ⟨rfl, rfl, rfl, rfl, rfl⟩)) (fun _ => rfl)
        (fun _ => ⟨fun _ h => h, fun _ h => h, fun _ => rfl, fun h => (by cases h)⟩)
  | data p s buf m =>
      refine hc.edit (k := fun _ => .place p m) hcall rfl (fun w huse => ?_) (fun _ => rfl)
        (fun _ => ⟨fun _ h => h, fun _ h => h, fun h => (by cases h), fun _ => Or.inr rfl⟩)
      exact (uploadData_table b o.env buf s.stSize huse).mono (fun _ _ he => ⟨false, he⟩)
        (fun _ _ he => ⟨false, he⟩)
  | place p m =>
      rw [openStep, run_ite]
      split
      · next hdaemon =>
        refine hc.returns hcall rfl rfl (fun he => ?_)
        rw [he.opens] at hdaemon
        cases hdaemon
      · exact hc.edit hcall rfl (openPlace_edits o.env o.flags m) (fun _ => rfl)
          (fun _ => ⟨fun _ h => (by cases h), fun _ h => (by cases h), fun h => (by cases h),
            fun _ => Or.inl rfl⟩)
  | ret r => exact absurd rfl (hret r)

/-! The start and the end of a call. -/

/-- A process is between two calls, or about to begin one. -/
theorem RaceWf.between (hc : RaceWf rows name c) {q : OpenProc}
    (hun : q.unnamed = (c.proc i).unnamed)
    (hstart : q.call = none ∨ ∃ o, q.call = some (o, .start)) :
    RaceWf rows name (c.move i (q, c.shared)) := by
  refine hc.move ?_ (fun m hm => ⟨hm, rfl⟩) (fun o pc hcall => ?_) ?_
  · rw [hun, Function.update_eq_self]
    exact hc.names
  · rcases hstart with hno | ⟨o', hnew⟩
    · rw [hno] at hcall
      cases hcall
    · rw [hnew] at hcall
      cases hcall
      refine ⟨fun m hm => ?_, fun p hp => ?_, fun hs => ?_, fun p hp => ?_⟩
      · cases hm
      · cases hp
      · cases hs
      · cases hp.made
  · rintro p ⟨o, pc, hcall, hp⟩
    rcases hstart with hno | ⟨o', hnew⟩
    · rw [hno] at hcall
      cases hcall
    · rw [hnew] at hcall
      cases hcall
      cases hp.made

theorem RaceWf.finish (hc : RaceWf rows name c) {r : Ret}
    (hcall : (c.proc i).call = some (o, .ret r)) :
    RaceWf rows name (c.move i ({ c.proc i with call := none },
      { c.shared with log := c.shared.log ++ [(o, r)] })) := by
  have hmoved : RaceWf rows name (c.move i ({ c.proc i with call := none }, c.shared)) :=
    hc.between (unnamed_of_call hcall).symm (Or.inl rfl)
  have hown : ∀ p, Won p (o, r) → (c.proc i).Claims p :=
    fun p hwon => ⟨o, .ret r, hcall, hwon.excl, hwon.path, decide_eq_true hwon.success⟩
  refine ⟨hmoved.names, hmoved.procs, hmoved.sole, fun x hx p hwon => ?_, fun p => ?_⟩
  · rcases List.mem_append.mp hx with hx | hx
    · exact hmoved.won x hx p hwon
    · obtain rfl := List.mem_singleton.mp hx
      obtain ⟨o', pc, hcall', hclaim⟩ := hown p hwon
      refine ⟨(hc.procs i o' pc hcall').claims p hclaim, fun j => ?_⟩
      by_cases hj : j = i
      · subst hj
        rintro ⟨_, _, hnone, _⟩
        rw [Config.move_self] at hnone
        cases hnone
      · rw [c.move_other _ hj]
        exact fun hother => hj (hc.sole j i p hother (hown p hwon))
  · refine List.pairwise_append.mpr ⟨hc.once p, List.pairwise_singleton .., fun x hx y hy => ?_⟩
    obtain rfl := List.mem_singleton.mp hy
    rintro ⟨hold, hnew⟩
    exact (hc.won x hx p hold).2 i (hown p hnew)

/-! Runs. -/

/-- One step of one process. -/
theorem RaceWf.next (hc : RaceWf rows name c) {e : OpenCall} (hallow : Unraced c i e)
    {x : OpenProc × OpenShared} (hnext : openNext b e (c.proc i) c.shared = some x) :
    ∃ rows name, RaceWf rows name (c.move i x) := by
  cases hcall : (c.proc i).call with
  | none =>
      unfold openNext at hnext
      rw [hcall] at hnext
      split at hnext
      · cases hnext
      · obtain rfl := Option.some.inj hnext
        refine ⟨rows, name, hc.between ?_ (Or.inr ⟨e, rfl⟩)⟩
        rw [OpenProc.unnamed, OpenProc.unnamed, hcall]
        rfl
  | some call =>
      obtain ⟨o, pc⟩ := call
      by_cases hret : ∃ r, pc = .ret r
      · obtain ⟨r, rfl⟩ := hret
        unfold openNext at hnext
        rw [hcall] at hnext
        split at hnext
        · cases hnext
        · obtain rfl := Option.some.inj hnext
          exact ⟨rows, name, hc.finish hcall⟩
      · have hcalls : ∀ r, pc ≠ .ret r := fun r hr => hret ⟨r, hr⟩
        have hstep := hc.step (b := b) hcall hcalls hallow
        rw [openNext_call hcall hcalls] at hnext
        split at hnext
        · cases hnext
        · change afterStep o pc c.shared (openStep b o pc (worldOf c i)) = some x at hnext
          cases hrun : openStep b o pc (worldOf c i) with
          | ok pc' w =>
              rw [hrun] at hstep hnext
              obtain rfl := Option.some.inj hnext
              exact hstep
          | error e w =>
              rw [hrun] at hstep hnext
              rcases hstep with rfl | hstep
              · cases hnext
              · cases e with
                | hang => cases hnext
                | _ =>
                    obtain rfl := Option.some.inj hnext
                    exact hstep

/-- In every run whose steps meet the condition, paths are unique whenever all calls have
returned, and at most one open with `O_CREAT|O_EXCL` of a path has succeeded. -/
theorem creation_keeps_paths_unique (hstart : OpenStart c)
    (hreach : Reach (openNext b) Unraced c c') :
    (AllReturned c' → PathsUnique c'.shared.table) ∧ OneWinner c'.shared.log := by
  obtain ⟨rows, name, hc⟩ : ∃ rows name, RaceWf rows name c' := by
    refine hreach.invariant (P := fun c => ∃ rows name, RaceWf rows name c) hstart.raceWf ?_
    rintro c i e x ⟨rows, name, hc⟩ hallow hnext
    exact hc.next hallow hnext
  refine ⟨fun hidle m m' hm hm' hpath => ?_, hc.once⟩
  have hstored : ∀ a, (c'.shared.table.mb a).inUse = true → (c'.shared.table.mb a).path = name a := by
    refine fun a ha => hc.names.stored a ha (fun i p hun => ?_)
    rw [OpenProc.unnamed, hidle i] at hun
    cases hun
  rw [hstored m hm, hstored m' hm'] at hpath
  exact hc.names.inj m m' hm hm' hpath

/-! Two processes that create `/a` on an empty disk. -/

/-- Two processes before the first call. -/
def twoProcs : Config Bool OpenProc OpenShared :=
  ⟨fun _ => ⟨initFdTable, none, false⟩, ⟨initTable, initData, []⟩⟩

theorem twoProcs_start : OpenStart twoProcs :=
  ⟨⟨fun _ => [], initTable_wf, initTable_named, fun _ => rfl⟩, fun _ => rfl, rfl⟩

/-- `open("/a", O_CREAT | O_EXCL)`. -/
def exclA : OpenCall := ⟨emptyDisk, false, [47, 97], oCreat ||| oExcl, 0⟩

/-- The other process holds no bucket without its path, and this one is not at a read or a
truncation. -/
def racelessStep (c : Config Bool OpenProc OpenShared) (i : Bool) (_ : OpenCall) : Bool :=
  match (c.proc i).call with
  | some (o, .get _) => !oTruncCheck o.flags
  | some (_, .create _) => (c.proc !i).unnamed.isNone
  | some (_, .insert _ _) => (c.proc !i).unnamed.isNone
  | some (_, .read _ _ _) => false
  | _ => true

theorem racelessStep_unraced (c : Config Bool OpenProc OpenShared) (i : Bool) (e : OpenCall)
    (htest : racelessStep c i e = true) : Unraced c i e := by
  have hrival : (c.proc !i).unnamed.isNone = true → ∀ p, NoRival c i p := by
    refine fun hother p => Or.inr (Or.inr (fun j m hj => ?_))
    obtain rfl := Bool.eq_not.mpr hj
    rw [Option.isNone_iff_eq_none.mp hother]
    exact fun hno => by cases hno
  rw [racelessStep] at htest
  unfold Unraced
  cases hcall : (c.proc i).call with
  | none => trivial
  | some call =>
      obtain ⟨o, pc⟩ := call
      rw [hcall] at htest
      cases pc with
      | get p =>
          intro _ htrunc
          simp [htrunc] at htest
      | create p => exact hrival htest p
      | insert p s => exact hrival htest p
      | read p s m => cases htest
      | _ => trivial

/-- Both processes look for `/a` and find nothing; the second tries to create it when the
first has stored the path, and is refused. -/
theorem both_creators_unique : ∃ c : Config Bool OpenProc OpenShared,
    Reach (openNext defaultBuild) Unraced twoProcs c ∧
      ((c.shared.table.mb 0).inUse && !(c.shared.table.mb 1).inUse &&
        (c.proc false).call.isNone && (c.proc true).call.isNone) = true ∧
      (AllReturned c → PathsUnique c.shared.table) ∧ OneWinner c.shared.log := by
  obtain ⟨c, hreach, hmade⟩ := exists_reach (openNext defaultBuild) twoProcs
    (List.replicate 3 (false, exclA) ++ List.replicate 3 (true, exclA) ++
      List.replicate 4 (false, exclA) ++ List.replicate 2 (true, exclA) ++
      List.replicate 4 (false, exclA))
    racelessStep
    (fun c => (c.shared.table.mb 0).inUse && !(c.shared.table.mb 1).inUse &&
      (c.proc false).call.isNone && (c.proc true).call.isNone)
    racelessStep_unraced (by decide +kernel)
  exact ⟨c, hreach, hmade, creation_keeps_paths_unique twoProcs_start hreach⟩

/-- Both processes look for `/a` before either has stored it: both opens succeed, and two
buckets carry the path. -/
theorem two_creators_share_path :
    ¬ ∀ c : Config Bool OpenProc OpenShared,
      Reach (openNext defaultBuild) (fun _ _ _ => True) twoProcs c →
        (AllReturned c → PathsUnique c.shared.table) ∧ OneWinner c.shared.log := by
  intro hall
  obtain ⟨c, hreach, hend⟩ : ∃ c : Config Bool OpenProc OpenShared,
      Reach (openNext defaultBuild) (fun _ _ _ => True) twoProcs c ∧
        decide ((c.proc false).call.isNone ∧ (c.proc true).call.isNone ∧
          (c.shared.table.mb 0).inUse = true ∧ (c.shared.table.mb 1).inUse = true ∧
          (c.shared.table.mb 0).path = (c.shared.table.mb 1).path) = true :=
    exists_reach (openNext defaultBuild) twoProcs
      (List.replicate 3 (false, exclA) ++ List.replicate 3 (true, exclA) ++
        [(false, exclA), (true, exclA)] ++ List.replicate 7 (false, exclA) ++
        List.replicate 7 (true, exclA))
      (fun _ _ _ => true) _ (fun _ _ _ _ => trivial) (by decide +kernel)
  obtain ⟨hfalse, htrue, h₀, h₁, hpath⟩ := of_decide_eq_true hend
  have hidle : AllReturned c := by
    intro i
    cases i
    · exact Option.isNone_iff_eq_none.mp hfalse
    · exact Option.isNone_iff_eq_none.mp htrue
  exact absurd ((hall c hreach).1 hidle 0 1 h₀ h₁ hpath) (by decide)

end Spacefish
