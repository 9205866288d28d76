import Spacefish.CreateNames

/-!
What is known of the processes that open and upload files: which open with
`O_CREAT|O_EXCL` has made its file, and that no other has. Every kind of step keeps it:
the edits of a bucket, the store of a path, and the insertion of a bucket for a name that
nobody has.
-/

namespace Spacefish

open Interleaving Program

variable {ι : Type*} {b : Build}

/-- The path that a process works on. -/
def OpenPc.path : OpenPc → Option Path
  | .start => none
  | .get p => some p
  | .truncate p _ => some p
  | .create p => some p
  | .first p _ => some p
  | .fields p _ => some p
  | .name p _ => some p
  | .stamp p _ => some p
  | .modify p _ => some p
  | .upload p => some p
  | .insert p _ => some p
  | .read p _ _ => some p
  | .stat p _ _ _ => some p
  | .data p _ _ _ => some p
  | .place p _ => some p
  | .ret _ => none

/-- The bucket that a process works on. -/
def OpenPc.bucket : OpenPc → Option Int
  | .truncate _ mb => some mb
  | .first _ mb => some mb
  | .fields _ mb => some mb
  | .name _ mb => some mb
  | .stamp _ mb => some mb
  | .modify _ mb => some mb
  | .read _ _ mb => some mb
  | .stat _ _ _ mb => some mb
  | .data _ _ _ mb => some mb
  | .place _ mb => some mb
  | _ => none

/-- The steps that an open with `O_CREAT|O_EXCL` does not come to. -/
def OpenPc.shares : OpenPc → Bool
  | .truncate _ _ => true
  | .upload _ => true
  | .insert _ _ => true
  | .read _ _ _ => true
  | .stat _ _ _ _ => true
  | .data _ _ _ _ => true
  | _ => false

/-- The steps of such an open behind its `strict_create_mbucket`, and its success. -/
def OpenPc.made : OpenPc → Bool
  | .first _ _ => true
  | .fields _ _ => true
  | .name _ _ => true
  | .stamp _ _ => true
  | .modify _ _ => true
  | .place _ _ => true
  | .ret r => decide (0 ≤ r.ret)
  | _ => false

/-- An open with `O_CREAT|O_EXCL` that is not forwarded to the kernel. -/
structure OpenCall.Excl (o : OpenCall) : Prop where
  opens : o.daemon = false
  own : exclusivePath o.pathname = false
  creat : hasFlag o.flags oCreat = true
  excl : hasFlag o.flags oExcl = true

/-- An open with `O_CREAT|O_EXCL` of the path `p` that returned a descriptor. -/
structure Won (p : Path) (x : OpenCall × Ret) : Prop where
  excl : x.1.Excl
  path : absPath x.1.env x.1.pathname = .ok p
  success : 0 ≤ x.2.ret

/-- An open with `O_CREAT|O_EXCL` has made the file `p` or has returned with success. -/
structure Claims (o : OpenCall) (pc : OpenPc) (p : Path) : Prop where
  excl : o.Excl
  path : absPath o.env o.pathname = .ok p
  made : pc.made = true

def OpenProc.unnamed (q : OpenProc) : Option (Path × Int) := q.call.bind (fun x => x.2.unnamed)

def OpenProc.Claims (q : OpenProc) (p : Path) : Prop :=
  ∃ o pc, q.call = some (o, pc) ∧ Spacefish.Claims o pc p

/-- What is known of a process in a call. -/
structure PcWf (t : MetaShm) (name : Int → Path) (o : OpenCall) (pc : OpenPc) : Prop where
  bucket : ∀ m, pc.bucket = some m → (t.mb m).inUse = true
  path : ∀ p, pc.path = some p → o.daemon = false → absPath o.env o.pathname = .ok p
  shares : pc.shares = true → ¬ o.Excl
  claims : ∀ p, Claims o pc p → ∃ m, (t.mb m).inUse = true ∧ name m = p

/-- The invariant: the names of the buckets are in order, and at most one open with
`O_CREAT|O_EXCL` has made a file. -/
structure RaceWf (rows : Nat → List Int) (name : Int → Path)
    (c : Config ι OpenProc OpenShared) : Prop where
  names : NamesWf c.shared.table rows name (fun i => (c.proc i).unnamed)
  procs : ∀ i o pc, (c.proc i).call = some (o, pc) → PcWf c.shared.table name o pc
  sole : ∀ i j p, (c.proc i).Claims p → (c.proc j).Claims p → i = j
  won : ∀ x ∈ c.shared.log, ∀ p, Won p x →
    (∃ m, (c.shared.table.mb m).inUse = true ∧ name m = p) ∧ ∀ i, ¬ (c.proc i).Claims p
  once : ∀ p, c.shared.log.Pairwise (fun x y => ¬ (Won p x ∧ Won p y))

/-- Nobody else holds a bucket for the path without the path stored, or nothing can be
made for it anyway. -/
def NoRival (c : Config ι OpenProc OpenShared) (i : ι) (p : Path) : Prop :=
  lookup c.shared.table p ≠ none ∨ TableFull c.shared.table ∨
    ∀ j m, j ≠ i → (c.proc j).unnamed ≠ some (p, m)

variable {c : Config ι OpenProc OpenShared} {rows rows' : Nat → List Int}
  {name name' : Int → Path} {i : ι} {o : OpenCall} {pc pc' : OpenPc} {t' : MetaShm}

/-- A step of a process that goes on with the bucket it works on. -/
structure OpenPc.Goes (pc pc' : OpenPc) : Prop where
  bucket : ∀ m, pc'.bucket = some m → pc.bucket = some m
  path : ∀ p, pc'.path = some p → pc.path = some p
  shares : pc'.shares = true → pc.shares = true
  made : pc'.made = true → pc.made = true ∨ pc.shares = true

/-- Going on with the same bucket is no new claim. -/
theorem RaceWf.goes_claims (hc : RaceWf rows name c) (hcall : (c.proc i).call = some (o, pc))
    (hgoes : pc.Goes pc') {p : Path} (hp : Claims o pc' p) : Claims o pc p := by
  obtain ⟨hexcl, habs, hmade⟩ := hp
  rcases hgoes.made hmade with hold | hold
  · exact ⟨hexcl, habs, hold⟩
  · exact absurd hexcl ((hc.procs i o pc hcall).shares hold)

theorem unnamed_of_call (hcall : (c.proc i).call = some (o, pc)) :
    (c.proc i).unnamed = pc.unnamed := by
  rw [OpenProc.unnamed, hcall]
  rfl

variable [DecidableEq ι]

/-- One process has moved. -/
theorem RaceWf.move (hc : RaceWf rows name c) {q : OpenProc} {d : DataShm}
    (hnames : NamesWf t' rows' name' (Function.update (fun i => (c.proc i).unnamed) i q.unnamed))
    (hgrow : ∀ m, (c.shared.table.mb m).inUse = true →
      (t'.mb m).inUse = true ∧ name' m = name m)
    (hproc : ∀ o pc, q.call = some (o, pc) → PcWf t' name' o pc)
    (hclaims : ∀ p, q.Claims p → (c.proc i).Claims p ∨
      ∀ m, (c.shared.table.mb m).inUse = true → name m ≠ p) :
    RaceWf rows' name' (c.move i (q, ⟨t', d, c.shared.log⟩)) := by
  have hkeep : ∀ {p}, (∃ m, (c.shared.table.mb m).inUse = true ∧ name m = p) →
      ∃ m, (t'.mb m).inUse = true ∧ name' m = p := by
    rintro p ⟨m, huse, hname⟩
    obtain ⟨huse', hname'⟩ := hgrow m huse
    exact ⟨m, huse', hname'.trans hname⟩
  -- a claim of another process excludes a claim that is new
  have hother : ∀ j p, j ≠ i → (c.proc j).Claims p → ¬ q.Claims p := by
    rintro j p hj ⟨o, pc, hcall, hclaim⟩ hq
    rcases hclaims p hq with hold | habsent
    · exact hj (hc.sole j i p ⟨o, pc, hcall, hclaim⟩ hold)
    · obtain ⟨m, huse, hname⟩ := (hc.procs j o pc hcall).claims p hclaim
      exact habsent m huse hname
  refine ⟨?_, ?_, ?_, ?_, hc.once⟩
  · have hun : (fun j => ((c.move i (q, ⟨t', d, c.shared.log⟩)).proc j).unnamed) =
        Function.update (fun j => (c.proc j).unnamed) i q.unnamed := by
      funext j
      by_cases hj : j = i
      · subst hj
        rw [Config.move_self, Function.update_self]
      · rw [c.move_other _ hj, Function.update_of_ne hj]
    rw [hun]
    exact hnames
  · refine c.forall_move (fun _ q => ∀ o pc, q.call = some (o, pc) → PcWf t' name' o pc) hproc ?_
    intro j hj o pc hcall
    obtain ⟨hbucket, hpath, hshares, hclaim⟩ := hc.procs j o pc hcall
    exact ⟨fun m hm => (hgrow m (hbucket m hm)).1, hpath, hshares, fun p hp => hkeep (hclaim p hp)⟩
  · intro j k p hj hk
    by_cases hji : j = i <;> by_cases hki : k = i
    · rw [hji, hki]
    · subst hji
      rw [Config.move_self] at hj
      rw [c.move_other _ hki] at hk
      exact absurd hj (hother k p hki hk)
    · subst hki
      rw [Config.move_self] at hk
      rw [c.move_other _ hji] at hj
      exact absurd hk (hother j p hji hj)
    · rw [c.move_other _ hji] at hj
      rw [c.move_other _ hki] at hk
      exact hc.sole j k p hj hk
  · intro x hx p hwon
    obtain ⟨hm, hno⟩ := hc.won x hx p hwon
    refine ⟨hkeep hm, fun j => ?_⟩
    by_cases hj : j = i
    · subst hj
      rw [Config.move_self]
      intro hq
      rcases hclaims p hq with hold | habsent
      · exact hno _ hold
      · obtain ⟨m, huse, hname⟩ := hm
        exact habsent m huse hname
    · rw [c.move_other _ hj]
      exact hno j

/-- A process goes on in its call. -/
theorem RaceWf.goes (hc : RaceWf rows name c) (hcall : (c.proc i).call = some (o, pc))
    {fds : Nat → FdInfo} {d : DataShm} {stopped : Bool}
    (hnames : NamesWf t' rows' name' (Function.update (fun i => (c.proc i).unnamed) i pc'.unnamed))
    (hgrow : ∀ m, (c.shared.table.mb m).inUse = true →
      (t'.mb m).inUse = true ∧ name' m = name m)
    (hbucket : ∀ m, pc'.bucket = some m → (t'.mb m).inUse = true)
    (hpath : ∀ p, pc'.path = some p → o.daemon = false → absPath o.env o.pathname = .ok p)
    (hshares : pc'.shares = true → ¬ o.Excl)
    (hclaims : ∀ p, Claims o pc' p → Claims o pc p ∨
      ((∀ m, (c.shared.table.mb m).inUse = true → name m ≠ p) ∧
        ∃ m, (t'.mb m).inUse = true ∧ name' m = p)) :
    RaceWf rows' name' (c.move i (⟨fds, some (o, pc'), stopped⟩, ⟨t', d, c.shared.log⟩)) := by
  refine hc.move hnames hgrow ?_ ?_
  · rintro _ _ ⟨⟩
    refine ⟨hbucket, hpath, hshares, fun p hp => ?_⟩
    rcases hclaims p hp with hold | ⟨_, hnew⟩
    · obtain ⟨m, huse, hname⟩ := (hc.procs i o pc hcall).claims p hold
      exact ⟨m, (hgrow m huse).1, (hgrow m huse).2.trans hname⟩
    · exact hnew
  · rintro p ⟨_, _, ⟨⟩, hp⟩
    rcases hclaims p hp with hold | ⟨habsent, _⟩
    · exact Or.inl ⟨o, pc, hcall, hold⟩
    · exact Or.inr habsent

/-- A process goes on, and a bucket is edited in place at most. -/
theorem RaceWf.quiet (hc : RaceWf rows name c) (hcall : (c.proc i).call = some (o, pc))
    {fds : Nat → FdInfo} {d : DataShm} {stopped dirty : Bool} {m : Int}
    (he : Touched c.shared.table t' m (c.shared.table.mb m).path dirty)
    (hun : pc'.unnamed = pc.unnamed)
    (hbucket : ∀ m, pc'.bucket = some m → (c.shared.table.mb m).inUse = true)
    (hpath : ∀ p, pc'.path = some p → o.daemon = false → absPath o.env o.pathname = .ok p)
    (hshares : pc'.shares = true → ¬ o.Excl) (hclaims : ∀ p, Claims o pc' p → Claims o pc p) :
    RaceWf rows name (c.move i (⟨fds, some (o, pc'), stopped⟩, ⟨t', d, c.shared.log⟩)) := by
  have hsame : ∀ m, (c.shared.table.mb m).inUse = true → (t'.mb m).inUse = true :=
    fun m hm => (he.inUse_eq m).trans hm
  refine hc.goes hcall ?_ (fun m hm => ⟨hsame m hm, rfl⟩) (fun m hm => hsame m (hbucket m hm)) hpath
    hshares (fun p hp => Or.inl (hclaims p hp))
  rw [hun, ← unnamed_of_call hcall, Function.update_eq_self]
  exact hc.names.touch he

/-- A process stays where it is. -/
theorem RaceWf.stay (hc : RaceWf rows name c) (hcall : (c.proc i).call = some (o, pc))
    {fds : Nat → FdInfo} {d : DataShm} {stopped dirty : Bool} {m : Int}
    (he : Touched c.shared.table t' m (c.shared.table.mb m).path dirty) :
    RaceWf rows name (c.move i (⟨fds, some (o, pc), stopped⟩, ⟨t', d, c.shared.log⟩)) := by
  obtain ⟨hbucket, hpath, hshares, _⟩ := hc.procs i o pc hcall
  exact hc.quiet hcall he rfl hbucket hpath hshares (fun _ hp => hp)

/-! The steps that edit the bucket they work on. -/

/-- The program edits bucket `m` in place, if it is in use, and nothing else of the table. -/
def EditsMb {α : Type} (m : Int) (x : Op World α) : Prop :=
  ∀ w, (w.table.mb m).inUse = true →
    Ends (x w) (fun _ w' => ∃ dirty, Touched w.table w'.table m (w.table.mb m).path dirty)
      (fun _ w' => ∃ dirty, Touched w.table w'.table m (w.table.mb m).path dirty)

theorem EditsMb.of_frames {α : Type} {m : Int} {x : Op World α} (hx : Frames World.table x) :
    EditsMb m x := by
  refine fun w _ => (hx w).mono (fun _ w' h => ?_) (fun _ w' h => ?_)
  · exact ⟨false, h ▸ .refl _ _⟩
  · exact ⟨false, h ▸ .refl _ _⟩

theorem EditsMb.bind {α β : Type} {m : Int} {x : Op World α} {f : α → Op World β}
    (hx : EditsMb m x) (hf : ∀ a, EditsMb m (f a)) : EditsMb m (x >>= f) := by
  intro w huse
  rw [ends_bind]
  refine (hx w huse).mono ?_ (fun _ _ h => h)
  rintro a w₁ ⟨dirty, he⟩
  refine (hf a w₁ (he.inUse.trans huse)).mono ?_ ?_ <;>
  · rintro _ w' ⟨dirty', he'⟩
    rw [he.path] at he'
    exact ⟨_, he.trans he'⟩

/-- A write to fields that the rows do not rest on. -/
theorem EditsMb.write {m : Int} {f : MetaBucket → MetaBucket}
    (hf : ∀ a, (f a).inUse = a.inUse ∧ (f a).nextIx = a.nextIx ∧ (f a).path = a.path ∧
      (f a).lock = a.lock ∧ (f a).consisent = a.consisent) :
    EditsMb m (Spacefish.setMb m f) := by
  intro w huse
  obtain ⟨hin, hnext, hpath, hlock, hmark⟩ := hf (w.table.mb m)
  refine ⟨false, ?_⟩
  rw [← hpath]
  refine .setMb hin hnext hlock (fun hfree => ?_) (hmark.trans (Bool.and_true _).symm)
  rw [huse] at hfree
  cases hfree

theorem EditsMb.mark (m : Int) : EditsMb m (mbModify m) := by
  intro w _
  have he : Touched w.table (w.table.setMb m (fun a => { a with consisent := false })) m
      (w.table.mb m).path true :=
    .setMb rfl rfl rfl (fun _ => rfl) (Bool.and_false _).symm
  exact ⟨true, he⟩

theorem EditsMb.onData {α : Type} {m : Int} (x : Op DataShm α) : EditsMb m (onData x) :=
  .of_frames (onData_frames x)

/-- The configuration after a step of process `i`, and the invariant in it. -/
def Stepped (c : Config ι OpenProc OpenShared) (i : ι) (o : OpenCall) (pc : OpenPc)
    (stopped : Bool) (w : World) : Prop :=
  ∃ rows name, RaceWf rows name
    (c.move i (⟨w.fdTable, some (o, pc), stopped⟩, ⟨w.table, w.data, c.shared.log⟩))

/-- The state that a step of process `i` starts in. -/
def worldOf (c : Config ι OpenProc OpenShared) (i : ι) : World :=
  ⟨c.shared.table, c.shared.data, (c.proc i).fds⟩

theorem RaceWf.edit (hc : RaceWf rows name c) (hcall : (c.proc i).call = some (o, pc)) {m : Int}
    (hm : pc.bucket = some m) {α : Type} {x : Op World α} {k : α → OpenPc} (hx : EditsMb m x)
    (hun : ∀ a, (k a).unnamed = pc.unnamed) (hgoes : ∀ a, pc.Goes (k a)) :
    Ends ((x >>= fun a => pure (k a)) (worldOf c i)) (fun pc' w => Stepped c i o pc' false w)
      (fun e w => e = .hang ∨ Stepped c i o pc true w) := by
  obtain ⟨hbucket, hpath, hshares, _⟩ := hc.procs i o pc hcall
  rw [ends_bind]
  refine (hx _ (hbucket m hm)).mono ?_ ?_
  · rintro a w ⟨dirty, he⟩
    have hg := hgoes a
    exact ⟨rows, name, hc.quiet hcall he (hun a) (fun m hm => hbucket m (hg.bucket m hm))
      (fun p hp => hpath p (hg.path p hp)) (fun hs => hshares (hg.shares hs))
      (fun p hp => hc.goes_claims hcall hg hp)⟩
  · rintro e w ⟨dirty, he⟩
    exact Or.inr ⟨rows, name, hc.stay hcall he⟩

/-- The path of the new bucket is stored. -/
theorem RaceWf.store (hc : RaceWf rows name c) (hcall : (c.proc i).call = some (o, pc)) {m : Int}
    {p : Path} (hun : pc.unnamed = some (p, m)) (hun' : pc'.unnamed = none)
    (hgoes : pc.Goes pc') :
    Ends ((strcpyPath m p >>= fun _ => pure pc') (worldOf c i))
      (fun pc' w => Stepped c i o pc' false w) (fun e w => e = .hang ∨ Stepped c i o pc true w) := by
  obtain ⟨hbucket, hpath, hshares, _⟩ := hc.procs i o pc hcall
  by_cases hp : p.length < pathMax
  · rw [strcpyPath_eq hp]
    have he : Touched c.shared.table (c.shared.table.setMb m (fun b => { b with path := p })) m p
        false := by
      refine .setMb rfl rfl rfl (fun _ => rfl) (Bool.and_true _).symm
    have hsame : ∀ a, (c.shared.table.mb a).inUse = true →
        ((c.shared.table.setMb m (fun b => { b with path := p })).mb a).inUse = true :=
      fun a ha => (he.inUse_eq a).trans ha
    refine ⟨rows, name, hc.goes hcall ?_ (fun a ha => ⟨hsame a ha, rfl⟩)
      (fun a ha => hsame a (hbucket a (hgoes.bucket a ha))) (fun q hq => hpath q (hgoes.path q hq))
      (fun hs => hshares (hgoes.shares hs))
      (fun q hq => Or.inl (hc.goes_claims hcall hgoes hq))⟩
    rw [hun']
    exact hc.names.store he ((unnamed_of_call hcall).trans hun)
  · rw [strcpyPath_undef hp]
    exact Or.inr ⟨rows, name, hc.stay hcall (.refl _ m)⟩

theorem openPlace_edits (env : Env) (flags : Nat) (m : Int) :
    EditsMb m (openPlace env flags m) := by
  refine EditsMb.bind (EditsMb.bind (.of_frames Keeps.get.frames) (fun w => ?_)) (fun _ => ?_)
  · split
    · exact .onData _
    · exact .write (fun _ => ⟨rfl, rfl, rfl, rfl, rfl⟩)
  · refine .of_frames ((getEmptyFdLoop_frames _ _ _).bind (fun r => ?_))
    cases r with
    | none => exact (Keeps.pure _).frames
    | some fd =>
        dsimp only
        generalize (fd : Int) = j
        exact (setFddes_frames j _).bind (fun _ => (Keeps.pure _).frames)

/-! The steps on the rows. -/

/-- The step leaves the table alone. -/
theorem RaceWf.still (hc : RaceWf rows name c) (hcall : (c.proc i).call = some (o, pc)) {w : World}
    (htable : w.table = c.shared.table) (hun : pc'.unnamed = pc.unnamed)
    (hbucket : ∀ m, pc'.bucket = some m → (c.shared.table.mb m).inUse = true)
    (hpath : ∀ p, pc'.path = some p → o.daemon = false → absPath o.env o.pathname = .ok p)
    (hshares : pc'.shares = true → ¬ o.Excl) (hmade : o.Excl → pc'.made = false) :
    Stepped c i o pc' false w := by
  have he : Touched c.shared.table w.table 0 (c.shared.table.mb 0).path false := htable ▸ .refl _ _
  refine ⟨rows, name, hc.quiet hcall he hun hbucket hpath hshares ?_⟩
  rintro p ⟨hexcl, _, hm⟩
  rw [hmade hexcl] at hm
  cases hm

theorem RaceWf.ended (hc : RaceWf rows name c) (hcall : (c.proc i).call = some (o, pc)) {w : World}
    (htable : w.table = c.shared.table) : Stepped c i o pc true w := by
  have he : Touched c.shared.table w.table 0 (c.shared.table.mb 0).path false := htable ▸ .refl _ _
  exact ⟨rows, name, hc.stay hcall he⟩

/-- The call fails, or is none that creates a file of its own. -/
theorem RaceWf.returns (hc : RaceWf rows name c) (hcall : (c.proc i).call = some (o, pc)) {w : World}
    {r : Ret} (htable : w.table = c.shared.table) (hun : pc.unnamed = none)
    (hr : o.Excl → r.ret = -1) : Stepped c i o (.ret r) false w := by
  refine hc.still hcall htable (hun ▸ rfl) (fun m hm => ?_) (fun q hq => ?_) (fun hs => ?_)
    (fun he => ?_)
  · cases hm
  · cases hq
  · cases hs
  · simp [OpenPc.made, hr he]

/-- `strict_create_mbucket` in a configuration that meets the condition. -/
theorem RaceWf.make (hc : RaceWf rows name c) (hcall : (c.proc i).call = some (o, pc)) {p : Path}
    (hp : pc.path = some p) (hun : pc.unnamed = none) (hrival : NoRival c i p) {r : Ret}
    {k : Int → OpenPc} (hret : r.ret = -1) (hk : ∀ m, (k m).unnamed = some (p, m))
    (hbucket : ∀ m, (k m).bucket = some m) (hpath : ∀ m, (k m).path = some p)
    (hshares : ∀ m, (k m).shares = true → pc.shares = true) :
    Ends ((onMeta (strictCreateMbucket o.env.mrand p) >>= fun x =>
        match x with
        | none => pure (.ret r)
        | some m => pure (k m)) (worldOf c i))
      (fun pc' w => Stepped c i o pc' false w) (fun e w => e = .hang ∨ Stepped c i o pc true w) := by
  obtain ⟨_, hpath', hshares', _⟩ := hc.procs i o pc hcall
  rw [ends_bind, onMeta, ends_zoom]
  refine (strictCreateMbucket_ends hc.names.wf o.env.mrand p).mono ?_ ?_
  · rintro _ t' ⟨h, hok, ⟨rfl, rfl, _⟩ | ⟨m, rfl, hnone, hcr⟩⟩
    · exact hc.returns hcall rfl hun (fun _ => hret)
    · have hlookup : lookup c.shared.table p = none := by
        rw [← hnone]
        exact lookup_of_run (hc.names.wf.getMbucket_eq hok (hc.names.idle h))
      have hother : ∀ j a, (c.proc j).unnamed ≠ some (p, a) := by
        intro j a
        by_cases hj : j = i
        · rw [hj, unnamed_of_call hcall, hun]
          exact fun hno => by cases hno
        · rcases hrival with hfound | hfull | hother
          · exact absurd hlookup hfound
          · have hused := hfull m hcr.bound.1 hcr.bound.2
            rw [hcr.fresh] at hused
            cases hused
          · exact hother j a hj
      have habsent := hc.names.absent hok hnone hother
      have hnew : (t'.mb m).inUse = true := by rw [hcr.new.inUse]
      refine ⟨Function.update rows h (rows h ++ [m]), Function.update name m p,
        hc.goes hcall ?_ (fun a ha => ?_) (fun a ha => ?_) (fun q hq => ?_)
          (fun hs => hshares' (hshares m hs)) (fun q hq => ?_)⟩
      · rw [hk m]
        exact hc.names.make hcr hok habsent ((unnamed_of_call hcall).trans hun)
      · have ham : a ≠ m := by
          rintro rfl
          rw [hcr.fresh] at ha
          cases ha
        exact ⟨(hcr.same a ham).inUse.trans ha, Function.update_of_ne ham ..⟩
      · rw [hbucket m] at ha
        cases ha
        exact hnew
      · rw [hpath m] at hq
        cases hq
        exact hpath' p hp
      · have hqp : absPath o.env o.pathname = .ok p := hpath' p hp hq.excl.opens
        rw [hq.path] at hqp
        cases hqp
        exact Or.inr ⟨habsent, m, hnew, Function.update_self ..⟩
  · rintro e t' (⟨rfl, _⟩ | ⟨rfl, rfl, _⟩)
    · exact Or.inl rfl
    · exact Or.inr (hc.ended hcall rfl)

end Spacefish
