import Spacefish.OpenExisting

/-!
What the calls do to the metadata table, from any well-formed table and whatever
the data segment and the descriptors hold: a call edits one bucket where it
stands, makes one, releases one, moves one to another path, or leaves rows
locked. Descriptors may refer to buckets that were released or taken for another
file since.
-/

namespace Spacefish

open LinkedArray Program

/-- Bucket `m` was edited where it stands; `q` is its path afterwards, and `dirty`
says whether it was marked for writing back. -/
structure Touched (t t' : MetaShm) (m : Int) (q : Path) (dirty : Bool) : Prop where
  row : t'.row = t.row
  other : ∀ a ≠ m, t'.mb a = t.mb a
  inUse : (t'.mb m).inUse = (t.mb m).inUse
  nextIx : (t'.mb m).nextIx = (t.mb m).nextIx
  lock : (t'.mb m).lock = (t.mb m).lock
  path : (t'.mb m).path = q
  first : (t.mb m).inUse = false → (t'.mb m).firstDbucket = (t.mb m).firstDbucket
  consisent : (t'.mb m).consisent = ((t.mb m).consisent && !dirty)

section Touched

variable {t t₁ t' : MetaShm} {rows : Nat → List Int} {m a : Int} {q q' : Path} {dirty d : Bool}

theorem Touched.refl (t : MetaShm) (m : Int) : Touched t t m (t.mb m).path false :=
  ⟨rfl, fun _ _ => rfl, rfl, rfl, rfl, rfl, fun _ => rfl, by simp⟩

theorem Touched.trans (h₁ : Touched t t₁ m q dirty) (h₂ : Touched t₁ t' m q' d) :
    Touched t t' m q' (dirty || d) where
  row := h₂.row.trans h₁.row
  other := fun a ha => (h₂.other a ha).trans (h₁.other a ha)
  inUse := h₂.inUse.trans h₁.inUse
  nextIx := h₂.nextIx.trans h₁.nextIx
  lock := h₂.lock.trans h₁.lock
  path := h₂.path
  first := fun hfree => (h₂.first (h₁.inUse.trans hfree)).trans (h₁.first hfree)
  consisent := by
    rw [h₂.consisent, h₁.consisent, Bool.not_or, Bool.and_assoc]

theorem Touched.setMb {f : MetaBucket → MetaBucket} (hin : (f (t.mb m)).inUse = (t.mb m).inUse)
    (hnext : (f (t.mb m)).nextIx = (t.mb m).nextIx) (hlock : (f (t.mb m)).lock = (t.mb m).lock)
    (hfirst : (t.mb m).inUse = false → (f (t.mb m)).firstDbucket = (t.mb m).firstDbucket)
    (hmark : (f (t.mb m)).consisent = ((t.mb m).consisent && !dirty)) :
    Touched t (t.setMb m f) m (f (t.mb m)).path dirty := by
  refine ⟨rfl, fun a ha => setMb_mb_of_ne f ha, ?_, ?_, ?_, ?_, ?_, ?_⟩
  · rw [setMb_mb_self, hin]
  · rw [setMb_mb_self, hnext]
  · rw [setMb_mb_self, hlock]
  · rw [setMb_mb_self]
  · rw [setMb_mb_self]
    exact hfirst
  · rw [setMb_mb_self, hmark]

theorem Touched.inUse_eq (he : Touched t t' m q dirty) (a : Int) :
    (t'.mb a).inUse = (t.mb a).inUse := by
  by_cases ha : a = m
  · rw [ha, he.inUse]
  · rw [he.other a ha]

theorem Touched.tableWf (he : Touched t t' m q dirty) (wf : TableWf t rows) :
    TableWf t' rows := by
  have hnext : ∀ a, t'.next a = t.next a := by
    intro a
    by_cases ha : a = m
    · rw [ha]
      exact he.nextIx
    · rw [MetaShm.next, he.other a ha, MetaShm.next]
  refine ⟨wf.toRowsWf.congr (fun h _ => by rw [he.row]) (fun _ _ a _ => hnext a), ?_, ?_, ?_, ?_⟩
  · intro a
    rw [he.inUse_eq]
    exact wf.inUse_iff a
  · intro a hfree
    rw [he.inUse_eq] at hfree
    refine ⟨(hnext a).trans (wf.free a hfree).1, ?_⟩
    by_cases ha : a = m
    · subst ha
      rw [he.first hfree]
      exact (wf.free a hfree).2
    · rw [he.other a ha]
      exact (wf.free a hfree).2
  · intro h
    rw [RowIdle, RowStuck, he.row]
    exact wf.rowLock h
  · intro a
    by_cases ha : a = m
    · rw [ha, he.lock]
      exact wf.mbUnlocked m
    · rw [he.other a ha]
      exact wf.mbUnlocked a

end Touched

/-! The calls that change what a file holds or is called. -/

/-- The call changes the file in bucket `m`: it truncates it, writes to it, or
gives it a new path. -/
def Modifies (w : World) (env : Env) (call : Call) (out : Out) (m : Int) : Prop :=
  match call with
  | .open pathname flags _ => truncates flags = true ∧ LeadsTo env w.table pathname m ∧
      ∃ d, truncChain defaultBuild (w.table.mb m).firstDbucket w.data = .ok ⟨⟩ d
  | .write fd _ => (∃ i : Nat, m = i ∧ UserFd w fd i) ∧ 0 < out.num
  | .pwrite fd _ _ => (∃ i : Nat, m = i ∧ UserFd w fd i) ∧ 0 < out.num
  | .rename old new => old ≠ new ∧ out.num = 0 ∧
      ∃ p, absPath env old = .ok p ∧ lookup w.table p = some m
  | _ => False

/-- The call creates the file it makes, and the creation is completed. -/
def Creates (env : Env) (call : Call) (out : Out) : Prop :=
  match call with
  | .open pathname flags _ => hasFlag flags oCreat = true ∧
      (oTruncCheck flags = true ∨ (env.realStat pathname).toOption = none) ∧
      out ≠ .halt (.exit .dataBucketOverUse)
  | _ => False

/-- The call may make a file with the path `p`. -/
def Brings (env : Env) (p : Path) : Call → Prop
  | .open pathname flags _ => pathname.length ≤ pathMax ∧ absPath env pathname = .ok p ∧
      (hasFlag flags oCreat = true ∨ ∃ st, env.realStat p = .ok st)
  | .upload name => name = p ∧ ∃ st, env.realStat p = .ok st
  | _ => False

/-- Bucket `m` of row `h` was taken for the path `p` and then edited; it has the
path `q` afterwards. -/
structure Made (t : MetaShm) (rows : Nat → List Int) (p : Path) (h : Nat) (m : Int) (q : Path)
    (dirty : Bool) (t' : MetaShm) : Prop where
  hashed : hash p = .ok h
  absent : findPath t p (rows h) = none
  made : ∃ t₁, Created t t₁ rows h m ∧ Touched t₁ t' m q dirty

/-- `TableEffect w rows env call out t' rows'`: the call, made in the state `w`
with the row lists `rows` and ended with `out`, leaves the table `t'`. -/
inductive TableEffect (w : World) (rows : Nat → List Int) (env : Env) (call : Call) (out : Out) :
    MetaShm → (Nat → List Int) → Prop where
  | keep (hmod : ∀ a, (w.table.mb a).inUse = true → ¬ Modifies w env call out a) :
      TableEffect w rows env call out w.table rows
  | touch {m : Int} {dirty : Bool} {t' : MetaShm}
      (he : Touched w.table t' m (w.table.mb m).path dirty)
      (hmod : ∀ a, (w.table.mb a).inUse = true →
        (Modifies w env call out a ↔ a = m ∧ dirty = true))
      (hstay : ∀ old new, call = .rename old new → absPath env old = absPath env new) :
      TableEffect w rows env call out t' rows
  | make {p q : Path} {h : Nat} {m : Int} {dirty : Bool} {t' : MetaShm}
      (hbrings : Brings env p call) (hm : Made w.table rows p h m q dirty t')
      (hq : (q = p ∧ p.length < pathMax) ∨ ShortReads env call ∨ out = .halt (.exit .dataBucketOverUse))
      (hdirty : dirty = true ↔ Creates env call out)
      (hmod : ∀ a, (w.table.mb a).inUse = true → ¬ Modifies w env call out a) :
      TableEffect w rows env call out t' (Function.update rows h (rows h ++ [m]))
  | release {pathname p : Path} {h : Nat} {m : Int} {t' : MetaShm} {rows' : Nat → List Int}
      (hcall : call = .unlink pathname) (hpath : absPath env pathname = .ok p)
      (hok : hash p = .ok h) (hfind : findPath w.table p (rows h) = some m)
      (hr : Released w.table t' rows rows' m) : TableEffect w rows env call out t' rows'
  | rename {old new p q : Path} {ho hn : Nat} {m : Int} {t₁ t' : MetaShm}
      {rows' : Nat → List Int} (hcall : call = .rename old new)
      (hlen : old.length ≤ pathMax ∧ new.length ≤ pathMax) (hold : absPath env old = .ok p)
      (hnew : absPath env new = .ok q) (hokold : hash p = .ok ho) (hoknew : hash q = .ok hn)
      (hne : ho ≠ hn) (hfind : findPath w.table p (rows ho) = some m)
      (hr : Renamed w.table t₁ rows rows' hn m (findPath w.table q (rows hn)) q)
      (he : Touched t₁ t' m (t₁.mb m).path true)
      (hmod : ∀ a, (w.table.mb a).inUse = true → (Modifies w env call out a ↔ a = m)) :
      TableEffect w rows env call out t' rows'
  | stuck (ho hn : Nat)
      (hmod : ∀ a, (w.table.mb a).inUse = true → ¬ Modifies w env call out a) :
      TableEffect w rows env call out (w.table.lockBoth ho hn) rows

/-- Nothing is said about a wait without end and about undefined behaviour. -/
def LeavesTable (w : World) (rows : Nat → List Int) (env : Env) (call : Call) (out : Out)
    (t' : MetaShm) : Prop :=
  out = .halt .hang ∨ out = .halt .undefined ∨ ∃ rows', TableEffect w rows env call out t' rows'

variable {w w' : World} {rows : Nat → List Int} {env : Env} {call : Call} {out : Out}
  {t' : MetaShm} {fd offset : Int}

theorem TableEffect.tableWf {rows' : Nat → List Int} (wf : TableWf w.table rows)
    (heff : TableEffect w rows env call out t' rows') : TableWf t' rows' := by
  cases heff with
  | keep => exact wf
  | touch he => exact he.tableWf wf
  | make _ hm =>
      obtain ⟨t₁, hc, he⟩ := hm.made
      exact he.tableWf hc.wf
  | release _ _ _ _ hr => exact hr.wf
  | rename _ _ _ _ _ _ _ _ hr he => exact he.tableWf hr.wf
  | stuck ho hn => exact wf.lockBoth ho hn

theorem LeavesTable.keep (htab : t' = w.table)
    (hmod : ∀ a, (w.table.mb a).inUse = true → ¬ Modifies w env call out a) :
    LeavesTable w rows env call out t' := by
  subst htab
  exact Or.inr (Or.inr ⟨rows, .keep hmod⟩)

theorem LeavesTable.touch (m : Int) (dirty : Bool)
    (he : Touched w.table t' m (w.table.mb m).path dirty)
    (hmod : ∀ a, (w.table.mb a).inUse = true →
      (Modifies w env call out a ↔ a = m ∧ dirty = true))
    (hstay : ∀ old new, call = .rename old new → absPath env old = absPath env new) :
    LeavesTable w rows env call out t' :=
  Or.inr (Or.inr ⟨rows, .touch he hmod hstay⟩)

/-! Calls on a descriptor. -/

theorem onData_frames {α : Type} (x : Op DataShm α) : Frames World.table (onData x) :=
  .zoom x (fun _ _ => rfl)

theorem setFddes_frames (fd : Int) (f : FdInfo → FdInfo) : Frames World.table (setFddes fd f) :=
  .ite (.modify (fun _ => rfl)) (Keeps.throw _).frames

theorem locate_frames (b : Build) (fd : Int) (f : FdInfo) (first : Nat) (offset : Int) :
    Frames World.table (locate b fd f first offset) := by
  unfold locate
  dsimp only
  refine .ite (Keeps.pure _).frames ((onData_frames _).bind (fun r => ?_))
  cases r with
  | none => exact (Keeps.pure _).frames
  | some ix =>
      dsimp only
      split
      · exact (setFddes_frames _ _).bind (fun _ => (Keeps.pure _).frames)
      · exact (Keeps.pure _).frames

/-- A call on a descriptor ends where the call on a descriptor of the store ends,
or without a change. -/
theorem fdCall_table {x : Op World Ret} {a b : Ret} {k : FdInfo → Op World Ret}
    (hx : x = fddes fd >>= fun f => if f.exclusive then pure a else if f.empty then pure b else k f)
    (hmod : (∀ m, ¬ UserFd w fd m) → ∀ out a, ¬ Modifies w env call out a)
    (hk : ∀ m, UserFd w fd m → Ends (k (w.fdTable fd.toNat) w)
      (fun r w' => LeavesTable w rows env call (.ret r) w'.table)
      (fun e w' => LeavesTable w rows env call (.halt e) w'.table)) :
    Ends (x w) (fun r w' => LeavesTable w rows env call (.ret r) w'.table)
      (fun e w' => LeavesTable w rows env call (.halt e) w'.table) := by
  by_cases hex : ∃ m, UserFd w fd m
  · obtain ⟨m, hu⟩ := hex
    rw [hx, fddes_eq hu, hu.exclusive, hu.nonempty]
    exact hk m hu
  · have hno : ∀ m, ¬ UserFd w fd m := fun m hu => hex ⟨m, hu⟩
    subst hx
    by_cases hin : 0 ≤ fd ∧ fd < maxNumFd
    · rw [fddes, bind_assoc, run_get_bind, if_pos hin, run_pure_bind, run_ite]
      by_cases hexcl : (w.fdTable fd.toNat).exclusive = true
      · rw [if_pos hexcl]
        exact .keep rfl (fun a _ => hmod hno _ a)
      · rw [if_neg hexcl, run_ite]
        by_cases hempty : (w.fdTable fd.toNat).empty = true
        · rw [if_pos hempty]
          exact .keep rfl (fun a _ => hmod hno _ a)
        · exact absurd ⟨hin.1, hin.2, by simpa using hexcl, by simpa using hempty, rfl⟩ (hno _)
    · rw [fddes, bind_assoc, run_get_bind, if_neg hin]
      exact Or.inr (Or.inl rfl)

theorem sysRead_table (fd : Int) (count : UInt64) :
    Ends (sysRead env fd count w)
      (fun r w' => LeavesTable w rows env (.read fd count) (.ret r) w'.table)
      (fun e w' => LeavesTable w rows env (.read fd count) (.halt e) w'.table) := by
  refine fdCall_table rfl (fun _ _ _ => id) (fun m hu => ?_)
  rw [run_get_bind]
  refine (onData_frames _).then (fun r w₁ htab => ?_) (fun e w₁ htab => .keep htab (fun _ _ => id))
  rw [run_ite]
  split
  · rw [run_setMb, setFddes_eq hu.pos hu.lt, htab, hu.mindex]
    have he : Touched w.table (w.table.setMb m (fun b =>
        { b with lastDbucket := r.dbindex, lastDbOffset := toInt r.off })) m
        (w.table.mb m).path false :=
      .setMb rfl rfl rfl (fun _ => rfl) (Bool.and_true _).symm
    exact .touch m false he (fun a _ => ⟨False.elim, fun h => absurd h.2 (by simp)⟩)
      (fun _ _ h => by cases h)
  · exact .keep htab (fun _ _ => id)

theorem UserFd.wrote_iff {m : Nat} (hu : UserFd w fd m) (n : Nat) (a : Int) :
    ((∃ i : Nat, a = i ∧ UserFd w fd i) ∧ 0 < (n : Int)) ↔ a = m ∧ 0 < n := by
  refine and_congr ⟨?_, fun ha => ⟨m, ha, hu⟩⟩ Int.natCast_pos
  rintro ⟨i, rfl, hi⟩
  rw [← hi.mindex, hu.mindex]

theorem sysWrite_table (fd : Int) (buf : List Byte) :
    Ends (sysWrite defaultBuild env fd buf w)
      (fun r w' => LeavesTable w rows env (.write fd buf) (.ret r) w'.table)
      (fun e w' => LeavesTable w rows env (.write fd buf) (.halt e) w'.table) := by
  refine fdCall_table rfl ?_ (fun m hu => ?_)
  · rintro hno out a ⟨⟨i, _, hu⟩, _⟩
    exact hno i hu
  · rw [run_get_bind]
    refine (onData_frames _).then (fun r w₁ htab => ?_)
      (fun e w₁ htab => .keep htab (fun _ _ h => absurd h.2 (by simp [Out.num])))
    have hmod : ∀ a : Int, Modifies w env (.write fd buf) (.ret { ret := r.n, err := .ok }) a ↔
        a = m ∧ 0 < r.n := hu.wrote_iff r.n
    rw [run_ite]
    by_cases hpos : r.n > 0
    · rw [if_pos hpos, run_setMb, setFddes_eq hu.pos hu.lt, mbModify, run_setMb]
      dsimp only [World.setFd]
      rw [run_setMb, ends_pure]
      dsimp only
      rw [setMb_setMb, setMb_setMb, htab, hu.mindex]
      refine .touch m true (.setMb rfl rfl rfl (fun _ => rfl) (Bool.and_false _).symm) ?_
          (fun _ _ h => by cases h)
      exact fun a _ => (hmod a).trans (and_congr_right (fun _ => iff_of_true hpos rfl))
    · rw [if_neg hpos]
      dsimp only
      rw [run_setMb, ends_pure]
      dsimp only
      rw [htab, hu.mindex]
      refine .touch m false (.setMb rfl rfl rfl (fun _ => rfl) (Bool.and_true _).symm) ?_
          (fun _ _ h => by cases h)
      exact fun a _ => (hmod a).trans (and_congr_right (fun _ => iff_of_false hpos (by simp)))

theorem sysPread_table (fd : Int) (count : UInt64) (offset : Int) :
    Ends (sysPread defaultBuild env fd count offset w)
      (fun r w' => LeavesTable w rows env (.pread fd count offset) (.ret r) w'.table)
      (fun e w' => LeavesTable w rows env (.pread fd count offset) (.halt e) w'.table) := by
  refine fdCall_table rfl (fun _ _ _ => id) (fun m hu => ?_)
  rw [run_get_bind]
  refine (locate_frames _ _ _ _ _).then (fun r w₁ htab => ?_)
    (fun e w₁ htab => .keep htab (fun _ _ => id))
  cases r with
  | none => exact .keep htab (fun _ _ => id)
  | some ix =>
      dsimp only
      refine (onData_frames _).then (fun data w₂ htab₂ => ?_)
        (fun e w₂ htab₂ => .keep (htab₂.trans htab) (fun _ _ => id))
      rw [run_ite]
      split
      · rw [setFddes_eq hu.pos hu.lt]
        exact .keep (htab₂.trans htab) (fun _ _ => id)
      · exact .keep (htab₂.trans htab) (fun _ _ => id)

theorem sysPwrite_table (fd : Int) (buf : List Byte) (offset : Int) :
    Ends (sysPwrite defaultBuild env fd buf offset w)
      (fun r w' => LeavesTable w rows env (.pwrite fd buf offset) (.ret r) w'.table)
      (fun e w' => LeavesTable w rows env (.pwrite fd buf offset) (.halt e) w'.table) := by
  refine fdCall_table rfl ?_ (fun m hu => ?_)
  · rintro hno out a ⟨⟨i, _, hu⟩, _⟩
    exact hno i hu
  have hstop : ∀ (e : Halt) (a : Int), ¬ Modifies w env (.pwrite fd buf offset) (.halt e) a :=
    fun e a h => absurd h.2 (by simp [Out.num])
  rw [run_get_bind]
  refine (locate_frames _ _ _ _ _).then (fun r w₁ htab => ?_)
    (fun e w₁ htab => .keep htab (fun a _ => hstop e a))
  cases r with
  | none => exact .keep htab (fun a _ h => absurd h.2 (by simp [Out.num]))
  | some ix =>
      dsimp only
      refine (onData_frames _).then (fun r w₂ htab₂ => ?_)
        (fun e w₂ htab₂ => .keep (htab₂.trans htab) (fun a _ => hstop e a))
      have hmod : ∀ a : Int, Modifies w env (.pwrite fd buf offset)
          (.ret { ret := r.n, err := .ok }) a ↔ a = m ∧ 0 < r.n := hu.wrote_iff r.n
      rw [run_ite]
      by_cases hpos : r.n > 0
      · rw [if_pos hpos, setFddes_eq hu.pos hu.lt, mbModify, run_setMb]
        dsimp only [World.setFd]
        rw [run_setMb, ends_pure]
        dsimp only
        rw [setMb_setMb, htab₂, htab, hu.mindex]
        refine .touch m true (.setMb rfl rfl rfl (fun _ => rfl) (Bool.and_false _).symm) ?_
          (fun _ _ h => by cases h)
        exact fun a _ => (hmod a).trans (and_congr_right (fun _ => iff_of_true hpos rfl))
      · rw [if_neg hpos]
        rw [run_setMb, ends_pure]
        dsimp only
        rw [htab₂, htab, hu.mindex]
        refine .touch m false (.setMb rfl rfl rfl (fun _ => rfl) (Bool.and_true _).symm) ?_
          (fun _ _ h => by cases h)
        exact fun a _ => (hmod a).trans (and_congr_right (fun _ => iff_of_false hpos (by simp)))

theorem sysClose_table (fd : Int) :
    Ends (sysClose env fd w)
      (fun r w' => LeavesTable w rows env (.close fd) (.ret r) w'.table)
      (fun e w' => LeavesTable w rows env (.close fd) (.halt e) w'.table) := by
  refine (sysClose_ends env fd w).mono ?_ ?_
  · rintro r w' ⟨_, _, hclose⟩
    cases hclose with
    | kernel => exact .keep rfl (fun _ _ => id)
    | refused => exact .keep rfl (fun _ _ => id)
    | unopened => exact .keep rfl (fun _ _ => id)
    | @store m hu =>
        have he : Touched w.table (w.table.setMb m
            (fun b => { b with s := closeStamps (w.fdTable fd.toNat) b.s })) m
            (w.table.mb m).path false :=
          .setMb rfl rfl rfl (fun _ => rfl) (Bool.and_true _).symm
        exact .touch _ false he (fun a _ => ⟨False.elim, fun h => absurd h.2 (by simp)⟩)
          (fun _ _ h => by cases h)
  · rintro e w' ⟨rfl, _, _⟩
    exact Or.inr (Or.inl rfl)

end Spacefish
