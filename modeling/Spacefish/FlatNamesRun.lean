import Spacefish.FlatNames
import Spacefish.FdFrames
import Spacefish.Flush

/-!
`rename`, the stat calls and uploads on the flat files, and the refinement over runs
of all calls.
-/

namespace Spacefish

open LinkedArray Program Buffer

variable {s s' : Sys} {rows rows' : Nat → List Int} {ch ch' : Int → List Nat} {a a' : Flat}
  {pid n : Nat} {fd : Int} {env : Env} {e : Event} {out : Out} {w w' : World} {m b : Int}
  {pathname p q old new name : Path} {f : FlatFile} {t t' : MetaShm}

/-- The path has a file in the store. -/
def InStore (s : Sys) (p : Path) : Prop :=
  ∃ m, (s.table.mb m).inUse = true ∧ (s.table.mb m).path = p

/-- The rename takes a file of the store to a path that fits its field, in another row
when it is another path. -/
def Moves (s : Sys) (env : Env) (old new : Path) : Prop :=
  old ≠ new → old.length ≤ pathMax → new.length ≤ pathMax →
    ∀ p q, absPath env old = .ok p → absPath env new = .ok q →
      InStore s p ∧ q.length < pathMax ∧ (hash p = hash q → p = q)

/-! `rename` -/

theorem FlatInv.find_of_inStore {h : Nat} (hinv : FlatInv s rows ch a) (hin : InStore s p)
    (hok : hash p = .ok h) :
    ∃ m, findPath s.table p (rows h) = some m := by
  obtain ⟨m, huse, hpath⟩ := hin
  cases hfind : findPath s.table p (rows h) with
  | some m => exact ⟨m, rfl⟩
  | none => exact absurd hpath (hinv.named.absent hinv.tableWf hok hfind m huse)

/-- The descriptors after a rename. -/
theorem FlatInv.moved_fds {hn : Nat} {lost : Option Int} (hinv : FlatInv s rows ch a)
    (hr : Renamed s.table t' rows rows' hn m lost q) (hm : (s.table.mb m).inUse = true)
    (hq : q.length ≤ pathMax) (hlost : ∀ b, lost = some b → ¬ Held s b) (x i : Nat) :
    (a.move (s.table.mb m).path q f).fds x i = (s.fds x i).flat t' := by
  change (if a.fds x i = .file _ then .file q else a.fds x i) = _
  rw [hinv.sim.fds]
  by_cases hmoved : (s.fds x i).flat s.table = .file (s.table.mb m).path
  · rw [if_pos hmoved]
    obtain ⟨huser, hpath⟩ := FdInfo.flat_eq_file.mp hmoved
    have hidx := hinv.sim.unique _ m (hinv.slot_used x i huser) hm hpath
    rw [FdInfo.flat_user huser, hidx, hr.moved.path]
    exact congrArg FlatFd.file (List.take_of_length_le hq).symm
  · rw [if_neg hmoved]
    refine (FdInfo.flat_congr rfl rfl (fun huser => ?_)).symm
    have hidx : ((s.fds x i).mindex : Int) ≠ m :=
      fun heq => hmoved (FdInfo.flat_eq_file.mpr ⟨huser, by rw [heq]⟩)
    exact (hr.same _ hidx (fun hl => hlost _ hl (isUser_held huser))).path

theorem edited_mark (t : MetaShm) (m : Int) :
    Edited t (t.setMb m (fun b => { b with consisent := false })) m id :=
  Edited.setMb rfl

/-- The end of a rename whose two names are one path. -/
theorem FlatInv.renameSame {h : Nat} (hinv : FlatInv s rows ch a) (hcall : e.call = .rename old new)
    (hspares : Spares s e) (hold : absPath e.env old = .ok p) (hnew : absPath e.env new = .ok p)
    (hok : hash p = .ok h) (hfind : findPath s.table p (rows h) = some m)
    (hm : (s.table.mb m).inUse = true) (hfile : a.files p = some f) :
    NameEnds s a e (· = .undefined) ((do
      match ← onMeta (getMbucket p) with
      | some mb =>
          mbModify mb
          return { ret := 0, err := .ok }
      | none => throw .undefined : Op World Ret) (s.view e.pid)) := by
  have hget := hinv.tableWf.getMbucket_eq hok (hinv.idle h)
  rw [hfind] at hget
  rw [bind_of_ok (onMeta_of_ok (w := s.view e.pid) hget)]
  have he := edited_mark s.table m
  refine ⟨a, rows, ch, .renamedSame hcall hold hnew hfile, hinv.retable (e := e) ?_ ?_ hspares
    (hinv.named.congr (he.inUse .id) (he.path (fun _ => rfl))) (fun _ => rfl) ?_⟩
  · exact .stay (hinv.store e.pid) hm he
  · rw [hcall]
    exact fun _ _ _ h => by cases h
  · refine Represents.marked m ?_
    have hsame := put_view s e.pid
    exact hsame.symm ▸ hinv.sim

/-- The end of a rename to another path. -/
theorem FlatInv.renameMoved {hn : Nat} {t₁ : MetaShm} (hinv : FlatInv s rows ch a)
    (hcall : e.call = .rename old new) (hspares : Spares s e)
    (hold : absPath e.env old = .ok (s.table.mb m).path) (hnew : absPath e.env new = .ok q)
    (hne : (s.table.mb m).path ≠ q) (hq : q.length < pathMax) (hokq : hash q = .ok hn)
    (hm : (s.table.mb m).inUse = true)
    (hr : Renamed s.table t₁ rows rows' hn m (findPath s.table q (rows hn)) q) :
    NameEnds s a e (· = .undefined) ((do
      match ← onMeta (getMbucket q) with
      | some mb =>
          mbModify mb
          return { ret := 0, err := .ok }
      | none => throw .undefined : Op World Ret) { s.view e.pid with table := t₁ }) := by
  have hqle := Nat.le_of_lt hq
  obtain ⟨f, hfile, _⟩ := hinv.sim.file m hm
  have huse : (t₁.mb m).inUse = true := hr.moved.inUse.trans hm
  have hget : getMbucket q t₁ = .ok (some m) t₁ := by
    rw [hr.wf.getMbucket_eq hokq ((hr.locks hn).trans (hinv.idle hn)), hr.found]
  rw [bind_of_ok (onMeta_of_ok (w := { s.view e.pid with table := t₁ }) hget)]
  have he := edited_mark t₁ m
  have hlost : ∀ b, findPath s.table q (rows hn) = some b →
      (s.table.mb b).inUse = true ∧ (s.table.mb b).path = q :=
    fun b hb => hinv.found_path hokq hb
  have hfree : ∀ b, (s.table.mb b).inUse = true → (s.table.mb b).path = q → ¬ Held s b := by
    intro b hb hbq hheld
    refine hspares b hb hheld ?_
    rw [hcall]
    exact ⟨q, hnew, by rw [hbq]; simp [samePath]⟩
  have hclosed : a.Closed q := by
    intro x i hopen
    rw [hinv.sim.fds, FdInfo.flat_eq_file] at hopen
    exact hfree _ (hinv.slot_used x i hopen.1) hopen.2 (isUser_held hopen.1)
  have hnamed := hr.named hinv.named hokq hq (fun b hb hbq => by
    rw [findPath_iff hinv.tableWf hinv.named hokq hq]
    exact ⟨hb, hbq⟩)
  refine ⟨a.move (s.table.mb m).path q f, rows', ch, .renamed hcall hold hnew hne hfile hclosed,
    hinv.retable (e := e) ?_ ?_ hspares (hnamed.congr (he.inUse .id) (he.path (fun _ => rfl)))
    hr.locks ?_⟩
  · rw [hcall]
    exact .rename hnew (fun b hb => findPath_same hb) hr huse he
  · rw [hcall]
    exact fun _ _ _ h => by cases h
  · refine Represents.marked m ⟨?_, fun x i => ?_⟩
    · exact hinv.sim.toFilesAre.moved rfl hr hm hfile hqle (fun b hb => (hlost b hb).2)
        hnamed.unique
    · rw [put_table_fds]
      exact hinv.moved_fds hr hm hqle (fun b hb => hfree b (hlost b hb).1 (hlost b hb).2) x i

theorem FlatInv.rename (hinv : FlatInv s rows ch a) (hcall : e.call = .rename old new)
    (hspares : Spares s e) (hmoves : Moves s e.env old new) :
    NameEnds s a e (· = .undefined) (sysRename e.env old new (s.view e.pid)) := by
  have hlong : e.call.TooLong ↔ old ≠ new ∧ (pathMax < old.length ∨ pathMax < new.length) := by
    rw [hcall]
    rfl
  have hexits : ∀ u, e.call.Exits e.env u ↔
      old ≠ new ∧ (PathExit e.env old u ∨ PathExit e.env new u) := by
    rw [hcall]
    exact fun _ => Iff.rfl
  unfold sysRename
  rw [run_ite]
  by_cases hself : old = new
  · subst hself
    rw [if_pos rfl]
    exact hinv.returned (.renamedSelf hcall)
  rw [if_neg hself, run_ite]
  by_cases hlen : old.length > pathMax ∨ new.length > pathMax
  · rw [if_pos hlen]
    exact hinv.returned (.tooLong (hlong.mpr ⟨hself, hlen⟩))
  rw [if_neg hlen]
  replace hlong : ¬ e.call.TooLong := fun h => hlen (hlong.mp h).2
  rw [not_or, not_lt, not_lt] at hlen
  rcases absPath_cases e.env old with ⟨p, hold, hrunold⟩ | ⟨h, hstop, herr, hrun⟩
  swap
  · rw [bind_of_error (hrun _)]
    exact hinv.pathStopped hspares hlong hstop
      (fun u hu => (hexits u).mpr ⟨hself, Or.inl (Or.inl (hu ▸ herr))⟩)
  rw [bind_of_ok (hrunold _)]
  rcases absPath_cases e.env new with ⟨q, hnew, hrunnew⟩ | ⟨h, hstop, herr, hrun⟩
  swap
  · rw [bind_of_error (hrun _)]
    exact hinv.pathStopped hspares hlong hstop
      (fun u hu => (hexits u).mpr ⟨hself, Or.inr (Or.inl (hu ▸ herr))⟩)
  rw [bind_of_ok (hrunnew _)]
  obtain ⟨hin, hq, hrows⟩ := hmoves hself hlen.1 hlen.2 p q hold hnew
  have hp := absPath_length hold hlen.1
  have hqle := Nat.le_of_lt hq
  obtain ⟨m, hm, rfl⟩ := hin
  obtain ⟨f, hfile, _⟩ := hinv.sim.file m hm
  obtain ⟨ho, _, hmem⟩ := (hinv.tableWf.inUse_iff m).mp hm
  have hok := hinv.named.hashed ho ‹_› m hmem
  obtain ⟨m', hfind⟩ := hinv.find_of_inStore ⟨m, hm, rfl⟩ hok
  obtain ⟨hm', hmp'⟩ := hinv.found_path hok hfind
  obtain rfl : m' = m := hinv.named.unique m' m hm' hm hmp'
  by_cases hpq : (s.table.mb m').path = q
  · subst hpq
    have hrun : mbChpath (s.table.mb m').path (s.table.mb m').path s.table = .ok 0 s.table := by
      rw [mbChpath, run_ite, if_pos (by simp [samePath])]
      rfl
    rw [bind_of_ok (onMeta_of_ok (w := s.view e.pid) hrun), run_ite, if_neg (by decide)]
    exact hinv.renameSame hcall hspares hold hnew hok hfind hm hfile
  have hdiff : samePath (s.table.mb m').path q = false := by
    cases hsame : samePath (s.table.mb m').path q with
    | false => rfl
    | true => exact absurd (samePath_eq hp hqle hsame) hpq
  rcases hash_cases q with ⟨hn, _, hokq⟩ | herr
  · have hne : ho ≠ hn := fun heq => hpq (hrows (by rw [hok, hokq, heq]))
    obtain ⟨t₁, rows', hrun, hr⟩ := hinv.tableWf.mbChpath_eq hok hokq hne (hinv.idle ho)
      (hinv.idle hn) hdiff hfind
    rw [bind_of_ok (onMeta_of_ok (w := s.view e.pid) hrun), run_ite, if_neg (by decide)]
    exact hinv.renameMoved hcall hspares hold hnew hpq hq hokq hm hr
  · have hrun : mbChpath (s.table.mb m').path q s.table =
        .error (.exit .badHashFunctionInput) s.table := by
      rw [mbChpath, run_ite, if_neg (by simp [hdiff]), bind_of_ok (hashRow_eq hok),
        hashRow_error herr]
    have hview : onMeta (mbChpath (s.table.mb m').path q) (s.view e.pid) =
        .error (.exit .badHashFunctionInput) { s.view e.pid with table := s.table } :=
      zoom_of_error hrun
    rw [bind_of_error hview]
    exact hinv.exited hspares hlong
      ((hexits _).mpr ⟨hself, Or.inr (Or.inr ⟨q, hnew, herr⟩)⟩) rfl rfl

/-! The stat calls. -/

theorem FlatInv.xstat (hinv : FlatInv s rows ch a) (hcall : e.call = .xstat pathname)
    (hspares : Spares s e) :
    NameEnds s a e (· = .undefined) (sysXstat e.env pathname (s.view e.pid)) := by
  have hlong : e.call.TooLong ↔ pathMax < pathname.length := by
    rw [hcall]
    rfl
  have hexits : ∀ u, PathExit e.env pathname u → e.call.Exits e.env u := by
    rw [hcall]
    exact fun _ hwhy => hwhy
  unfold sysXstat statPath
  rw [run_ite]
  by_cases hlen : pathname.length > pathMax
  · rw [if_pos hlen]
    exact hinv.returned (.tooLong (hlong.mpr hlen))
  rw [if_neg hlen]
  replace hlong := mt hlong.mp hlen
  rcases absPath_cases e.env pathname with ⟨p, hpath, hrun⟩ | ⟨h, hstop, herr, hrun⟩
  swap
  · rw [bind_of_error (hrun _)]
    exact hinv.pathStopped hspares hlong hstop (fun u hu => hexits u (Or.inl (hu ▸ herr)))
  rw [bind_of_ok (hrun _), NameEnds, ends_bind, onMeta, ends_zoom]
  refine (getMbucket_ends hinv.tableWf p).mono ?_ (fun _ _ hstop =>
    hinv.rowStopped (E := (· = .undefined)) hspares hlong hstop
      (fun u hu => hexits u (Or.inr ⟨p, hpath, hu⟩)))
  rintro r t' ⟨rfl, h, hok, rfl⟩
  cases hfind : findPath s.table p (rows h) with
  | some m =>
      obtain ⟨hm, hmp⟩ := hinv.found_path hok hfind
      obtain ⟨f, hfile, his⟩ := hinv.sim.file m hm
      rw [hmp] at hfile
      exact hinv.returned (.stat hcall hpath hfile his.size)
  | none =>
      have hdisk : NameStep a e (.ret (statReply e.env (e.env.realStat pathname))) a :=
        .statDisk hcall hpath (hinv.absent hok hfind)
      dsimp only
      cases hstat : e.env.realStat pathname with
      | ok st =>
          rw [hstat] at hdisk
          exact hinv.returned hdisk
      | error err =>
          rw [hstat] at hdisk
          exact hinv.returned hdisk

theorem FlatInv.fxstat (hinv : FlatInv s rows ch a) (hcall : e.call = .fxstat fd)
    (hu : UserFd (s.view e.pid) fd n) :
    NameEnds s a e (fun _ => False) (sysFxstat e.env fd (s.view e.pid)) := by
  obtain ⟨huse, _⟩ := hinv.user hu
  obtain ⟨f, hfile, his⟩ := hinv.sim.file n huse
  unfold sysFxstat
  rw [fddes_eq hu, hu.exclusive, hu.nonempty, hu.mindex, if_neg Bool.false_ne_true,
    if_neg Bool.false_ne_true, run_get_bind, run_ite]
  change NameEnds s a e _ (if (s.table.mb n).inUse = true then _ else _)
  rw [if_pos huse]
  exact hinv.returned (.fstat hcall (hinv.sim.entry_user hu) hfile his.size)

/-- `fstat` of a descriptor that is not one of the store. -/
theorem FlatInv.fxstatOther (hinv : FlatInv s rows ch a) (hcall : e.call = .fxstat fd)
    (hno : ∀ n, ¬ UserFd (s.view e.pid) fd n) :
    NameEnds s a e (· = .undefined) (sysFxstat e.env fd (s.view e.pid)) := by
  have hreply : kernelReply e.env e.call = statReply e.env (e.env.realFstat fd) := by
    rw [hcall]
    rfl
  have hends := hinv.notUser (x := sysFxstat e.env fd) (by rw [hcall]; rfl) hno
    (fun _ => by rw [hcall]; exact nofun) (by
      rw [hreply, sysFxstat]
      cases e.env.realFstat fd <;> rfl)
  refine hends.mono ?_ (fun _ _ hstop => Or.inl hstop)
  rintro r w' ⟨rfl, hstep⟩
  exact hinv.returned (E := (· = .undefined)) (.file hstep)

/-! Uploads. -/

/-- What `open` makes of the cursor of file `m`. -/
def MetaShm.rewind (t : MetaShm) (m : Int) : MetaShm :=
  t.setMb m (fun b => { b with lastDbucket := b.firstDbucket, lastDbOffset := 0 })

theorem edited_rewind (t : MetaShm) (m : Int) : Edited t (t.rewind m) m rewound :=
  Edited.setMb rfl

/-- The files do not depend on the cursor of a file that has none. -/
theorem FilesAre.unrewind {files : Path → Option FlatFile} {w₁ : World}
    (hfiles : FilesAre (s.put pid { w₁ with table := w₁.table.rewind m }) files)
    (hlast : (w₁.table.mb m).lastDbucket = noIx) : FilesAre (s.put pid w₁) files := by
  have he := edited_rewind w₁.table m
  have hin := he.inUse Seeks.rewound.toStays
  have hpath := he.path Seeks.rewound.path
  refine ⟨?_, ?_, ?_⟩
  · intro b hb
    obtain ⟨f, hf, his⟩ := hfiles.file b ((hin b).trans hb)
    refine ⟨f, (congrArg files (hpath b)).symm.trans hf, ?_⟩
    by_cases hbm : b = m
    · subst hbm
      have hchain : fileChain (s.put pid w₁) b =
          fileChain (s.put pid { w₁ with table := w₁.table.rewind b }) b :=
        congrArg (chainFrom w₁.data walkFuel) (he.first rfl b).symm
      refine ⟨?_, ?_, fun hne => absurd hlast hne⟩
      · rw [hchain]
        exact his.content
      · exact he.size.symm.trans his.size
    · have hcore := he.other b hbm
      exact his.kept rfl (congrArg FileCore.first hcore).symm (congrArg FileCore.last hcore).symm
        (congrArg FileCore.off hcore).symm (congrArg FileCore.size hcore).symm
  · intro p f hf
    obtain ⟨b, hb, hbp⟩ := hfiles.only p f hf
    exact ⟨b, (hin b).symm.trans hb, (hpath b).symm.trans hbp⟩
  · intro b c hb hc hbc
    refine hfiles.unique b c ((hin b).trans hb) ((hin c).trans hc) ?_
    exact (hpath b).trans (hbc.trans (hpath c).symm)

/-- The state after an upload. -/
theorem FlatInv.filled {buf : List Byte} {h ix : Nat} {new : List Nat} {o : WriteOut} {w₁ : World}
    (hinv : FlatInv s rows ch a) (hcall : e.call = .upload name) (hspares : Spares s e)
    (hfill : Filled (s.view e.pid) rows name buf h m ix new (some o) w₁) :
    ∃ rows' ch', FlatInv (s.put e.pid w₁) rows' ch' (a.setFile name ⟨buf, 0⟩) := by
  have hdata : ({ w₁ with table := w₁.table.rewind m } : World).data = w₁.data := rfl
  have hfiles := hinv.made hfill (edited_rewind w₁.table m) hdata
  obtain ⟨hfresh, _, _, _, hlast, _⟩ := hfill.core_eq (hinv.store e.pid)
  have heff : ∀ call, Effect (s.view e.pid) rows ch e.env call true
      ⟨w₁.table, w₁.data, Function.update rows h (rows h ++ [m]),
        Function.update ch m (ix :: new)⟩ :=
    fun call => .fill hfill (.refl _ _) (Or.inl rfl)
  have hfds : (s.put e.pid w₁).fds = s.fds := by
    change Function.update s.fds e.pid w₁.fdTable = s.fds
    rw [hfill.file.fds]
    exact Function.update_eq_self ..
  have hsys : SysStep s e (.ret { ret := 0, err := .ok }) rows ch true (s.put e.pid w₁)
      (Function.update rows h (rows h ++ [m])) (Function.update ch m (ix :: new)) := by
    refine ⟨heff _, fun q hq => Function.update_of_ne hq _ _, fun r _ => ?_, (fun _ h => by cases h),
      (fun h => by cases h)⟩
    rw [hfds]
    exact .same
  refine ⟨_, _, hsys.repInv hinv.rep hspares, ?_, ?_, ?_, ?_⟩
  · exact (heff (.close 0)).named trivial hinv.tableWf hinv.named
  · exact (heff (.close 0)).idle trivial hinv.idle
  · refine (heff e.call).allTight ?_ (hinv.store e.pid) hinv.tight
    rw [hcall]
    exact fun _ _ _ h => by cases h
  · refine hinv.unslotted (hfiles.unrewind hlast) rfl hfill.file.fds (fun b hb => ?_)
    have hbm : b ≠ m := by
      rintro rfl
      exact absurd (hb.symm.trans hfresh) (by simp)
    exact congrArg FileCore.path (hfill.file.core_eq hbm)

theorem FlatInv.upload (hinv : FlatInv s rows ch a) (hcall : e.call = .upload name)
    (hshort : ¬ ShortRead e.env name) :
    NameEnds s a e (fun h => h = .undefined ∨ h = .exit .dataBucketOverUse)
      (callOp defaultBuild e.env (.upload name) (s.view e.pid)) := by
  have hspares : Spares s e := by
    intro m _ _ hhits
    rw [hcall] at hhits
    exact hhits
  have hlong : ¬ e.call.TooLong := by
    rw [hcall]
    exact fun h => h
  unfold callOp
  rw [NameEnds, ends_bind]
  refine (hinv.uploads e.env e.pid hshort).mono ?_ ?_
  · rintro r w' (⟨err, rfl, herr, rfl⟩ | ⟨buf, k, m, ix, new, o, rfl, hbuf, hfill⟩)
    · exact hinv.returned (E := fun h => h = .undefined ∨ h = .exit .dataBucketOverUse)
        (.refused hcall herr)
    · obtain ⟨rows', ch', hinv'⟩ := hinv.filled hcall hspares hfill
      exact ⟨_, rows', ch', .uploaded hcall hbuf, hinv'⟩
  · rintro h w' (rfl | rfl | ⟨u, rfl, herr, htab, hdata⟩)
    · exact Or.inl (Or.inl rfl)
    · exact Or.inl (Or.inr rfl)
    · exact hinv.exited (E := fun h => h = .undefined ∨ h = .exit .dataBucketOverUse) hspares
        hlong (by rw [hcall]; exact herr) htab hdata

/-! Runs. -/

/-- The calls of the runs: those on descriptors as they are there, `unlink` and `rename`
of files that no descriptor loses, where a rename finds its file and takes it to another
row, both stat calls and complete uploads. The data buckets are not exhausted, and the
paths fit their buffers. -/
def NameAllowed (s : Sys) (e : Event) (out : Out) : Prop :=
  match e.call with
  | .unlink _ => Spares s e ∧ out ≠ .halt .undefined
  | .rename old new => Spares s e ∧ Moves s e.env old new ∧ out ≠ .halt .undefined
  | .xstat _ => out ≠ .halt .undefined
  | .fxstat fd => (∀ n, ¬ UserFd (s.view e.pid) fd n) → out ≠ .halt .undefined
  | .upload name => ¬ ShortRead e.env name ∧ out ≠ .halt (.exit .dataBucketOverUse) ∧
      out ≠ .halt .undefined
  | _ => FlatAllowed s e out

/-- A call on a name is a step of the model. -/
theorem NameEnds.step {E : Halt → Prop}
    (hends : NameEnds s a e E (callOp defaultBuild e.env e.call (s.view e.pid)))
    (hexec : exec defaultBuild s e = (out, s')) (hout : ∀ h, E h → out ≠ .halt h) :
    ∃ a' rows' ch', NameStep a e out a' ∧ FlatInv s' rows' ch' a' := by
  rcases exec_ends hends hexec with ⟨r, w', rfl, rfl, hstep⟩ | ⟨h, w', rfl, rfl, hstop | hstep⟩
  · exact hstep
  · exact absurd rfl (hout h hstop)
  · exact hstep

/-- Every admitted call is a step of the model. -/
theorem FlatInv.nameStep (hinv : FlatInv s rows ch a) (hallow : NameAllowed s e out)
    (hexec : exec defaultBuild s e = (out, s')) :
    ∃ a' rows' ch', NameStep a e out a' ∧ FlatInv s' rows' ch' a' := by
  have hflat : FlatAllowed s e out → ∃ a' rows' ch', NameStep a e out a' ∧
      FlatInv s' rows' ch' a' := by
    intro hflat
    obtain ⟨a', rows', ch', hstep, hinv'⟩ := hinv.step hflat hexec
    exact ⟨a', rows', ch', .file hstep, hinv'⟩
  obtain ⟨pid, env, call⟩ := e
  cases call with
  | unlink pathname =>
      obtain ⟨hspares, hdef⟩ := hallow
      refine NameEnds.step (hinv.unlink (e := ⟨pid, env, .unlink pathname⟩) rfl hspares) hexec ?_
      rintro h rfl
      exact hdef
  | rename old new =>
      obtain ⟨hspares, hmoves, hdef⟩ := hallow
      refine NameEnds.step (hinv.rename (e := ⟨pid, env, .rename old new⟩) rfl hspares hmoves)
        hexec ?_
      rintro h rfl
      exact hdef
  | xstat pathname =>
      refine NameEnds.step (hinv.xstat (e := ⟨pid, env, .xstat pathname⟩) rfl ?_) hexec ?_
      · exact fun _ _ _ hhits => hhits
      · rintro h rfl
        exact hallow
  | fxstat fd =>
      by_cases hex : ∃ n, UserFd (s.view pid) fd n
      · obtain ⟨n, hu⟩ := hex
        exact NameEnds.step (hinv.fxstat (e := ⟨pid, env, .fxstat fd⟩) rfl hu) hexec
          (fun h hno => hno.elim)
      · have hno : ∀ n, ¬ UserFd (s.view pid) fd n := fun n hu => hex ⟨n, hu⟩
        refine NameEnds.step (hinv.fxstatOther (e := ⟨pid, env, .fxstat fd⟩) rfl hno) hexec ?_
        rintro h rfl
        exact hallow hno
  | upload name =>
      obtain ⟨hshort, hover, hdef⟩ := hallow
      refine NameEnds.step (hinv.upload (e := ⟨pid, env, .upload name⟩) rfl hshort) hexec ?_
      rintro h (rfl | rfl)
      · exact hdef
      · exact hover
  | «open» pathname flags mode => exact hflat hallow
  | close fd => exact hflat hallow
  | read fd count => exact hflat hallow
  | write fd buf => exact hflat hallow
  | pread fd count offset => exact hflat hallow
  | pwrite fd buf offset => exact hflat hallow

theorem FlatInv.nameRun (hinv : FlatInv s rows ch a) {es : List Event}
    (hes : Along defaultBuild NameAllowed s es) :
    ∃ a' rows' ch', NameRun a es (outs defaultBuild s es) a' ∧
      FlatInv (es.foldl (fun s e => (exec defaultBuild s e).2) s) rows' ch' a' := by
  induction es generalizing s rows ch a with
  | nil => exact ⟨a, rows, ch, rfl, hinv⟩
  | cons e es ih =>
      obtain ⟨hallow, hrest⟩ := hes
      obtain ⟨a₁, rows₁, ch₁, hstep, hinv₁⟩ := hinv.nameStep hallow rfl
      obtain ⟨a', rows', ch', hrun, hinv'⟩ := ih hinv₁ hrest
      exact ⟨a', rows', ch', ⟨a₁, hstep, hrun⟩, hinv'⟩

/-- The results of every run of all calls are results of the flat files, and the state it
reaches represents them. -/
theorem names_refine_flat {es : List Event} (hes : Along defaultBuild NameAllowed initSys es) :
    ∃ a, NameRun Flat.start es (outs defaultBuild initSys es) a ∧
      Represents (es.foldl (fun s e => (exec defaultBuild s e).2) initSys) a := by
  obtain ⟨a, _, _, hrun, hinv⟩ := initSys_flatInv.nameRun hes
  exact ⟨a, hrun, hinv.sim⟩

/-- No process has a file of the store open. -/
def Unopened (s : Sys) : Prop := ∀ q i, (s.fds q i).isUser = false

theorem Unopened.spares (hno : Unopened s) (e : Event) : Spares s e := by
  rintro m _ ⟨q, i, hempty, hexcl, _⟩ _
  exact absurd (FdInfo.isUser_iff.mpr ⟨hexcl, hempty⟩) (by rw [hno q i]; exact Bool.false_ne_true)

theorem initFdTable_unopened (i : Nat) : (initFdTable i).isUser = false := by
  rw [Bool.eq_false_iff]
  intro huser
  obtain ⟨hexcl, hempty⟩ := FdInfo.isUser_iff.mp huser
  have hexcl' : (initFd i).exclusive = false := hexcl
  rw [initFd_not_open i hempty] at hexcl'
  cases hexcl'

theorem initSys_unopened : Unopened initSys := fun _ i => initFdTable_unopened i

theorem Unopened.put (hno : Unopened s) (hw : ∀ i, (w'.fdTable i).isUser = false) :
    Unopened (s.put pid w') := by
  intro q i
  by_cases hq : q = pid
  · subst hq
    simpa [Sys.put] using hw i
  · simpa [Sys.put, hq] using hno q i

/-- A call that leaves the descriptor table alone opens nothing. -/
theorem Unopened.after (e : Event) (hno : Unopened s)
    (hframes : Frames World.fdTable (callOp defaultBuild e.env e.call)) :
    Unopened (exec defaultBuild s e).2 := by
  rcases exec_ends (hframes (s.view e.pid)) (Prod.mk.eta).symm with
    ⟨r, w', _, hs, hfds⟩ | ⟨h, w', _, hs, _⟩
  · rw [hs]
    exact hno.put (fun i => by rw [hfds]; exact hno e.pid i)
  · rw [hs]
    exact hno.put initFdTable_unopened

/-- Every file of the disk has two bytes. -/
def twoBytes : Env := diskOf [1, 2] (by decide)

/-- A file is uploaded, renamed, looked at and removed. -/
def nameTour : List Event :=
  [⟨0, twoBytes, .upload pathA⟩, ⟨0, emptyDisk, .rename pathA pathB⟩,
    ⟨0, emptyDisk, .xstat pathB⟩, ⟨0, emptyDisk, .unlink pathB⟩]

theorem nameTour_refines :
    ∃ a, NameRun Flat.start nameTour (outs defaultBuild initSys nameTour) a ∧
      Represents (nameTour.foldl (fun s e => (exec defaultBuild s e).2) initSys) a := by
  have hrets : ∀ out ∈ outs defaultBuild initSys nameTour, out.isRet = true := by
    decide +kernel
  simp only [nameTour, outs, List.forall_mem_cons] at hrets
  obtain ⟨h₁, h₂, h₃, h₄, _⟩ := hrets
  have hread : ¬ ShortRead twoBytes pathA := by
    rintro ⟨st, hst, _, hne⟩
    obtain rfl := Except.ok.inj hst
    exact hne rfl
  have hno₁ : Unopened (exec defaultBuild initSys ⟨0, twoBytes, .upload pathA⟩).2 :=
    initSys_unopened.after ⟨0, twoBytes, .upload pathA⟩ (upload_fds _ _ _)
  have hno₂ := hno₁.after ⟨0, emptyDisk, .rename pathA pathB⟩
    (sysRename_fds _ _ _)
  have hno₃ := hno₂.after ⟨0, emptyDisk, .xstat pathB⟩
    (sysXstat_fds _ _)
  refine names_refine_flat ⟨⟨hread, (Out.isRet_spec h₁).2 _, (Out.isRet_spec h₁).2 _⟩,
    ⟨hno₁.spares _, ?_, (Out.isRet_spec h₂).2 _⟩, (Out.isRet_spec h₃).2 _,
    ⟨hno₃.spares _, (Out.isRet_spec h₄).2 _⟩, trivial⟩
  intro _ _ _ p q hold hnew
  have hA : absPath emptyDisk pathA = .ok pathA := by decide +kernel
  have hB : absPath emptyDisk pathB = .ok pathB := by decide +kernel
  obtain rfl := Except.ok.inj (hA.symm.trans hold)
  obtain rfl := Except.ok.inj (hB.symm.trans hnew)
  exact ⟨⟨0, by decide +kernel⟩, by decide, fun heq => absurd heq (by decide +kernel)⟩

end Spacefish
