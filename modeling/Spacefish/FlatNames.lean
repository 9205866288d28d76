import Spacefish.FlatRun

/-!
Names on the flat files. `unlink`, `rename`, the stat calls and the uploads of a mount
act on the map from paths to files, whatever the descriptors and the other files do.
With the calls on descriptors they are all the calls of the system.
-/

namespace Spacefish

open LinkedArray Program Buffer

/-! The model. -/

def Flat.remove (a : Flat) (p : Path) : Flat :=
  { a with files := Function.update a.files p none }

/-- File `f` moves from the path `p` to the path `q`, with the descriptors that have it
open. -/
def Flat.move (a : Flat) (p q : Path) (f : FlatFile) : Flat where
  files := Function.update (Function.update a.files p none) q (some f)
  fds pid i := if a.fds pid i = .file p then .file q else a.fds pid i

/-- No process has the path open. -/
def Flat.Closed (a : Flat) (p : Path) : Prop := ∀ pid i, a.fds pid i ≠ .file p

/-- A path of the call does not fit `PATH_MAX`. -/
def Call.TooLong : Call → Prop
  | .unlink pathname => pathMax < pathname.length
  | .rename old new => old ≠ new ∧ (pathMax < old.length ∨ pathMax < new.length)
  | .xstat pathname => pathMax < pathname.length
  | _ => False

/-- The process ends with `u`: a path of the call cannot be built, or has no row. -/
def Call.Exits (env : Env) (u : UErr) : Call → Prop
  | .unlink pathname => PathExit env pathname u
  | .rename old new => old ≠ new ∧ (PathExit env old u ∨ PathExit env new u)
  | .xstat pathname => PathExit env pathname u
  | .upload name => hash name = .error u
  | _ => False

/-- `NameStep a e out a'`: the call of the event, made in `a`, ends with `out` and
leaves `a'`. -/
inductive NameStep (a : Flat) (e : Event) : Out → Flat → Prop where
  | file {out : Out} {a' : Flat} (hstep : FlatStep a e out a') : NameStep a e out a'
  | unlinked {pathname p : Path} {f : FlatFile} (hcall : e.call = .unlink pathname)
      (hpath : absPath e.env pathname = .ok p) (hfile : a.files p = some f) (hclosed : a.Closed p) :
      NameStep a e (.ret { ret := 0, err := .ok }) (a.remove p)
  | missing {pathname p : Path} (hcall : e.call = .unlink pathname)
      (hpath : absPath e.env pathname = .ok p) (hfile : a.files p = none) :
      NameStep a e (.ret { ret := -1, err := .enoent }) a
  /-- A file that had the new path is gone. -/
  | renamed {old new p q : Path} {f : FlatFile} (hcall : e.call = .rename old new)
      (hold : absPath e.env old = .ok p) (hnew : absPath e.env new = .ok q) (hne : p ≠ q)
      (hfile : a.files p = some f) (hclosed : a.Closed q) :
      NameStep a e (.ret { ret := 0, err := .ok }) (a.move p q f)
  /-- Both names are one path. -/
  | renamedSame {old new p : Path} {f : FlatFile} (hcall : e.call = .rename old new)
      (hold : absPath e.env old = .ok p) (hnew : absPath e.env new = .ok p)
      (hfile : a.files p = some f) : NameStep a e (.ret { ret := 0, err := .ok }) a
  | renamedSelf {old : Path} (hcall : e.call = .rename old old) :
      NameStep a e (.ret { ret := 0, err := .ok }) a
  | stat {pathname p : Path} {f : FlatFile} {st : Stat} (hcall : e.call = .xstat pathname)
      (hpath : absPath e.env pathname = .ok p) (hfile : a.files p = some f)
      (hsize : st.stSize = f.content.length) :
      NameStep a e (.ret { ret := 0, err := .ok, stat := some st }) a
  | statDisk {pathname p : Path} (hcall : e.call = .xstat pathname)
      (hpath : absPath e.env pathname = .ok p) (hfile : a.files p = none) :
      NameStep a e (.ret (statReply e.env (e.env.realStat pathname))) a
  | fstat {fd : Int} {p : Path} {f : FlatFile} {st : Stat} (hcall : e.call = .fxstat fd)
      (hopen : a.entry e.pid fd = some (.file p)) (hfile : a.files p = some f)
      (hsize : st.stSize = f.content.length) :
      NameStep a e (.ret { ret := 0, err := .ok, stat := some st }) a
  | uploaded {name : Path} {buf : List Byte} (hcall : e.call = .upload name)
      (hdisk : a.uploads e.env name = .ok buf) :
      NameStep a e (.ret { ret := 0, err := .ok }) (a.setFile name ⟨buf, 0⟩)
  | refused {name : Path} {err : Errno} (hcall : e.call = .upload name)
      (hwhy : a.uploads e.env name = .error err) :
      NameStep a e (.ret { ret := -1, err := err }) a
  | tooLong (hlong : e.call.TooLong) : NameStep a e (.ret { ret := -1, err := .enametoolong }) a
  | exit {u : UErr} (hshort : ¬ e.call.TooLong) (hwhy : e.call.Exits e.env u) :
      NameStep a e (.halt (.exit u)) (a.leave e.pid)

/-- The events end with the given results one after the other. -/
def NameRun : Flat → List Event → List Out → Flat → Prop
  | a, [], [], a' => a' = a
  | a, e :: es, out :: rest, a' => ∃ a₁, NameStep a e out a₁ ∧ NameRun a₁ es rest a'
  | _, _, _, _ => False

/-! The files of the store when names change. -/

variable {s s' : Sys} {rows rows' : Nat → List Int} {ch ch' : Int → List Nat} {a a' : Flat}
  {pid n : Nat} {fd : Int} {env : Env} {e : Event} {out : Out} {w w' : World} {m b : Int}
  {pathname p q old new name : Path} {files files' : Path → Option FlatFile} {f : FlatFile}
  {t' : MetaShm}

/-- A file whose chain, size and cursor are as they were, whatever its path. -/
theorem FileIs.kept (hf : FileIs s b f) (hdata : s'.data = s.data)
    (hfirst : (s'.table.mb b).firstDbucket = (s.table.mb b).firstDbucket)
    (hlast : (s'.table.mb b).lastDbucket = (s.table.mb b).lastDbucket)
    (hoff : (s'.table.mb b).lastDbOffset = (s.table.mb b).lastDbOffset)
    (hsize : (s'.table.mb b).s.stSize = (s.table.mb b).s.stSize) : FileIs s' b f := by
  have hchain : fileChain s' b = fileChain s b := by
    rw [fileChain, hdata, hfirst]
    rfl
  refine ⟨?_, ?_, ?_⟩
  · rw [hchain, hdata]
    exact hf.content
  · exact hsize.trans hf.size
  · rw [hchain, hdata, hlast, hoff]
    exact hf.cursor

/-- Files that agree in everything but links, marks and times. -/
theorem FilesAre.recore (hfiles : FilesAre s files) (hdata : s'.data = s.data)
    (hcore : ∀ b, (s'.table.mb b).core = (s.table.mb b).core) : FilesAre s' files := by
  have hin : ∀ b, (s'.table.mb b).inUse = (s.table.mb b).inUse :=
    fun b => congrArg FileCore.inUse (hcore b)
  have hpath : ∀ b, (s'.table.mb b).path = (s.table.mb b).path :=
    fun b => congrArg FileCore.path (hcore b)
  refine ⟨?_, ?_, ?_⟩
  · intro b hb
    obtain ⟨f, hf, his⟩ := hfiles.file b ((hin b).symm.trans hb)
    refine ⟨f, by rw [hpath]; exact hf, his.kept hdata (congrArg FileCore.first (hcore b))
      (congrArg FileCore.last (hcore b)) (congrArg FileCore.off (hcore b))
      (congrArg FileCore.size (hcore b))⟩
  · intro q f hq
    obtain ⟨b, hb, hbq⟩ := hfiles.only q f hq
    exact ⟨b, (hin b).trans hb, (hpath b).trans hbq⟩
  · intro b c hb hc hbc
    rw [hin] at hb hc
    rw [hpath, hpath] at hbc
    exact hfiles.unique b c hb hc hbc

/-- What `unlink` leaves of the files. -/
theorem FilesAre.removed (hfiles : FilesAre s files) (hdata : s'.data = s.data)
    (hr : Released s.table s'.table rows rows' m) (hm : (s.table.mb m).inUse = true) :
    FilesAre s' (Function.update files (s.table.mb m).path none) := by
  have hother : ∀ b, (s'.table.mb b).inUse = true → (s.table.mb b).inUse = true ∧
      (s'.table.mb b).path = (s.table.mb b).path ∧ (s.table.mb b).path ≠ (s.table.mb m).path := by
    intro b hb
    obtain ⟨hbm, hsame⟩ := hr.kept hb
    have hused := hsame.inUse.symm.trans hb
    exact ⟨hused, hsame.path, fun heq => hbm (hfiles.unique b m hused hm heq)⟩
  refine ⟨?_, ?_, ?_⟩
  · intro b hb
    obtain ⟨hbm, hsame⟩ := hr.kept hb
    obtain ⟨hused, hpath, hne⟩ := hother b hb
    obtain ⟨f, hf, his⟩ := hfiles.file b hused
    refine ⟨f, ?_, his.kept hdata hsame.firstDbucket hsame.lastDbucket hsame.lastDbOffset
      (congrArg Stat.stSize hsame.s)⟩
    rw [hpath, Function.update_of_ne hne]
    exact hf
  · intro q f hq
    by_cases hqm : q = (s.table.mb m).path
    · rw [hqm, Function.update_self] at hq
      cases hq
    · rw [Function.update_of_ne hqm] at hq
      obtain ⟨b, hused, hbq⟩ := hfiles.only q f hq
      have hbm : b ≠ m := by
        rintro rfl
        exact hqm hbq.symm
      have hsame := hr.same b hbm
      exact ⟨b, hsame.inUse.trans hused, hsame.path.trans hbq⟩
  · intro b c hb hc hbc
    obtain ⟨hused, hpath, _⟩ := hother b hb
    obtain ⟨hused', hpath', _⟩ := hother c hc
    exact hfiles.unique b c hused hused' (hpath.symm.trans (hbc.trans hpath'))

/-- What `rename` leaves of the files: `m` has the path `q`, and the file that had it
is gone. -/
theorem FilesAre.moved {hn : Nat} {lost : Option Int} (hfiles : FilesAre s files)
    (hdata : s'.data = s.data) (hr : Renamed s.table s'.table rows rows' hn m lost q)
    (hm : (s.table.mb m).inUse = true) (hfile : files (s.table.mb m).path = some f)
    (hq : q.length ≤ pathMax)
    (hlost : ∀ b, lost = some b → (s.table.mb b).path = q)
    (hunique : ∀ b c, (s'.table.mb b).inUse = true → (s'.table.mb c).inUse = true →
      (s'.table.mb b).path = (s'.table.mb c).path → b = c) :
    FilesAre s' (Function.update (Function.update files (s.table.mb m).path none) q (some f)) := by
  have hnew : (s'.table.mb m).path = q := by
    rw [hr.moved.path]
    exact List.take_of_length_le hq
  have hused : (s'.table.mb m).inUse = true := hr.moved.inUse.trans hm
  refine ⟨?_, ?_, hunique⟩
  · intro b hb
    obtain ⟨hlb, hin, hfirst, hlast, hoff, hstat⟩ := hr.kept hb
    by_cases hbm : b = m
    · subst hbm
      obtain ⟨g, hg, his⟩ := hfiles.file b hm
      obtain rfl := Option.some.inj (hfile.symm.trans hg)
      rw [hnew, Function.update_self]
      exact ⟨f, rfl, his.kept hdata hfirst hlast hoff (congrArg Stat.stSize hstat)⟩
    · have hpath := (hr.same b hbm hlb).path
      have hbq : (s.table.mb b).path ≠ q := by
        intro hbq
        exact hbm (hunique b m hb hused ((hpath.trans hbq).trans hnew.symm))
      have hbp : (s.table.mb b).path ≠ (s.table.mb m).path :=
        fun heq => hbm (hfiles.unique b m (hin.symm.trans hb) hm heq)
      obtain ⟨g, hg, his⟩ := hfiles.file b (hin.symm.trans hb)
      refine ⟨g, ?_, his.kept hdata hfirst hlast hoff (congrArg Stat.stSize hstat)⟩
      rw [hpath, Function.update_of_ne hbq, Function.update_of_ne hbp]
      exact hg
  · intro x g hx
    by_cases hxq : x = q
    · exact ⟨m, hused, hnew.trans hxq.symm⟩
    · rw [Function.update_of_ne hxq] at hx
      by_cases hxm : x = (s.table.mb m).path
      · rw [hxm, Function.update_self] at hx
        cases hx
      · rw [Function.update_of_ne hxm] at hx
        obtain ⟨b, huse, hbx⟩ := hfiles.only x g hx
        have hbm : b ≠ m := by
          rintro rfl
          exact hxm hbx.symm
        have hlb : lost ≠ some b := fun hlb => hxq (hbx.symm.trans (hlost b hlb))
        have hsame := hr.same b hbm hlb
        exact ⟨b, hsame.inUse.trans huse, hsame.path.trans hbx⟩

/-- The invariant after a call that changes the table and nothing else. -/
theorem FlatInv.retable (hinv : FlatInv s rows ch a)
    (heff : Effect (s.view e.pid) rows ch e.env e.call true ⟨t', s.data, rows', ch⟩)
    (hcall : Untruncated e.call) (hspares : Spares s e) (hnamed : Named t' rows')
    (hlocks : ∀ h, (t'.row h).lock = (s.table.row h).lock)
    (hsim : Represents (s.put e.pid { s.view e.pid with table := t' }) a') :
    FlatInv (s.put e.pid { s.view e.pid with table := t' }) rows' ch a' := by
  have hsys : SysStep s e (.ret { ret := 0, err := .ok }) rows ch true
      (s.put e.pid { s.view e.pid with table := t' }) rows' ch := by
    refine ⟨heff, fun q hq => Function.update_of_ne hq _ _, fun r _ => ?_, (fun _ h => by cases h),
      (fun h => by cases h)⟩
    rw [show (s.put e.pid { s.view e.pid with table := t' }).fds e.pid = s.fds e.pid from
      Function.update_self ..]
    exact .same
  exact ⟨hsys.repInv hinv.rep hspares, hnamed, fun h => (hlocks h).trans (hinv.idle h),
    heff.allTight hcall (hinv.store e.pid) hinv.tight, hsim⟩

/-- The invariant after a call that ended its process before it changed anything. -/
theorem FlatInv.ended (hinv : FlatInv s rows ch a) (htab : w'.table = s.table)
    (hdata : w'.data = s.data) (hspares : Spares s e) :
    FlatInv (s.put e.pid { w' with fdTable := initFdTable }) rows ch (a.leave e.pid) := by
  obtain ⟨t, d, fds⟩ := w'
  obtain rfl : t = s.table := htab
  obtain rfl : d = s.data := hdata
  have hsys : SysStep s e (.halt .hang) rows ch true
      (s.put e.pid ⟨s.table, s.data, initFdTable⟩) rows ch :=
    ⟨.keep, fun q hq => Function.update_of_ne hq _ _, (fun _ h => by cases h),
      fun _ _ => Function.update_self .., (fun h => by cases h)⟩
  exact ⟨hsys.repInv hinv.rep hspares, hinv.named, hinv.idle, hinv.tight, hinv.exit rfl rfl⟩

/-- The end of a call on a name: a step of the model, or one of the stops left out. -/
def NameEnds (s : Sys) (a : Flat) (e : Event) (E : Halt → Prop)
    (res : EStateM.Result Halt World Ret) : Prop :=
  Ends res
    (fun r w' => ∃ a' rows' ch', NameStep a e (.ret r) a' ∧
      FlatInv (s.put e.pid w') rows' ch' a')
    (fun h w' => E h ∨ ∃ a' rows' ch', NameStep a e (.halt h) a' ∧
      FlatInv (s.put e.pid { w' with fdTable := initFdTable }) rows' ch' a')

variable {E : Halt → Prop}

/-- A call that returned and changed nothing. -/
theorem FlatInv.returned {r : Ret} (hinv : FlatInv s rows ch a)
    (hstep : NameStep a e (.ret r) a) : NameEnds s a e E (.ok r (s.view e.pid)) :=
  ⟨a, rows, ch, hstep, by rw [put_view]; exact hinv⟩

/-- A call that ended its process and changed nothing. -/
theorem FlatInv.exited {u : UErr} (hinv : FlatInv s rows ch a) (hspares : Spares s e)
    (hshort : ¬ e.call.TooLong) (hwhy : e.call.Exits e.env u) (htab : w'.table = s.table)
    (hdata : w'.data = s.data) : NameEnds s a e E (.error (.exit u) w') :=
  Or.inr ⟨_, rows, ch, .exit hshort hwhy, hinv.ended htab hdata hspares⟩

/-- A path of the call cannot be built. -/
theorem FlatInv.pathStopped {h : Halt} (hinv : FlatInv s rows ch a) (hspares : Spares s e)
    (hshort : ¬ e.call.TooLong) (hstop : PathStop h)
    (hwhy : ∀ u, h = .exit u → e.call.Exits e.env u) :
    NameEnds s a e (· = .undefined) (.error h (s.view e.pid)) := by
  rcases hstop with rfl | rfl
  · exact Or.inl rfl
  · exact hinv.exited hspares hshort (hwhy _ rfl) rfl rfl

/-- The row operations of a table whose rows are unlocked do not wait. -/
theorem FlatInv.rowStopped {h : Halt} (hinv : FlatInv s rows ch a) (hspares : Spares s e)
    (hshort : ¬ e.call.TooLong) (hstop : RowStop s.table p h t')
    (hwhy : ∀ u, hash p = .error u → e.call.Exits e.env u) :
    NameEnds s a e E (.error h { s.view e.pid with table := t' }) := by
  rcases hstop with ⟨rfl, k, hstuck⟩ | ⟨rfl, rfl, herr⟩
  · have hfree : (s.table.row k).lock.realLock = true := hstuck.2
    rw [hinv.idle k] at hfree
    cases hfree
  · exact hinv.exited hspares hshort (hwhy _ herr) rfl rfl

theorem isUser_held {q i : Nat} (huser : (s.fds q i).isUser = true) :
    Held s (s.fds q i).mindex := by
  obtain ⟨hexcl, hempty⟩ := FdInfo.isUser_iff.mp huser
  exact ⟨q, i, hempty, hexcl, rfl⟩

/-- A file that no descriptor refers to has its path open nowhere. -/
theorem FlatInv.closed (hinv : FlatInv s rows ch a) (hm : (s.table.mb m).inUse = true)
    (hno : ¬ Held s m) : a.Closed (s.table.mb m).path := by
  intro q i heq
  rw [hinv.sim.fds, FdInfo.flat_eq_file] at heq
  obtain ⟨huser, hpath⟩ := heq
  have hsame := hinv.sim.unique _ m (hinv.slot_used q i huser) hm hpath
  exact hno (hsame ▸ isUser_held huser)

theorem put_table_fds (s : Sys) (pid : Nat) (t : MetaShm) :
    (s.put pid { s.view pid with table := t }).fds = s.fds :=
  Function.update_eq_self ..

/-- Marking a file as modified changes nothing of the model. -/
theorem Represents.marked {t : MetaShm} (m : Int)
    (hsim : Represents (s.put pid { s.view pid with table := t }) a) :
    Represents (s.put pid { s.view pid with
      table := t.setMb m (fun b => { b with consisent := false }) }) a := by
  have he : Edited t (t.setMb m (fun b => { b with consisent := false })) m id := Edited.setMb rfl
  have hcore : ∀ b, ((t.setMb m (fun b => { b with consisent := false })).mb b).core =
      (t.mb b).core := by
    intro b
    by_cases hb : b = m
    · rw [hb]
      exact he.self
    · exact he.other b hb
  refine ⟨hsim.toFilesAre.recore rfl hcore, fun q i => ?_⟩
  have hfd := hsim.fds q i
  rw [put_table_fds] at hfd ⊢
  rw [hfd]
  exact (FdInfo.flat_congr rfl rfl (fun _ => congrArg FileCore.path (hcore _))).symm

/-! `unlink` -/

theorem FlatInv.unlink (hinv : FlatInv s rows ch a) (hcall : e.call = .unlink pathname)
    (hspares : Spares s e) :
    NameEnds s a e (· = .undefined) (sysUnlink e.env pathname (s.view e.pid)) := by
  have hlong : e.call.TooLong ↔ pathMax < pathname.length := by
    rw [hcall]
    rfl
  have hexits : ∀ u, PathExit e.env pathname u → e.call.Exits e.env u := by
    rw [hcall]
    exact fun _ hwhy => hwhy
  unfold sysUnlink
  rw [run_ite]
  by_cases hlen : pathname.length > pathMax
  · rw [if_pos hlen]
    exact hinv.returned (.tooLong (hlong.mpr hlen))
  rw [if_neg hlen]
  replace hlong := mt hlong.mp hlen
  rcases absPath_cases e.env pathname with ⟨p, hpath, hrun⟩ | ⟨h, hstop, herr, hrun⟩
  swap
  · rw [bind_of_error (hrun _)]
    exact hinv.pathStopped hspares hlong hstop (fun u hu => hexits u (Or.inl (hu ▸ herr)))
  rw [bind_of_ok (hrun _), NameEnds, ends_bind, onMeta, ends_zoom]
  refine (releaseMetaBucket_ends hinv.tableWf p).mono ?_ (fun _ _ hstop =>
    hinv.rowStopped (E := (· = .undefined)) hspares hlong hstop
      (fun u hu => hexits u (Or.inr ⟨p, hpath, hu⟩)))
  rintro r t' ⟨h, hok, ⟨rfl, rfl, hnone⟩ | ⟨m, rows', rfl, hfind, hr⟩⟩
  · exact hinv.returned (.missing hcall hpath (hinv.absent hok hnone))
  · obtain ⟨hm, hmp⟩ := hinv.found_path hok hfind
    have hname : samePath p (s.table.mb m).path = true := findPath_same hfind
    have hhits : Hits e.env s.table m e.call := by
      rw [hcall]
      exact ⟨p, hpath, hname⟩
    have hno : ¬ Held s m := fun hheld => hspares m hm hheld hhits
    obtain ⟨f, hfile, _⟩ := hinv.sim.file m hm
    have hclosed := hinv.closed hm hno
    rw [hmp] at hfile hclosed
    refine ⟨_, rows', ch, .unlinked hcall hpath hfile hclosed, hinv.retable ?_ ?_ hspares
      (hr.named hinv.named) hr.locks ?_⟩
    · rw [hcall]
      exact .release hpath hm hname hr
    · rw [hcall]
      exact fun _ _ _ h => by cases h
    · refine ⟨?_, fun q i => ?_⟩
      · rw [← hmp]
        exact hinv.sim.toFilesAre.removed rfl hr hm
      · rw [put_table_fds]
        change a.fds q i = (s.fds q i).flat t'
        rw [hinv.sim.fds]
        refine (FdInfo.flat_congr rfl rfl (fun huser => ?_)).symm
        have hne : ((s.fds q i).mindex : Int) ≠ m :=
          fun heq => hno (heq ▸ isUser_held huser)
        exact (hr.same _ hne).path

end Spacefish
