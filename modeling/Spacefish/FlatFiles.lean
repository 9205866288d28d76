import Spacefish.ReadPositions
import Spacefish.RowPaths

/-!
Files as flat byte lists. In this model a file is one list of bytes with one
cursor, a descriptor refers to a path, and the calls are the list operations one
expects. `Represents` relates a state of the system to a state of the model.
-/

namespace Spacefish

open LinkedArray Program Buffer

/-! The model. -/

structure FlatFile where
  content : List Byte
  cursor : Nat

/-- What a descriptor stands for: nothing, a descriptor of the kernel, or the file of a
path. -/
inductive FlatFd where
  | unused
  | kernel
  | file (p : Path)
  deriving DecidableEq

/-- The descriptors of a process that starts: the low ones are the kernel's. -/
def startFds (i : Nat) : FlatFd := if i < firstUserFd then .kernel else .unused

/-- The files by their absolute paths, and the descriptors of each process. -/
structure Flat where
  files : Path → Option FlatFile
  fds : Nat → Nat → FlatFd

def Flat.start : Flat := ⟨fun _ => none, fun _ => startFds⟩

def Flat.setFile (a : Flat) (p : Path) (f : FlatFile) : Flat :=
  { a with files := Function.update a.files p (some f) }

def Flat.setFd (a : Flat) (pid i : Nat) (d : FlatFd) : Flat :=
  { a with fds := Function.update a.fds pid (Function.update (a.fds pid) i d) }

/-- The descriptors of process `pid` go with it. -/
def Flat.leave (a : Flat) (pid : Nat) : Flat :=
  { a with fds := Function.update a.fds pid startFds }

/-- What `fd` stands for in process `pid`; `none` outside of its table. -/
def Flat.entry (a : Flat) (pid : Nat) (fd : Int) : Option FlatFd :=
  if 0 ≤ fd ∧ fd < maxNumFd then some (a.fds pid fd.toNat) else none

/-- There are as many files as meta buckets. -/
def Flat.Full (a : Flat) : Prop :=
  ∃ l : List Path, l.Nodup ∧ l.length = metaBuckets ∧ ∀ p ∈ l, a.files p ≠ none

/-- The descriptor that a call acts on. -/
def Call.descriptor : Call → Option Int
  | .close fd => some fd
  | .read fd _ => some fd
  | .write fd _ => some fd
  | .pread fd _ _ => some fd
  | .pwrite fd _ _ => some fd
  | .fxstat fd => some fd
  | _ => none

/-- `read`, `write`, `pread` and `pwrite` on a flat file. -/
def FlatFile.access (f : FlatFile) : Call → Option (Ret × FlatFile)
  | .read _ count =>
      let data := (f.content.drop f.cursor).take count.toNat
      some ({ ret := data.length, err := .ok, data := data },
        { f with cursor := f.cursor + data.length })
  | .write _ buf =>
      some ({ ret := buf.length, err := .ok },
        ⟨overwrite f.content f.cursor buf, f.cursor + buf.length⟩)
  | .pread _ count offset =>
      let data := (f.content.drop offset.toNat).take count.toNat
      some ({ ret := data.length, err := .ok, data := data }, f)
  | .pwrite _ buf offset =>
      some ({ ret := buf.length, err := .ok },
        { f with content := overwrite f.content offset.toNat buf })
  | _ => none

open Classical in
/-- The content that an upload of the path `p` brings from the disk, or its error. -/
noncomputable def Flat.uploads (a : Flat) (env : Env) (p : Path) : Except Errno (List Byte) :=
  match env.realStat p with
  | .error err => .error err
  | .ok _ =>
      if env.realOpen p 0 < 0 then .error env.realErrno
      else if a.files p ≠ none ∨ a.Full then .error .eexist
      else (diskContent env p).elim (.error env.realErrno) .ok

open Classical in
/-- The content of the file that `open`, without `O_TRUNC`, finds or makes for the path `p`,
or its error. A file that is not there is made, or uploaded when the disk has it. -/
noncomputable def Flat.opens (a : Flat) (env : Env) (pathname p : Path) (flags : Nat) :
    Except Errno (List Byte) :=
  match a.files p with
  | some f =>
      if hasFlag flags oCreat ∧ hasFlag flags oExcl then .error .eexist else .ok f.content
  | none =>
      if hasFlag flags oCreat ∧ (env.realStat pathname).toOption = none then
        if a.Full then .error .enospc else .ok []
      else if hasFlag flags oCreat ∧ hasFlag flags oExcl then .error .eexist
      else a.uploads env p

/-- The argument of a call stands for the path `p` of the store. -/
structure Names (env : Env) (pathname p : Path) : Prop where
  own : exclusivePath pathname = false
  short : pathname.length ≤ pathMax
  abs : absPath env pathname = .ok p

/-- The answer of the disk to `stat`. -/
def statReply (env : Env) : Except Errno Stat → Ret
  | .ok s => { ret := 0, err := env.realErrno, stat := some s }
  | .error e => { ret := -1, err := e }

/-- The answer of the kernel to a call on one of its descriptors. -/
def kernelReply (env : Env) : Call → Ret
  | .read _ _ => { ret := env.realRet, err := env.realErrno, data := env.realData }
  | .pread _ _ _ => { ret := env.realRet, err := env.realErrno, data := env.realData }
  | .fxstat fd => statReply env (env.realFstat fd)
  | _ => { ret := env.realRet, err := env.realErrno }

/-- `FlatStep a e out a'`: the call of the event, made in `a`, ends with `out` and
leaves `a'`. -/
inductive FlatStep (a : Flat) (e : Event) : Out → Flat → Prop where
  | access {fd : Int} {p : Path} {f f' : FlatFile} {r : Ret}
      (hfd : e.call.descriptor = some fd) (hopen : a.entry e.pid fd = some (.file p))
      (hfile : a.files p = some f) (hcall : f.access e.call = some (r, f')) :
      FlatStep a e (.ret r) (a.setFile p f')
  | close {fd : Int} {p : Path} (hcall : e.call = .close fd)
      (hopen : a.entry e.pid fd = some (.file p)) :
      FlatStep a e (.ret { ret := 0, err := .ok }) (a.setFd e.pid fd.toNat .unused)
  | unopened {fd : Int} (hfd : e.call.descriptor = some fd)
      (hopen : a.entry e.pid fd = some .unused) :
      FlatStep a e (.ret { ret := -1, err := .ebadf }) a
  | kernel {fd : Int} (hfd : e.call.descriptor = some fd)
      (hopen : a.entry e.pid fd = some .kernel) (hstays : e.call = .close fd → e.env.realRet ≠ 0) :
      FlatStep a e (.ret (kernelReply e.env e.call)) a
  | kernelClosed {fd : Int} (hcall : e.call = .close fd)
      (hopen : a.entry e.pid fd = some .kernel) (hret : e.env.realRet = 0) :
      FlatStep a e (.ret (kernelReply e.env e.call)) (a.setFd e.pid fd.toNat .unused)
  /-- `open` puts the cursor to the start and takes the first unused descriptor. -/
  | opened {pathname p : Path} {flags mode i : Nat} {c : List Byte}
      (hcall : e.call = .open pathname flags mode) (hname : Names e.env pathname p)
      (hstart : a.opens e.env pathname p flags = .ok c) (hlow : firstUserFd ≤ i)
      (hhigh : i < maxNumFd) (hfree : a.fds e.pid i = .unused)
      (hleast : ∀ j, firstUserFd ≤ j → j < i → a.fds e.pid j ≠ .unused) :
      FlatStep a e (.ret { ret := i, err := .ok })
        ((a.setFile p ⟨c, 0⟩).setFd e.pid i (.file p))
  /-- Without an unused descriptor it fails, but the cursor has been moved. -/
  | full {pathname p : Path} {flags mode : Nat} {c : List Byte}
      (hcall : e.call = .open pathname flags mode) (hname : Names e.env pathname p)
      (hstart : a.opens e.env pathname p flags = .ok c)
      (hfull : ∀ i, firstUserFd ≤ i → i < maxNumFd → a.fds e.pid i ≠ .unused) :
      FlatStep a e (.ret { ret := -1, err := .emfile }) (a.setFile p ⟨c, 0⟩)
  | failed {pathname p : Path} {flags mode : Nat} {err : Errno}
      (hcall : e.call = .open pathname flags mode) (hname : Names e.env pathname p)
      (hwhy : a.opens e.env pathname p flags = .error err) :
      FlatStep a e (.ret { ret := -1, err := err }) a
  | longPath {pathname : Path} {flags mode : Nat} (hcall : e.call = .open pathname flags mode)
      (hown : exclusivePath pathname = false) (hlong : pathMax < pathname.length) :
      FlatStep a e (.ret { ret := -1, err := .enametoolong }) a
  /-- The kernel opens its own files, under numbers it chooses. -/
  | forwarded {pathname : Path} {flags mode : Nat}
      (hcall : e.call = .open pathname flags mode) (hexcl : exclusivePath pathname = true) :
      FlatStep a e (.ret { ret := e.env.realOpen pathname flags, err := e.env.realErrno })
        (if e.env.realOpen pathname flags > 0 then
          a.setFd e.pid (e.env.realOpen pathname flags).toNat .kernel else a)
  | exit {pathname : Path} {flags mode : Nat} {u : UErr}
      (hcall : e.call = .open pathname flags mode) (hown : exclusivePath pathname = false)
      (hshort : pathname.length ≤ pathMax) (hwhy : PathExit e.env pathname u) :
      FlatStep a e (.halt (.exit u)) (a.leave e.pid)

/-- The events end with the given results one after the other. -/
def FlatRun : Flat → List Event → List Out → Flat → Prop
  | a, [], [], a' => a' = a
  | a, e :: es, out :: rest, a' => ∃ a₁, FlatStep a e out a₁ ∧ FlatRun a₁ es rest a'
  | _, _, _, _ => False

/-! The relation. -/

/-- The entry is an open descriptor of the store. -/
def FdInfo.isUser (f : FdInfo) : Bool := !f.exclusive && !f.empty

/-- What an entry stands for. -/
def FdInfo.flat (t : MetaShm) (f : FdInfo) : FlatFd :=
  if f.exclusive then .kernel else if f.empty then .unused else .file (t.mb f.mindex).path

/-- Bucket `m` holds the flat file `f`: its chain has the content, `st_size` is the
length, and the bucket and offset of the cursor are the position. -/
structure FileIs (s : Sys) (m : Int) (f : FlatFile) : Prop where
  content : content s.data (fileChain s m) = f.content
  size : (s.table.mb m).s.stSize = f.content.length
  cursor : (s.table.mb m).lastDbucket ≠ noIx → ∃ pre l,
    fileChain s m = pre ++ (s.table.mb m).lastDbucket :: l ∧
      total s.data pre + (s.table.mb m).lastDbOffset.toNat = f.cursor

/-- The files of the store are the flat files, each under its own path. -/
structure FilesAre (s : Sys) (files : Path → Option FlatFile) : Prop where
  file : ∀ m, (s.table.mb m).inUse = true →
    ∃ f, files (s.table.mb m).path = some f ∧ FileIs s m f
  only : ∀ p f, files p = some f → ∃ m, (s.table.mb m).inUse = true ∧ (s.table.mb m).path = p
  unique : ∀ m m', (s.table.mb m).inUse = true → (s.table.mb m').inUse = true →
    (s.table.mb m).path = (s.table.mb m').path → m = m'

structure Represents (s : Sys) (a : Flat) : Prop extends FilesAre s a.files where
  fds : ∀ pid i, a.fds pid i = (s.fds pid i).flat s.table

variable {s s' : Sys} {a : Flat} {m b : Int} {f : FlatFile} {fd : Int} {pid n : Nat}
  {files : Path → Option FlatFile} {p : Path} {rows : Nat → List Int} {ch : Int → List Nat}

/-- An upload succeeds when the path has no file, there is room for one and the disk gives
it. -/
theorem Flat.uploads_eq_ok {env : Env} {c : List Byte} :
    a.uploads env p = .ok c ↔ a.files p = none ∧ ¬ a.Full ∧ diskContent env p = some c := by
  unfold Flat.uploads
  cases hstat : env.realStat p with
  | error err => simp [diskContent, hstat]
  | ok st =>
      dsimp only
      by_cases hopen : env.realOpen p 0 < 0
      · simp [diskContent, hstat, hopen]
      · rw [if_neg hopen]
        by_cases htaken : a.files p ≠ none ∨ a.Full
        · rw [if_pos htaken]
          constructor
          · intro h
            cases h
          · rintro ⟨hnone, hroom, _⟩
            rcases htaken with htaken | hfull
            · exact absurd hnone htaken
            · exact absurd hfull hroom
        · rw [if_neg htaken]
          rw [not_or, not_not] at htaken
          cases hdisk : diskContent env p <;> simp [htaken]

/-- An `open` that finds a file starts from its content. -/
theorem Flat.opens_found {env : Env} {pathname : Path} {flags : Nat} {c : List Byte}
    (hstart : a.opens env pathname p flags = .ok c) (hfile : a.files p = some f) :
    c = f.content := by
  rw [Flat.opens, hfile] at hstart
  dsimp only at hstart
  split at hstart
  · cases hstart
  · exact (Except.ok.inj hstart).symm

/-- An `open` that does not make a file brings that of the disk. -/
theorem Flat.opens_brought {env : Env} {pathname : Path} {flags : Nat} {c : List Byte}
    (hstart : a.opens env pathname p flags = .ok c) (hnone : a.files p = none)
    (hload : ¬ (hasFlag flags oCreat ∧ (env.realStat pathname).toOption = none)) :
    diskContent env p = some c := by
  rw [Flat.opens, hnone] at hstart
  dsimp only at hstart
  rw [if_neg hload] at hstart
  split at hstart
  · cases hstart
  · exact (Flat.uploads_eq_ok.mp hstart).2.2

/-- File `b` and its data are as they were. -/
structure SameFile (s s' : Sys) (b : Int) : Prop where
  core : ∃ i, (s'.table.mb b).core = { (s.table.mb b).core with nextIx := i }
  data : ∀ c ∈ fileChain s b, s'.data.bucket c = s.data.bucket c

theorem SameFile.path (hs : SameFile s s' b) : (s'.table.mb b).path = (s.table.mb b).path := by
  obtain ⟨i, hcore⟩ := hs.core
  exact congrArg FileCore.path hcore

theorem SameFile.chain (hs : SameFile s s' b)
    (hl : Linked s.data.next noIx (s.table.mb b).firstDbucket (fileChain s b))
    (hown : ∀ c ∈ fileChain s b, c < totBuckets) : fileChain s' b = fileChain s b := by
  obtain ⟨i, hcore⟩ := hs.core
  refine fileChain_same hl hown (congrArg FileCore.first hcore) (fun c hc => ?_)
  rw [DataShm.next, hs.data c hc, DataShm.next]

theorem SameFile.chain_wf (hs : SameFile s s' b) (wf : LinkWf (s.store rows ch))
    (huse : (s.table.mb b).inUse = true) : fileChain s' b = fileChain s b := by
  refine hs.chain (wf.fileChain_linked huse) ?_
  rw [wf.fileChain_eq huse]
  exact fun c hc => (wf.owned b huse c hc).1

theorem FileIs.same (hf : FileIs s b f) (hs : SameFile s s' b) (hrep : Represented s)
    (huse : (s.table.mb b).inUse = true) : FileIs s' b f := by
  have hchain := hs.chain (hrep.chain b huse).1 (fun c hc => (hrep.inUse b huse c hc).1)
  obtain ⟨i, hcore⟩ := hs.core
  have hlast : (s'.table.mb b).lastDbucket = (s.table.mb b).lastDbucket :=
    congrArg FileCore.last hcore
  have hoff : (s'.table.mb b).lastDbOffset = (s.table.mb b).lastDbOffset :=
    congrArg FileCore.off hcore
  refine ⟨?_, (congrArg FileCore.size hcore).trans hf.size, ?_⟩
  · rw [hchain, content_congr hs.data]
    exact hf.content
  · rw [hlast, hoff, hchain]
    intro hne
    obtain ⟨pre, l, hsplit, hpos⟩ := hf.cursor hne
    refine ⟨pre, l, hsplit, ?_⟩
    rw [total_congr (d := s.data) (fun c hc => by
      rw [hs.data c (by rw [hsplit]; exact List.mem_append_left _ hc)])]
    exact hpos

/-- One file, new or old, has become `f`, and the others are as they were. -/
theorem FilesAre.update (hfiles : FilesAre s files) (hrep : Represented s)
    (huse : (s'.table.mb m).inUse = true) (hpath : (s'.table.mb m).path = p)
    (hold : (s.table.mb m).inUse = true → (s.table.mb m).path = p)
    (hfree : ∀ b ≠ m, (s.table.mb b).inUse = true → (s.table.mb b).path ≠ p)
    (hin : ∀ b ≠ m, (s'.table.mb b).inUse = (s.table.mb b).inUse)
    (hother : ∀ b ≠ m, (s.table.mb b).inUse = true → SameFile s s' b) (hself : FileIs s' m f) :
    FilesAre s' (Function.update files p (some f)) := by
  have hne : ∀ b ≠ m, (s'.table.mb b).inUse = true →
      (s.table.mb b).inUse = true ∧ (s'.table.mb b).path = (s.table.mb b).path := by
    intro b hb hused
    rw [hin b hb] at hused
    exact ⟨hused, (hother b hb hused).path⟩
  refine ⟨?_, ?_, ?_⟩
  · intro b hused
    by_cases hb : b = m
    · subst hb
      rw [hpath]
      exact ⟨f, Function.update_self .., hself⟩
    · obtain ⟨hold', hsame⟩ := hne b hb hused
      obtain ⟨g, hg, his⟩ := hfiles.file b hold'
      refine ⟨g, ?_, his.same (hother b hb hold') hrep hold'⟩
      rw [hsame, Function.update_of_ne (hfree b hb hold')]
      exact hg
  · intro q g hq
    by_cases hqp : q = p
    · exact ⟨m, huse, hpath.trans hqp.symm⟩
    · rw [Function.update_of_ne hqp] at hq
      obtain ⟨b, hused, hbq⟩ := hfiles.only q g hq
      have hb : b ≠ m := by
        rintro rfl
        exact hqp (hbq.symm.trans (hold hused))
      exact ⟨b, (hin b hb).trans hused, (hother b hb hused).path.trans hbq⟩
  · intro b c hb hc hbc
    by_cases hbm : b = m <;> by_cases hcm : c = m
    · rw [hbm, hcm]
    · subst hbm
      obtain ⟨hc', hcp⟩ := hne c hcm hc
      exact absurd (hcp.symm.trans (hbc.symm.trans hpath)) (hfree c hcm hc')
    · subst hcm
      obtain ⟨hb', hbp⟩ := hne b hbm hb
      exact absurd (hbp.symm.trans (hbc.trans hpath)) (hfree b hbm hb')
    · obtain ⟨hb', hbp⟩ := hne b hbm hb
      obtain ⟨hc', hcp⟩ := hne c hcm hc
      exact hfiles.unique b c hb' hc' (hbp.symm.trans (hbc.trans hcp))

theorem FdInfo.isUser_iff {d : FdInfo} :
    d.isUser = true ↔ d.exclusive = false ∧ d.empty = false := by
  rw [FdInfo.isUser, Bool.and_eq_true, Bool.not_eq_true', Bool.not_eq_true']

/-- A descriptor of the store stands for the path of its file. -/
theorem FdInfo.flat_user {t : MetaShm} {d : FdInfo} (huser : d.isUser = true) :
    d.flat t = .file (t.mb d.mindex).path := by
  obtain ⟨hexcl, hempty⟩ := FdInfo.isUser_iff.mp huser
  rw [FdInfo.flat, hexcl, hempty]
  rfl

theorem FdInfo.flat_eq_file {t : MetaShm} {d : FdInfo} :
    d.flat t = .file p ↔ d.isUser = true ∧ (t.mb d.mindex).path = p := by
  cases hexcl : d.exclusive <;> cases hempty : d.empty <;>
    simp [FdInfo.flat, FdInfo.isUser, hexcl, hempty]

/-- What an entry stands for does not depend on the files when it is not one of the store. -/
theorem FdInfo.flat_congr {t t' : MetaShm} {d d' : FdInfo} (hexcl : d'.exclusive = d.exclusive)
    (hempty : d'.empty = d.empty)
    (hpath : d.isUser = true → (t'.mb d'.mindex).path = (t.mb d.mindex).path) :
    d'.flat t' = d.flat t := by
  cases huser : d.isUser with
  | true =>
      rw [FdInfo.flat_user huser, FdInfo.flat_user, hpath huser]
      rw [FdInfo.isUser, hexcl, hempty]
      exact huser
  | false =>
      rw [FdInfo.isUser, Bool.and_eq_false_iff, Bool.not_eq_false', Bool.not_eq_false'] at huser
      rw [FdInfo.flat, FdInfo.flat, hexcl, hempty]
      rcases huser with hkernel | hnone
      · rw [if_pos hkernel, if_pos hkernel]
      · rw [if_pos hnone, if_pos hnone]

theorem FdInfo.flat_kernel {t : MetaShm} {d : FdInfo} (hexcl : d.exclusive = true) :
    d.flat t = .kernel := by
  rw [FdInfo.flat, if_pos hexcl]

theorem FdInfo.flat_unused {t : MetaShm} {d : FdInfo} (hexcl : d.exclusive = false)
    (hempty : d.empty = true) : d.flat t = .unused := by
  rw [FdInfo.flat, if_neg (by rw [hexcl]; exact Bool.false_ne_true), if_pos hempty]

/-- An entry that is taken does not stand for nothing. -/
theorem FdInfo.flat_taken {t : MetaShm} {d : FdInfo} (hempty : d.empty = false) :
    d.flat t ≠ .unused := by
  cases hexcl : d.exclusive with
  | true =>
      rw [FdInfo.flat_kernel hexcl]
      exact nofun
  | false =>
      rw [FdInfo.flat_user (FdInfo.isUser_iff.mpr ⟨hexcl, hempty⟩)]
      exact nofun

theorem initFd_flat (t : MetaShm) (i : Nat) : (initFd i).flat t = startFds i := by
  by_cases hlow : i < firstUserFd
  · rw [FdInfo.flat_kernel (by simp [initFd, hlow]), startFds, if_pos hlow]
  · have hempty : ¬ i < 3 := fun h => hlow (Nat.lt_trans h (by decide))
    rw [FdInfo.flat_unused (by simp [initFd, hlow]) (by simp [initFd, hempty]), startFds,
      if_neg hlow]

/-- A descriptor of the store is open in the model. -/
theorem Represents.entry_user (hsim : Represents s a) (hu : UserFd (s.view pid) fd n) :
    a.entry pid fd = some (.file (s.table.mb n).path) := by
  have huser : (s.fds pid fd.toNat).isUser = true :=
    FdInfo.isUser_iff.mpr ⟨hu.exclusive, hu.nonempty⟩
  have hidx : (s.fds pid fd.toNat).mindex = n := hu.mindex
  rw [Flat.entry, if_pos ⟨hu.pos, hu.lt⟩, hsim.fds, FdInfo.flat_user huser, hidx]

theorem Represents.entry_kernel (hsim : Represents s a) (hpos : 0 ≤ fd) (hlt : fd < maxNumFd)
    (hexcl : (s.fds pid fd.toNat).exclusive = true) : a.entry pid fd = some .kernel := by
  rw [Flat.entry, if_pos ⟨hpos, hlt⟩, hsim.fds, FdInfo.flat_kernel hexcl]

theorem Represents.entry_unused (hsim : Represents s a) (hpos : 0 ≤ fd) (hlt : fd < maxNumFd)
    (hexcl : (s.fds pid fd.toNat).exclusive = false) (hempty : (s.fds pid fd.toNat).empty = true) :
    a.entry pid fd = some .unused := by
  rw [Flat.entry, if_pos ⟨hpos, hlt⟩, hsim.fds, FdInfo.flat_unused hexcl hempty]

/-- What the model has open is a descriptor of the store. -/
theorem Represents.user_of_entry (hsim : Represents s a) (hopen : a.entry pid fd = some (.file p)) :
    ∃ n, UserFd (s.view pid) fd n ∧ (s.table.mb n).path = p := by
  unfold Flat.entry at hopen
  split at hopen
  · next hin =>
    have hfile := Option.some.inj hopen
    rw [hsim.fds, FdInfo.flat_eq_file, FdInfo.isUser_iff] at hfile
    exact ⟨_, ⟨hin.1, hin.2, hfile.1.1, hfile.1.2, rfl⟩, hfile.2⟩
  · cases hopen

/-- An edit of file `m` that leaves its path and the other files alone. -/
theorem FilesAre.edit {w' : World} {g : FileCore → FileCore} (hfiles : FilesAre s files)
    (hrep : Represented s) (huse : (s.table.mb m).inUse = true)
    (he : Edited s.table w'.table m g) (hg : Stays g) (hpath : ∀ c, (g c).path = c.path)
    (hdata : ∀ b ≠ m, (s.table.mb b).inUse = true → ∀ c ∈ fileChain s b,
      w'.data.bucket c = s.data.bucket c)
    (hself : FileIs (s.put pid w') m f) :
    FilesAre (s.put pid w') (Function.update files (s.table.mb m).path (some f)) := by
  have hp : (w'.table.mb m).path = (s.table.mb m).path :=
    (congrArg FileCore.path he.self).trans (hpath _)
  refine hfiles.update hrep ((he.inUse hg m).trans huse) hp (fun _ => rfl) ?_
    (fun b _ => he.inUse hg b) ?_ hself
  · exact fun b hb hused heq => hb (hfiles.unique b m hused huse heq)
  · exact fun b hb hused => ⟨⟨_, he.other b hb⟩, hdata b hb hused⟩

/-- What a call through a descriptor of file `n` leaves. -/
theorem Represents.access {w' : World} {g : FileCore → FileCore} (hsim : Represents s a)
    (hrep : Represented s) (huse : (s.table.mb n).inUse = true)
    (hslots : ∀ j, SlotKept (s.fds pid j) (w'.fdTable j))
    (he : Edited s.table w'.table n g) (hg : Stays g) (hpath : ∀ c, (g c).path = c.path)
    (hdata : ∀ b ≠ (n : Int), (s.table.mb b).inUse = true → ∀ c ∈ fileChain s b,
      w'.data.bucket c = s.data.bucket c)
    (hself : FileIs (s.put pid w') n f) :
    Represents (s.put pid w') (a.setFile (s.table.mb n).path f) := by
  have hp : ∀ b, (w'.table.mb b).path = (s.table.mb b).path := by
    intro b
    by_cases hb : b = n
    · subst hb
      exact (congrArg FileCore.path he.self).trans (hpath _)
    · exact congrArg FileCore.path (he.other b hb)
  refine ⟨hsim.toFilesAre.edit hrep huse he hg hpath hdata hself, fun q i => ?_⟩
  have hkept : SlotKept (s.fds q i) ((s.put pid w').fds q i) := by
    by_cases hq : q = pid
    · subst hq
      simpa [Sys.put] using hslots i
    · simp only [Sys.put, Function.update_of_ne hq]
      exact .refl _
  change a.fds q i = _
  rw [hsim.fds q i]
  exact (FdInfo.flat_congr hkept.exclusive hkept.empty
    (fun _ => by rw [hkept.mindex]; exact hp _)).symm

end Spacefish
