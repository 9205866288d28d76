import Spacefish.FlatOpen

/-!
`close` and the calls on other descriptors, and the refinement over whole runs.
-/

namespace Spacefish

open LinkedArray Program Buffer

variable {s s' : Sys} {rows rows' : Nat → List Int} {ch ch' : Int → List Nat} {a : Flat}
  {pid n i : Nat} {fd : Int} {env : Env} {e : Event} {out : Out} {w w' : World} {m : Int}
  {pathname p : Path} {flags mode : Nat} {files : Path → Option FlatFile} {f : FlatFile}

/-! The calls on other descriptors. -/

/-- A call on a descriptor that is not one of the store, other than `close`. -/
theorem FlatInv.notUser {x : Op World Ret} {k : FdInfo → Op World Ret} (hinv : FlatInv s rows ch a)
    (hfd : e.call.descriptor = some fd) (hno : ∀ n, ¬ UserFd (s.view e.pid) fd n)
    (hopen : ∀ fd, e.call ≠ .close fd)
    (hx : x = fddes fd >>= fun f =>
      if f.exclusive then pure (kernelReply e.env e.call)
      else if f.empty then pure { ret := -1, err := .ebadf } else k f) :
    Ends (x (s.view e.pid)) (fun r w' => w' = s.view e.pid ∧ FlatStep a e (.ret r) a)
      (fun h _ => h = .undefined) := by
  refine (notUser_same hx hno).mono ?_ (fun _ _ hstop => hstop.1)
  rintro r w' ⟨rfl, hpos, hlt, ⟨rfl, hexcl⟩ | ⟨rfl, hexcl, hempty⟩⟩
  · exact ⟨rfl, .kernel hfd (hinv.sim.entry_kernel hpos hlt hexcl)
      (fun hclose => absurd hclose (hopen fd))⟩
  · exact ⟨rfl, .unopened hfd (hinv.sim.entry_unused hpos hlt hexcl hempty)⟩

/-- Entry `fd` is cleared. -/
theorem FlatInv.cleared {t : MetaShm} (hinv : FlatInv s rows ch a)
    (hfiles : FilesAre (s.put pid (World.setFd { s.view pid with table := t } i resetFd)) a.files)
    (hpath : ∀ m, (s.table.mb m).inUse = true → (t.mb m).path = (s.table.mb m).path) :
    Represents (s.put pid (World.setFd { s.view pid with table := t } i resetFd))
      (a.setFd pid i .unused) := by
  refine hinv.sim.put hfiles ?_ hpath hinv.slot_used
    (hinv.otherFds (g := resetFd) hpath (FdInfo.flat_unused rfl rfl))
  exact fun q hq => Function.update_of_ne hq _ _

theorem FlatInv.close (hinv : FlatInv s rows ch a) (hcall : e.call = .close fd) :
    Ends (sysClose e.env fd (s.view e.pid))
      (fun r w' => ∃ a', FlatStep a e (.ret r) a' ∧ Represents (s.put e.pid w') a')
      (fun h _ => h = .undefined ∧ ¬ (0 ≤ fd ∧ fd < maxNumFd)) := by
  refine (sysClose_ends e.env fd (s.view e.pid)).mono ?_ (fun _ _ hstop => ⟨hstop.1, hstop.2.2⟩)
  have hfd : e.call.descriptor = some fd := by rw [hcall]; rfl
  have hreply : kernelReply e.env e.call = { ret := e.env.realRet, err := e.env.realErrno } := by
    rw [hcall]
    rfl
  have hsame : Represents (s.put e.pid (s.view e.pid)) a := by
    rw [put_view]
    exact hinv.sim
  rintro r w' ⟨hpos, hlt, hclose⟩
  cases hclose with
  | kernel hexcl hret =>
      rw [← hreply]
      refine ⟨_, .kernelClosed hcall (hinv.sim.entry_kernel hpos hlt hexcl) hret, ?_⟩
      exact hinv.cleared (hinv.sim.toFilesAre.congr rfl rfl) (fun _ _ => rfl)
  | refused hexcl hret =>
      rw [← hreply]
      exact ⟨a, .kernel hfd (hinv.sim.entry_kernel hpos hlt hexcl) (fun _ => hret), hsame⟩
  | unopened hexcl hempty =>
      exact ⟨a, .unopened hfd (hinv.sim.entry_unused hpos hlt hexcl hempty), hsame⟩
  | @store n hu =>
      refine ⟨_, .close hcall (hinv.sim.entry_user hu), ?_⟩
      obtain ⟨huse, _, _, _⟩ := hinv.user hu
      have he := edited_closeStamps s.table n ((s.view e.pid).fdTable fd.toNat)
      obtain ⟨f, hfile, his⟩ := hinv.sim.file n huse
      have hmoved : FileIs (s.put e.pid (World.setFd { s.view e.pid with
          table := s.table.setMb n (fun b =>
            { b with s := closeStamps ((s.view e.pid).fdTable fd.toNat) b.s }) }
          fd.toNat resetFd)) n f :=
        his.moved rfl he (fun _ => rfl) (fun _ => rfl) (by
          dsimp only [World.setFd]
          rw [setMb_mb_self]
          exact his.cursor)
      have hfiles := hinv.sim.toFilesAre.edit hinv.rep.represented huse he .id (fun _ => rfl)
        (fun _ _ _ _ _ => rfl) hmoved
      rw [← hfile, Function.update_eq_self] at hfiles
      exact hinv.cleared hfiles (fun m _ => he.path (fun _ => rfl) m)

/-! Runs. -/

/-- The calls of the runs: an `open` without `O_TRUNC` and `O_APPEND`, `close`,
`read`, `write`, `pread` at an offset up to the end of the file and `pwrite` at one
inside it. Uploads are complete and the data buckets are not exhausted. That the
behaviour is defined is not asked of a call on an open descriptor; the others may
name a descriptor outside the table or a path that does not fit its buffer. -/
def FlatAllowed (s : Sys) (e : Event) (out : Out) : Prop :=
  FlatCall e.call ∧
  (match e.call with
    | .pread fd _ offset =>
        ∀ m : Nat, UserFd (s.view e.pid) fd m → offset ≤ (s.table.mb m).s.stSize
    | .pwrite fd _ offset =>
        ∀ m : Nat, UserFd (s.view e.pid) fd m → offset < (s.table.mb m).s.stSize
    | _ => True) ∧
  ¬ ShortReads e.env e.call ∧ out ≠ .halt (.exit .dataBucketOverUse) ∧
  ((∀ fd n, e.call.descriptor = some fd → ¬ UserFd (s.view e.pid) fd n) → out ≠ .halt .undefined)

/-- A call through a descriptor ends as on the flat file. -/
theorem FlatInv.through {Q : Ret → World → Prop} {E : Halt → World → Prop}
    (hinv : FlatInv s rows ch a) (hfd : e.call.descriptor = some fd)
    (hu : UserFd (s.view e.pid) fd n)
    (hends : Ends (callOp defaultBuild e.env e.call (s.view e.pid)) Q E)
    (hQ : ∀ r w', Q r w' → Accesses s a e.pid n e.call r w')
    (hE : ∀ h w', E h w' → h = .exit .dataBucketOverUse)
    (hover : out ≠ .halt (.exit .dataBucketOverUse))
    (hexec : exec defaultBuild s e = (out, s')) :
    ReturnsOrExits out ∧ ∃ a', FlatStep a e out a' ∧ Represents s' a' := by
  rcases exec_ends hends hexec with ⟨r, w', rfl, rfl, hq⟩ | ⟨h, w', rfl, _, hh⟩
  · obtain ⟨f, f', hfile, hcall, hsim⟩ := hQ r w' hq
    exact ⟨trivial, _, .access hfd (hinv.sim.entry_user hu) hfile hcall, hsim⟩
  · rw [hE h w' hh] at hover
    exact absurd rfl hover

/-- A call on a descriptor that is not one of the store is answered as in the model. -/
theorem FlatInv.unopened {k : FdInfo → Op World Ret} (hinv : FlatInv s rows ch a)
    (hfd : e.call.descriptor = some fd) (hno : ∀ n, ¬ UserFd (s.view e.pid) fd n)
    (hopen : ∀ fd, e.call ≠ .close fd)
    (hcall : callOp defaultBuild e.env e.call = fddes fd >>= fun f =>
      if f.exclusive then pure (kernelReply e.env e.call)
      else if f.empty then pure { ret := -1, err := .ebadf } else k f)
    (hout : out ≠ .halt .undefined) (hexec : exec defaultBuild s e = (out, s')) :
    ReturnsOrExits out ∧ ∃ a', FlatStep a e out a' ∧ Represents s' a' := by
  rcases exec_ends (hinv.notUser hfd hno hopen hcall) hexec with
    ⟨r, w', rfl, rfl, rfl, hstep⟩ | ⟨h, w', rfl, _, rfl⟩
  · refine ⟨trivial, a, hstep, ?_⟩
    rw [put_view]
    exact hinv.sim
  · exact absurd rfl hout

/-- Every admitted call is a step of the model. -/
theorem FlatInv.sim_step (hinv : FlatInv s rows ch a) (hallow : FlatAllowed s e out)
    (hexec : exec defaultBuild s e = (out, s')) :
    ReturnsOrExits out ∧ ∃ a', FlatStep a e out a' ∧ Represents s' a' := by
  obtain ⟨hflat, hrange, hshort, hover, hret⟩ := hallow
  have hout : ∀ {fd}, e.call.descriptor = some fd → (∀ n, ¬ UserFd (s.view e.pid) fd n) →
      out ≠ .halt .undefined := by
    intro fd hfd hno
    refine hret (fun fd' n hfd' => ?_)
    obtain rfl := Option.some.inj (hfd.symm.trans hfd')
    exact hno n
  obtain ⟨pid, env, call⟩ := e
  cases call with
  | «open» pathname flags mode =>
      have hends := hinv.open (e := ⟨pid, env, .open pathname flags mode⟩) rfl hflat hshort
      rcases exec_ends (e := ⟨pid, env, .open pathname flags mode⟩) hends hexec with
        ⟨r, w', rfl, rfl, hstep⟩ | ⟨h, w', rfl, rfl, rfl | rfl | hstep⟩
      · exact ⟨trivial, hstep⟩
      · exact absurd rfl (hret (fun _ _ => nofun))
      · exact absurd rfl hover
      · obtain ⟨a', hstep, hsim⟩ := hstep
        refine ⟨?_, a', hstep, hsim⟩
        cases hstep with
        | exit _ _ _ _ => trivial
  | close fd =>
      rcases exec_ends (e := ⟨pid, env, .close fd⟩) (hinv.close (e := ⟨pid, env, .close fd⟩) rfl)
        hexec with ⟨r, w', rfl, rfl, hstep⟩ | ⟨h, w', rfl, _, rfl, hno⟩
      · exact ⟨trivial, hstep⟩
      · exact absurd rfl (hout rfl (fun n hu => hno ⟨hu.pos, hu.lt⟩))
  | read fd count =>
      by_cases hex : ∃ n, UserFd (s.view pid) fd n
      · obtain ⟨n, hu⟩ := hex
        exact hinv.through rfl hu (hinv.read hu count) (fun _ _ h => h) (fun _ _ h => h.elim) hover
          hexec
      · have hno : ∀ n, ¬ UserFd (s.view pid) fd n := fun n hu => hex ⟨n, hu⟩
        exact hinv.unopened rfl hno (fun _ => nofun) rfl (hout rfl hno) hexec
  | write fd buf =>
      by_cases hex : ∃ n, UserFd (s.view pid) fd n
      · obtain ⟨n, hu⟩ := hex
        exact hinv.through rfl hu (hinv.write hu buf) (fun _ _ h => h) (fun _ _ h => h) hover hexec
      · have hno : ∀ n, ¬ UserFd (s.view pid) fd n := fun n hu => hex ⟨n, hu⟩
        exact hinv.unopened rfl hno (fun _ => nofun) rfl (hout rfl hno) hexec
  | pread fd count offset =>
      by_cases hex : ∃ n, UserFd (s.view pid) fd n
      · obtain ⟨n, hu⟩ := hex
        exact hinv.through rfl hu (hinv.pread hu count hflat (hrange n hu)) (fun _ _ h => h)
          (fun _ _ h => h.elim) hover hexec
      · have hno : ∀ n, ¬ UserFd (s.view pid) fd n := fun n hu => hex ⟨n, hu⟩
        exact hinv.unopened rfl hno (fun _ => nofun) rfl (hout rfl hno) hexec
  | pwrite fd buf offset =>
      by_cases hex : ∃ n, UserFd (s.view pid) fd n
      · obtain ⟨n, hu⟩ := hex
        exact hinv.through rfl hu (hinv.pwrite hu buf hflat (hrange n hu)) (fun _ _ h => h)
          (fun _ _ h => h) hover hexec
      · have hno : ∀ n, ¬ UserFd (s.view pid) fd n := fun n hu => hex ⟨n, hu⟩
        exact hinv.unopened rfl hno (fun _ => nofun) rfl (hout rfl hno) hexec
  | unlink pathname => exact hflat.elim
  | rename old new => exact hflat.elim
  | xstat path => exact hflat.elim
  | fxstat fd => exact hflat.elim
  | upload name => exact hflat.elim

theorem FlatInv.step (hinv : FlatInv s rows ch a) (hallow : FlatAllowed s e out)
    (hexec : exec defaultBuild s e = (out, s')) :
    ∃ a' rows' ch', FlatStep a e out a' ∧ FlatInv s' rows' ch' a' := by
  obtain ⟨hout, a', hstep, hsim⟩ := hinv.sim_step hallow hexec
  obtain ⟨hflat, _, hshort, hover, _⟩ := hallow
  have hrep : RepAllowed s e out := by
    refine ⟨?_, hshort, hout, hover⟩
    cases hc : e.call <;> rw [hc] at hflat <;> first | exact hflat.elim | trivial | exact hflat.2
  obtain ⟨hok, hspares⟩ := hrep.ok
  obtain ⟨done, rows', ch', hsys⟩ := exec_step hinv.rep.wf hok hexec hout
  cases done with
  | true =>
      refine ⟨a', rows', ch', hstep, hsys.repInv hinv.rep hspares, ?_, ?_, ?_, hsim⟩
      · exact hsys.effect.named hflat hinv.tableWf hinv.named
      · exact hsys.effect.idle hflat hinv.idle
      · exact hsys.effect.allTight hflat.untruncated (hinv.store e.pid) hinv.tight
  | false =>
      rcases hsys.done rfl with hfull | hread
      · exact absurd hfull hover
      · exact absurd hread hshort

theorem initSys_flatInv : FlatInv initSys (fun _ => []) (fun _ => []) Flat.start := by
  refine ⟨initSys_repInv, initTable_named, fun _ => rfl, fun _ hm => absurd hm Bool.false_ne_true,
    ⟨fun _ hm => absurd hm Bool.false_ne_true, fun _ _ => nofun,
      fun _ _ hm => absurd hm Bool.false_ne_true⟩, fun pid i => ?_⟩
  exact (initFd_flat _ i).symm

theorem FlatInv.run (hinv : FlatInv s rows ch a) {es : List Event}
    (hes : Along defaultBuild FlatAllowed s es) :
    ∃ a', FlatRun a es (outs defaultBuild s es) a' ∧
      Represents (es.foldl (fun s e => (exec defaultBuild s e).2) s) a' := by
  induction es generalizing s rows ch a with
  | nil => exact ⟨a, rfl, hinv.sim⟩
  | cons e es ih =>
      obtain ⟨hallow, hrest⟩ := hes
      obtain ⟨a₁, rows', ch', hstep, hinv'⟩ := hinv.step hallow rfl
      obtain ⟨a', hrun, hsim⟩ := ih hinv' hrest
      exact ⟨a', ⟨a₁, hstep, hrun⟩, hsim⟩

/-- The results of every run are results of the flat files, and the state it reaches
represents them. -/
theorem store_refines_flat {es : List Event} (hes : Along defaultBuild FlatAllowed initSys es) :
    ∃ a, FlatRun Flat.start es (outs defaultBuild initSys es) a ∧
      Represents (es.foldl (fun s e => (exec defaultBuild s e).2) initSys) a :=
  initSys_flatInv.run hes

/-- A file is made, written and read back by a second process. -/
def writeThenRead : List Event :=
  [⟨0, emptyDisk, .open pathA 66 0⟩, ⟨0, emptyDisk, .write 1024 [1, 2, 3]⟩,
    ⟨0, emptyDisk, .pwrite 1024 [9, 9] 2⟩, ⟨1, emptyDisk, .open pathA 0 0⟩,
    ⟨1, emptyDisk, .read 1024 10⟩, ⟨1, emptyDisk, .close 1024⟩]

theorem writeThenRead_refines :
    ∃ a, FlatRun Flat.start writeThenRead (outs defaultBuild initSys writeThenRead) a ∧
      Represents (writeThenRead.foldl (fun s e => (exec defaultBuild s e).2) initSys) a := by
  have hrets : ∀ out ∈ outs defaultBuild initSys writeThenRead, out.isRet = true := by
    decide +kernel
  have hrest : ∀ {s : Sys} {e : Event}, e.env = emptyDisk → (exec defaultBuild s e).1.isRet = true →
      ¬ ShortReads e.env e.call ∧
      (exec defaultBuild s e).1 ≠ .halt (.exit .dataBucketOverUse) ∧
      ((∀ fd n, e.call.descriptor = some fd → ¬ UserFd (s.view e.pid) fd n) →
        (exec defaultBuild s e).1 ≠ .halt .undefined) := by
    intro s e henv hret
    rw [henv]
    exact ⟨emptyDisk_complete _, (Out.isRet_spec hret).2 _, fun _ => (Out.isRet_spec hret).2 _⟩
  simp only [writeThenRead, outs, List.forall_mem_cons] at hrets
  obtain ⟨h₁, h₂, h₃, h₄, h₅, h₆, _⟩ := hrets
  refine store_refines_flat ⟨⟨⟨rfl, rfl⟩, trivial, hrest rfl h₁⟩, ⟨trivial, trivial, hrest rfl h₂⟩,
    ⟨Int.natCast_nonneg 2, fun m hu => ?_, hrest rfl h₃⟩, ⟨⟨rfl, rfl⟩, trivial, hrest rfl h₄⟩,
    ⟨trivial, trivial, hrest rfl h₅⟩, ⟨trivial, trivial, hrest rfl h₆⟩, trivial⟩
  rw [← hu.mindex]
  decide +kernel

end Spacefish
