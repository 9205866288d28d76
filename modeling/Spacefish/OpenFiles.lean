import Spacefish.ThroughFd
import Spacefish.CacheWalk
import Spacefish.RemovalRuns
import Spacefish.Representation

/-!
What an open descriptor refers to. A descriptor holds the index of a meta bucket,
and neither `unlink` nor a `rename` over a file looks at the descriptors, so the
bucket can be freed and given to another file while the descriptor is open. Until its
own file is removed, a descriptor keeps it, whatever becomes of the others.
-/

namespace Spacefish

open LinkedArray Program

variable {s s' s₀ s₁ : Sys} {e : Event} {out : Out} {rows rows' : Nat → List Int}
  {ch ch' : Int → List Nat} {pid i m : Nat} {env : Env} {r : Ret} {pathname p : Path}
  {flags mode : Nat} {done : Bool} {fd : Int} {d d' : DataShm} {w : World} {f : FdInfo}

/-! The entry of the descriptor. -/

/-- An `open` of a file of the store that returns a descriptor has made it refer to a
file with the path, with its cursor at the start. -/
theorem RemovalInv.open_slot (hinv : RemovalInv s₀) (hfile : exclusivePath pathname = false)
    (hexec : exec defaultBuild s₀ ⟨pid, env, .open pathname flags mode⟩ = (.ret r, s₁))
    (hpos : 0 ≤ r.ret) :
    ∃ p m, absPath env pathname = .ok p ∧ firstUserFd ≤ r.ret.toNat ∧ r.ret.toNat < maxNumFd ∧
      (s₀.fds pid r.ret.toNat).empty = true ∧
      (s₁.fds pid r.ret.toNat).IsOpen ∧ (s₁.fds pid r.ret.toNat).mindex = m ∧
      (s₁.table.mb m).inUse = true ∧ samePath p (s₁.table.mb m).path = true ∧
      (s₁.table.mb m).lastDbucket = (s₁.table.mb m).firstDbucket := by
  obtain ⟨rows, ch, hwf⟩ := hinv.store
  have hview : StoreWf ((s₀.view pid).store rows ch) := hwf
  have hends := @sysOpen_ends (s₀.view pid) rows ch env defaultBuild rfl rfl hview pathname flags mode
  rcases exec_ends (e := ⟨pid, env, .open pathname flags mode⟩) hends hexec with
    ⟨r', w', ⟨⟩, rfl, hret⟩ | ⟨h, w', hout, _⟩
  · cases hret with
    | forwarded hexcl _ _ _ =>
        rw [hfile] at hexcl
        cases hexcl
    | tooLong _ hret _ => omega
    | failed _ _ _ hret _ => omega
    | @opened w₁ _ p a _ _ hpath hres he hdata hslot =>
        rcases hslot with ⟨rfl, _⟩ | ⟨i, rfl, hslot⟩
        · exact absurd hpos (by decide)
        · rw [hres.fds] at hslot
          have heff : ∃ rows' ch', Effect (s₀.view pid) rows ch env (.open pathname flags mode) true
            (w'.store rows' ch') ∧ _ := hres.effect hview he hdata
          obtain ⟨_, _, _, hapos, hused, hname⟩ := heff
          have hexcl := hinv.unmarked pid i hslot.low hslot.free
          have hself : ((s₀.put pid w').fds pid) i =
              { s₀.fds pid i with empty := false, mindex := a.toNat } := by
            rw [show (s₀.put pid w').fds pid = w'.fdTable from Function.update_self ..]
            exact hslot.self
          lift a to Nat using hapos
          refine ⟨p, a, hpath, hslot.low, hslot.high, hslot.free, ?_, ?_, hused, hname, ?_⟩
          · rw [show ({ ret := (i : Int), err := .ok } : Ret).ret.toNat = i from rfl, hself]
            exact ⟨rfl, hexcl⟩
          · rw [show ({ ret := (i : Int), err := .ok } : Ret).ret.toNat = i from rfl, hself]
            rfl
          · exact he.last.trans (he.first rfl _).symm
  · cases hout

/-- The kernel does not hand out the number `fd` to the process. -/
def KernelSpares (fd : Int) (e : Event) : Prop :=
  ∀ pathname flags mode, e.call = .open pathname flags mode → exclusivePath pathname = true →
    e.env.realOpen pathname flags ≠ fd

/-- The event leaves the descriptor `fd` to its file `m`: its process does not close it
and does not end, the kernel does not hand out the same number, and nobody removes the
file. -/
structure LeavesOpen (pid : Nat) (fd m : Int) (s : Sys) (e : Event) (out : Out) : Prop where
  spares : ¬ FreesFile e.env s.table m e.call
  stays : e.pid = pid → e.call ≠ .close fd ∧ out.isRet = true ∧ KernelSpares fd e

/-- An `open` does not mark a descriptor that the kernel does not hand out. -/
theorem open_keeps_mark (hkernel : KernelSpares fd e) (hcall : e.call = .open pathname flags mode)
    (hexec : exec defaultBuild s e = (.ret r, s'))
    (hexcl : (s.fds e.pid fd.toNat).exclusive = false) :
    (s'.fds e.pid fd.toNat).exclusive = false := by
  have hop : callOp defaultBuild e.env e.call =
      sysOpen defaultBuild e.env pathname flags mode := by rw [hcall]; rfl
  have hends := @sysOpen_marks defaultBuild e.env (s.view e.pid) pathname flags mode
  rw [← hop] at hends
  rcases exec_ends hends hexec with ⟨r', w', _, rfl, hmarks⟩ | ⟨h, w', hout, _⟩
  · rw [show (s.put e.pid w').fds e.pid = w'.fdTable from Function.update_self ..]
    rcases hmarks with heq | ⟨hfile, hret, heq⟩
    · exact (congrFun heq fd.toNat).trans hexcl
    · have hne := hkernel pathname flags mode hcall hfile
      refine (congrFun heq fd.toNat).trans ?_
      rw [Function.update_of_ne (by omega)]
      exact hexcl
  · cases hout

/-- What tells which file a descriptor refers to. -/
def seat (f : FdInfo) : Bool × Bool × Nat := (f.empty, f.exclusive, f.mindex)

theorem seat_unstamped : Unstamped seat := ⟨fun _ _ _ => rfl, fun _ _ _ => rfl⟩

theorem FdInfo.IsOpen.congr {f' : FdInfo} (hopen : f.IsOpen) (hseat : seat f' = seat f) :
    f'.IsOpen ∧ f'.mindex = f.mindex := by
  injection hseat with hempty hrest
  injection hrest with hexcl hmb
  exact ⟨⟨hempty.trans hopen.1, hexcl.trans hopen.2⟩, hmb⟩

/-- `close`, `pread` and `pwrite` leave the other descriptors to their files. -/
theorem positioned_seat (hpos : Positioned e.call) (hclose : e.call ≠ .close fd) (hfd : 0 ≤ fd)
    (hexec : exec defaultBuild s e = (.ret r, s')) :
    seat (s'.fds e.pid fd.toNat) = seat (s.fds e.pid fd.toNat) := by
  have hends : Ends (callOp defaultBuild e.env e.call (s.view e.pid))
      (fun _ w' => seat (w'.fdTable fd.toNat) = seat (s.fds e.pid fd.toNat)) (fun _ _ => True) := by
    have hview : ∀ {x : Op World Ret}, Frames (fdView seat) x → Ends (x (s.view e.pid))
        (fun _ w' => seat (w'.fdTable fd.toNat) = seat (s.fds e.pid fd.toNat))
        (fun _ _ => True) :=
      fun hx => (hx _).mono (fun _ _ heq => congrFun heq fd.toNat) (fun _ _ _ => trivial)
    generalize e.call = call at hpos hclose
    cases call with
    | close fd' =>
        refine (sysClose_ends e.env fd' (s.view e.pid)).mono ?_ (fun _ _ _ => trivial)
        rintro r w' ⟨hpos', _, hcl⟩
        have hne : fd.toNat ≠ fd'.toNat := fun heq => hclose (by rw [show fd' = fd by omega])
        cases hcl with
        | kernel => exact congrArg seat (Function.update_of_ne hne ..)
        | refused => exact rfl
        | unopened => exact rfl
        | store => exact congrArg seat (Function.update_of_ne hne ..)
    | pread fd' count offset => exact hview (sysPread_view _ _ seat_unstamped fd' count offset)
    | pwrite fd' buf offset => exact hview (sysPwrite_view _ _ seat_unstamped fd' buf offset)
    | «open» _ _ _ => exact hpos.elim
    | read _ _ => exact hpos.elim
    | write _ _ => exact hpos.elim
    | unlink _ => exact hpos.elim
    | rename _ _ => exact hpos.elim
    | xstat _ => exact hpos.elim
    | fxstat _ => exact hpos.elim
    | upload _ => exact hpos.elim
  rcases exec_ends hends hexec with ⟨_, w', _, rfl, hseat⟩ | ⟨h, w', hout, _⟩
  · rw [show (s.put e.pid w').fds e.pid = w'.fdTable from Function.update_self ..]
    exact hseat
  · cases hout

/-- The other calls leave the descriptor to its file. -/
theorem SysStep.slot_kept {r : Ret} (hstep : SysStep s e (.ret r) rows ch done s' rows' ch')
    (hexec : exec defaultBuild s e = (.ret r, s')) (hcall : ¬ Positioned e.call)
    (hkernel : KernelSpares fd e) (hopen : (s.fds e.pid fd.toNat).IsOpen) :
    (s'.fds e.pid fd.toNat).IsOpen ∧
      (s'.fds e.pid fd.toNat).mindex = (s.fds e.pid fd.toNat).mindex := by
  have hfds := hstep.fds r rfl
  have hmark := fun pathname flags mode (hc : e.call = .open pathname flags mode) =>
    open_keeps_mark hkernel hc hexec hopen.2
  revert hmark
  generalize e.call = call at hcall hfds
  generalize hfds' : s'.fds e.pid = fds' at hfds
  intro hmark
  cases hfds with
  | same => exact ⟨hopen, rfl⟩
  | @next _ _ fd' _ _ hu hnext =>
      by_cases hi : fd.toNat = fd'.toNat
      · rw [hi] at hopen ⊢
        have hself := hnext.self
        exact ⟨⟨hself.empty.trans hopen.1, hself.exclusive.trans hopen.2⟩, hself.mindex⟩
      · rw [hnext.other _ hi]
        exact ⟨hopen, rfl⟩
  | @opened _ _ _ _ j _ _ _ hslot _ _ _ _ =>
      have hi : fd.toNat ≠ j := by
        intro hi
        have hfree := hslot.free
        rw [← hi] at hfree
        exact Bool.false_ne_true (hopen.1.symm.trans hfree)
      rw [hslot.other _ hi]
      exact ⟨hopen, rfl⟩
  | forwarded hfwd =>
      rcases hfwd with rfl | ⟨j, rfl⟩
      · exact ⟨hopen, rfl⟩
      · by_cases hi : fd.toNat = j
        · have := hmark _ _ _ rfl
          rw [hi, Function.update_self] at this
          cases this
        · rw [Function.update_of_ne hi]
          exact ⟨hopen, rfl⟩
  | closed => exact absurd trivial hcall

theorem RemovalInv.slot_kept (hinv : RemovalInv s) (hok : RemovesAny s e out)
    (hexec : exec defaultBuild s e = (out, s')) (hleaves : LeavesOpen pid fd m s e out)
    (hpos : 0 ≤ fd) (hopen : (s.fds pid fd.toNat).IsOpen) :
    (s'.fds pid fd.toNat).IsOpen ∧ (s'.fds pid fd.toNat).mindex = (s.fds pid fd.toNat).mindex := by
  by_cases hpid : e.pid = pid
  · subst hpid
    obtain ⟨hclose, hret, hkernel⟩ := hleaves.stays rfl
    cases out with
    | halt h => cases hret
    | ret r =>
        rcases hinv.step_cases hok hexec with ⟨hcall, _, _, _, _, _, _, hstep⟩ | ⟨hcall, _⟩
        · exact hstep.slot_kept hexec hcall hkernel hopen
        · exact hopen.congr (positioned_seat hcall hclose hpos hexec)
  · obtain ⟨_, hfds, _⟩ := hinv.links.step hexec hok.1
    rw [hfds.other pid (Ne.symm hpid)]
    exact ⟨hopen, rfl⟩

/-! The file of the descriptor. -/

/-- In `s` the entry `i` of the process still refers to the file `m` that it referred
to in `s₁`: the file is in use, with the first bucket and the chain it had there, and
the chain has grown at its end at most. -/
structure Denotes (s₁ s : Sys) (pid i m : Nat) : Prop where
  slot : (s.fds pid i).IsOpen
  mindex : (s.fds pid i).mindex = m
  used : (s.table.mb m).inUse = true
  first : (s.table.mb m).firstDbucket = (s₁.table.mb m).firstDbucket
  chain : ∃ new, fileChain s m = fileChain s₁ m ++ new
  cursor : (s.table.mb m).lastDbucket ∈ fileChain s m

theorem LinkWf.cursor_mem (wf : LinkWf (s.store rows ch)) (huse : (s.table.mb m).inUse = true)
    (hcur : (s.table.mb m).lastDbucket ≠ noIx) : (s.table.mb m).lastDbucket ∈ fileChain s m := by
  rw [wf.fileChain_eq huse]
  exact (wf.onChain m huse).resolve_left hcur

/-- The list behind a link grows at its end when links are only added. -/
theorem Linked.grows {i : Nat} {l l' : List Nat} (hg : DataGrows d d')
    (hl : Linked d.next noIx i l) (hl' : Linked d'.next noIx i l') : ∃ new, l' = l ++ new := by
  induction l generalizing i l' with
  | nil => exact ⟨l', rfl⟩
  | cons b l ih =>
      obtain ⟨rfl, hne, htail⟩ := hl
      cases l' with
      | nil => exact absurd hl' hne
      | cons c l' =>
          obtain ⟨rfl, _, htail'⟩ := hl'
          by_cases hend : d.next i = noIx
          · obtain rfl : l = [] := by
              cases l with
              | nil => rfl
              | cons c l => exact absurd (htail.1.symm.trans hend) htail.2.1
            exact ⟨l', rfl⟩
          · rw [hg.next i hend] at htail'
            obtain ⟨new, rfl⟩ := ih htail htail'
            exact ⟨new, rfl⟩

/-- The chain of a file that keeps its first bucket only grows at its end. -/
theorem LinkWf.fileChain_grows (wf : LinkWf (s.store rows ch)) (wf' : LinkWf (s'.store rows' ch'))
    (hg : DataGrows s.data s'.data) (huse : (s.table.mb m).inUse = true)
    (huse' : (s'.table.mb m).inUse = true)
    (hfirst : (s'.table.mb m).firstDbucket = (s.table.mb m).firstDbucket) :
    ∃ new, fileChain s' m = fileChain s m ++ new := by
  have hl' : Linked s'.data.next noIx (s'.table.mb m).firstDbucket (ch' m) := wf'.linked m huse'
  rw [hfirst] at hl'
  rw [wf.fileChain_eq huse, wf'.fileChain_eq huse']
  exact Linked.grows hg (wf.linked m huse) hl'

theorem Denotes.start (hinv : RemovalInv s) (hopen : (s.fds pid i).IsOpen)
    (hmb : (s.fds pid i).mindex = m) (huse : (s.table.mb m).inUse = true)
    (hcur : (s.table.mb m).lastDbucket ≠ noIx) : Denotes s s pid i m := by
  obtain ⟨rows, ch, wf⟩ := hinv.store
  exact ⟨hopen, hmb, huse, rfl, ⟨[], (List.append_nil _).symm⟩, wf.cursor_mem huse hcur⟩

/-- A file with a cursor has a first bucket. -/
theorem Denotes.first_ne (hden : Denotes s₁ s pid i m) (wf : LinkWf (s.store rows ch)) :
    (s.table.mb m).firstDbucket ≠ noIx := by
  intro hno
  have hmem := hden.cursor
  rw [wf.fileChain_eq hden.used] at hmem
  have hhead := (wf.linked m hden.used).head_eq
  cases hch : ch m with
  | nil =>
      rw [hch] at hmem
      cases hmem
  | cons b l =>
      rw [show (s.store rows ch).ch m = b :: l from hch] at hhead
      refine (wf.owned m hden.used b (by rw [show (s.store rows ch).ch m = _ from hch]; simp)).ne_noIx ?_
      exact hhead.symm.trans hno

/-- The cursor of a file that stays in use stays on a bucket. -/
theorem Denotes.placed (hden : Denotes s₁ s pid i m) (hinv : RemovalInv s)
    (hok : RemovesAny s e out) (hexec : exec defaultBuild s e = (out, s'))
    (huse' : (s'.table.mb m).inUse = true) : (s'.table.mb m).lastDbucket ≠ noIx := by
  rcases hinv.step_cases hok hexec with ⟨_, rows, ch, _, _, _, wf, hstep⟩ | ⟨_, hk⟩
  · have hmem := hden.cursor
    rw [wf.toLinkWf.fileChain_eq hden.used] at hmem
    exact hstep.effect.placed wf (List.ne_nil_of_mem hmem) hden.used huse'
      (wf.owned m hden.used _ hmem).ne_noIx
  · obtain ⟨rows, ch, wf⟩ := hinv.store
    have hmem := hden.cursor
    rw [wf.toLinkWf.fileChain_eq hden.used] at hmem
    rw [show (s'.table.mb m).lastDbucket = _ from hk.last m]
    exact (wf.owned m hden.used _ hmem).ne_noIx

theorem Denotes.step (hden : Denotes s₁ s pid fd.toNat m) (hinv : RemovalInv s)
    (hok : RemovesAny s e out) (hleaves : LeavesOpen pid fd m s e out) (hpos : 0 ≤ fd)
    (hexec : exec defaultBuild s e = (out, s')) : Denotes s₁ s' pid fd.toNat m := by
  obtain ⟨hrel, _, hlinks⟩ := hinv.links.step hexec hok.1
  obtain ⟨rows, ch, wf⟩ := hinv.links.links
  obtain ⟨rows', ch', wf'⟩ := hlinks.links
  obtain ⟨hslot, hmb⟩ := hinv.slot_kept hok hexec hleaves hpos hden.slot
  obtain ⟨huse', hkept⟩ := hrel.kept m hden.used hleaves.spares
  have hfirst := hkept (hden.first_ne wf)
  refine ⟨hslot, hmb.trans hden.mindex, huse', hfirst.trans hden.first, ?_,
    wf'.cursor_mem huse' (hden.placed hinv hok hexec huse')⟩
  obtain ⟨old, hold⟩ := hden.chain
  obtain ⟨new, hnew⟩ := wf.fileChain_grows wf' hrel.grows hden.used huse' hfirst
  exact ⟨old ++ new, by rw [hnew, hold, List.append_assoc]⟩

/-- A cache that agrees with the walk agrees with the chain. -/
theorem CacheAgrees.cacheOk (hc : CacheAgrees w f) (wf : LinkWf (w.store rows ch))
    (huse : (w.table.mb f.mindex).inUse = true) : CacheOk f (ch f.mindex) := by
  intro j hj hpos hne
  have hwalk := hc j hj hpos hne
  have hlinked : Linked w.data.next noIx (w.table.mb f.mindex).firstDbucket (ch f.mindex) :=
    wf.linked _ huse
  have hown : ∀ b ∈ ch f.mindex, w.data.Owned b := wf.owned _ huse
  injection (walkLoop_eq wf.links.steps hlinked hown).symm.trans hwalk with hplace
  exact getElem_of_placeOf hplace hne

/-- The effect of an event on the files: it changes no meta bucket but `m` and no data
bucket in use outside the chain of `m`, hands out bytes and a stat buffer of that file
alone, and ends the process only when the store is full. -/
structure ActsOnFile (s : Sys) (m : Nat) (out : Out) (s' : Sys) : Prop where
  table : ∀ a : Int, a ≠ m → s'.table.mb a = s.table.mb a
  data : ∀ b, (s.data.bucket b).inUse = true → b ∉ fileChain s m →
    s'.data.bucket b = s.data.bucket b
  bytes : ∀ r, out = .ret r → ∀ x ∈ r.data,
    ∃ b ∈ fileChain s m, ∃ k < dbucketBufSize, x = (s.data.bucket b).buf k
  stat : ∀ r st, out = .ret r → r.stat = some st → st = (s.table.mb m).s
  stops : ∀ h, out = .halt h → h = .exit .dataBucketOverUse

theorem Denotes.acts {call : Call} (hden : Denotes s₁ s pid fd.toNat m) (hinv : RemovalInv s)
    (hwalks : CacheWalks s pid fd.toNat) (hpos : 0 ≤ fd) (hlt : fd < maxNumFd)
    (hcall : Through fd call) (hok : CallOk call)
    (hin : StaysInBucket s.data (fileChain s m) call)
    (hexec : exec defaultBuild s ⟨pid, env, call⟩ = (out, s')) : ActsOnFile s m out s' := by
  obtain ⟨rows, ch, wf⟩ := hinv.store
  have huse := hden.used
  have hchain : fileChain s m = ch m := wf.toLinkWf.fileChain_eq huse
  have hmem := hden.cursor
  rw [hchain] at hin hmem
  have hu : UserFd (s.view pid) fd m :=
    ⟨hpos, hlt, hden.slot.2, hden.slot.1, hden.mindex⟩
  have hcache : CacheOk ((s.view pid).fdTable fd.toNat) (ch m) := by
    have huse' : (s.table.mb (s.fds pid fd.toNat).mindex).inUse = true := by
      rw [hden.mindex]
      exact huse
    have hagrees : CacheAgrees (s.view pid) (s.fds pid fd.toNat) := hwalks hden.slot
    have hcache := hagrees.cacheOk wf.toLinkWf huse'
    rwa [hden.mindex] at hcache
  have hacts := @through_acts (s.view pid) rows ch env fd m call wf hu huse hcache
    (wf.owned m huse _ hmem).ne_noIx hcall hok hin
  rcases exec_ends (e := ⟨pid, env, call⟩) hacts hexec with
    ⟨r, w', rfl, rfl, htab, hdata, hbytes, hstat⟩ | ⟨h, w', rfl, rfl, htab, hdata, hstop⟩
  · refine ⟨fun a ha => congrFun htab ⟨a, ha⟩, ?_, ?_, ?_, fun h => nofun⟩
    · rw [hchain]
      exact fun b hb hnot => hdata b hnot hb
    · rw [hchain]
      rintro _ ⟨⟩
      exact hbytes
    · rintro _ st ⟨⟩
      exact hstat st
  · refine ⟨fun a ha => congrFun htab ⟨a, ha⟩, ?_, fun r => nofun, fun r st => nofun, ?_⟩
    · rw [hchain]
      exact fun b hb hnot => hdata b hnot hb
    · rintro _ ⟨⟩
      exact hstop

/-- From the `open` that returned a descriptor of a file with a data bucket until the
descriptor is closed, its process ends or its file is removed, in every run and whatever
other files are removed: the descriptor refers to a file with the path that was opened,
always the same one, and every call through it acts on that file alone. -/
theorem open_descriptor_keeps_file (hreach : Run defaultBuild RemovesAny initSys s₀)
    (hfile : exclusivePath pathname = false) (hok : CallOk (.open pathname flags mode))
    (hopen : exec defaultBuild s₀ ⟨pid, env, .open pathname flags mode⟩ = (.ret r, s₁))
    (hret : r.ret = fd) (hpos : 0 ≤ fd) (hmb : (s₁.fds pid fd.toNat).mindex = m)
    (hdata : (s₁.table.mb m).firstDbucket ≠ noIx)
    (hrun : Run defaultBuild (fun s e out => RemovesAny s e out ∧ LeavesOpen pid fd m s e out)
      s₁ s) :
    (∃ p, absPath env pathname = .ok p ∧ samePath p (s₁.table.mb m).path = true) ∧
      Denotes s₁ s pid fd.toNat m ∧ ∀ env' call out s', Through fd call → CallOk call →
        StaysInBucket s.data (fileChain s m) call →
        exec defaultBuild s ⟨pid, env', call⟩ = (out, s') → ActsOnFile s m out s' := by
  subst hret
  have hinv₀ : RemovalInv s₀ :=
    hreach.invariant initSys_removalInv (fun _ _ _ _ hinv hok hexec => hinv.step hok hexec)
  have hok₁ : RemovesAny s₀ ⟨pid, env, .open pathname flags mode⟩ (.ret r) := ⟨trivial, hok⟩
  have hinv₁ : RemovalInv s₁ := hinv₀.step hok₁ hopen
  obtain ⟨p, m', hpath, hlow, hhigh, hfree, hslot, hmb', huse, hname, hstart⟩ :=
    hinv₀.open_slot hfile hopen hpos
  obtain rfl : m = m' := hmb.symm.trans hmb'
  rw [← hstart] at hdata
  have hwalks₁ : CacheWalks s₁ pid r.ret.toNat := by
    refine hinv₀.links.cacheWalks hopen trivial ?_ ?_
    · exact fun h => absurd h.1 (by simp [hfree])
    · exact fun h => absurd h.1 (by simp [hfree])
  have hden : RemovalInv s ∧ CacheWalks s pid r.ret.toNat ∧ Denotes s₁ s pid r.ret.toNat m := by
    refine hrun.invariant
      (P := fun s => RemovalInv s ∧ CacheWalks s pid r.ret.toNat ∧ Denotes s₁ s pid r.ret.toNat m)
      ⟨hinv₁, hwalks₁, .start hinv₁ hslot hmb huse hdata⟩ ?_
    rintro s e out s' ⟨hinv, hwalks, hden⟩ ⟨hok, hleaves⟩ hexec
    refine ⟨hinv.step hok hexec, ?_, hden.step hinv hok hleaves hpos hexec⟩
    refine hinv.links.cacheWalks hexec hok.1 (fun _ => ?_) hwalks
    rw [hden.mindex]
    exact hleaves.spares
  obtain ⟨hinv, hwalks, hden⟩ := hden
  refine ⟨⟨p, hpath, hname⟩, hden, fun env' call out s' hcall hok hin hexec => ?_⟩
  exact hden.acts hinv hwalks hpos (by omega) hcall hok hin hexec

/-! Two runs. -/

theorem emptyDisk_leavesOpen {c : Call} (hret : out.isRet = true) (hok : CallOk c)
    (hclose : c ≠ .close 1024) (hno : ¬ FreesFile emptyDisk s.table m c) :
    RemovesAny s ⟨0, emptyDisk, c⟩ out ∧ LeavesOpen 0 1024 m s ⟨0, emptyDisk, c⟩ out :=
  ⟨⟨(Out.isRet_spec hret).1, hok⟩, hno, fun _ =>
    ⟨hclose, hret, fun _ _ _ _ _ => show (-1 : Int) ≠ 1024 by decide⟩⟩

/-- While the descriptor 1024 refers to `/a`, the file `/b` of the descriptor 1025 is
removed, and a `pwrite` through 1025 still finds the old bucket of `/b` in the cache. -/
def besideRemoved : List Call :=
  [.open pathB 66 0, .pread 1025 1 0, .unlink pathB, .pwrite 1025 [8] 0, .write 1024 [1, 2, 3]]

theorem open_descriptor_keeps_beside :
    Denotes (afterCalls [.open pathA 66 0]) (afterCalls (.open pathA 66 0 :: besideRemoved))
      0 1024 0 := by
  have hopen : exec defaultBuild initSys ⟨0, emptyDisk, .open pathA 66 0⟩ =
      (.ret ⟨1024, .ok, [], none⟩, afterCalls [.open pathA 66 0]) := rfl
  have hother : ¬ FreesFile emptyDisk
      (afterCalls [.open pathA 66 0, .open pathB 66 0, .pread 1025 1 0]).table (0 : Nat)
      (.unlink pathB) := by
    rintro ⟨_, p, hpath, hsame⟩
    obtain rfl : pathB = p := Except.ok.inj hpath
    exact absurd hsame (by decide +kernel)
  refine (open_descriptor_keeps_file (m := 0) .refl (by decide) (fun h => absurd h (by decide))
    hopen rfl (by decide) rfl (by decide +kernel) ?_).2.1
  refine .head ⟨_, _, rfl, emptyDisk_leavesOpen (c := .open pathB 66 0) (by decide +kernel)
    (fun h => absurd h (by decide)) nofun id⟩ ?_
  refine .head ⟨_, _, rfl, emptyDisk_leavesOpen (c := .pread 1025 1 0) (by decide +kernel)
    (Int.le_refl 0) nofun id⟩ ?_
  refine .head ⟨_, _, rfl, emptyDisk_leavesOpen (c := .unlink pathB) (by decide +kernel)
    trivial nofun hother⟩ ?_
  refine .head ⟨_, _, rfl, emptyDisk_leavesOpen (c := .pwrite 1025 [8] 0) (by decide +kernel)
    (Int.le_refl 0) nofun id⟩ ?_
  exact .head ⟨_, _, rfl, emptyDisk_leavesOpen (c := .write 1024 [1, 2, 3]) (by decide +kernel)
    trivial nofun id⟩ .refl

/-- `/a` is removed while the descriptor 1024 refers to it: a read through it ends the
process, and after `/b` was created a write through it changes the size of `/b`. -/
theorem removed_while_open :
    Run defaultBuild AnyCall initSys (afterCalls [.open pathA 66 0, .unlink pathA]) ∧
    (exec defaultBuild (afterCalls [.open pathA 66 0, .unlink pathA])
      ⟨0, emptyDisk, .read 1024 1⟩).1 = .halt (.exit .stepNotYetCreated) ∧
    Run defaultBuild AnyCall initSys
      (afterCalls [.open pathA 66 0, .unlink pathA, .open pathB 66 0]) ∧
    lookup (afterCalls [.open pathA 66 0, .unlink pathA, .open pathB 66 0]).table pathB = some 0 ∧
    ((afterCalls [.open pathA 66 0, .unlink pathA, .open pathB 66 0]).table.mb 0).s.stSize = 0 ∧
    ((exec defaultBuild (afterCalls [.open pathA 66 0, .unlink pathA, .open pathB 66 0])
      ⟨0, emptyDisk, .write 1024 [1, 2, 3]⟩).2.table.mb 0).s.stSize = 3 := by
  refine ⟨?_, rfl, ?_, by decide +kernel, by decide +kernel, by decide +kernel⟩
  · exact run_of_allReturn (by decide +kernel) (fun c _ s out hret => (Out.isRet_spec hret).1)
  · exact run_of_allReturn (by decide +kernel) (fun c _ s out hret => (Out.isRet_spec hret).1)

end Spacefish
