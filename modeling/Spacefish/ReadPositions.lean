import Spacefish.OpenExisting
import Spacefish.Representation

/-!
The read position of a file. It is a field of the meta bucket, so that all
descriptors of a file share it: an `open` puts it back to the start and a `read`
through any descriptor moves it. A reader whose file nobody else opens, and
nobody else reads from, gets the content in order.
-/

namespace Spacefish

open LinkedArray Program Buffer

/-! What a call leaves of a file it does not use. -/

/-- The file `m` with the chain `l` is as it was. -/
structure FileKept (w w' : World) (l : List Nat) (m : Int) : Prop where
  inUse : (w'.table.mb m).inUse = (w.table.mb m).inUse
  first : (w'.table.mb m).firstDbucket = (w.table.mb m).firstDbucket
  last : (w'.table.mb m).lastDbucket = (w.table.mb m).lastDbucket
  off : (w'.table.mb m).lastDbOffset = (w.table.mb m).lastDbOffset
  data : ∀ b ∈ l, w'.data.bucket b = w.data.bucket b

/-- Entry `j` refers to the same file as before. -/
structure SlotKept (f f' : FdInfo) : Prop where
  empty : f'.empty = f.empty
  exclusive : f'.exclusive = f.exclusive
  mindex : f'.mindex = f.mindex

variable {w w' w₁ : World} {rows : Nat → List Int} {ch : Int → List Nat} {m a : Int} {env : Env}
  {pathname p : Path} {flags mode j : Nat} {fd : Int} {l : List Nat} {f : FileCore → FileCore}
  {count : UInt64}

theorem SlotKept.refl (f : FdInfo) : SlotKept f f := ⟨rfl, rfl, rfl⟩

theorem FileKept.refl (w : World) (l : List Nat) (m : Int) : FileKept w w l m :=
  ⟨rfl, rfl, rfl, rfl, fun _ _ => rfl⟩

theorem FileKept.of_core {n : Int}
    (hcore : (w'.table.mb m).core = { (w.table.mb m).core with nextIx := n })
    (hdata : ∀ b ∈ l, w'.data.bucket b = w.data.bucket b) : FileKept w w' l m :=
  ⟨congrArg FileCore.inUse hcore, congrArg FileCore.first hcore, congrArg FileCore.last hcore,
    congrArg FileCore.off hcore, hdata⟩

theorem FileKept.edit (hk : FileKept w w₁ l m) (he : Edited w₁.table w'.table a f) (ham : m ≠ a)
    (hdata : w'.data = w₁.data) : FileKept w w' l m := by
  have hcore := he.other m ham
  refine ⟨(congrArg FileCore.inUse hcore).trans hk.inUse,
    (congrArg FileCore.first hcore).trans hk.first, (congrArg FileCore.last hcore).trans hk.last,
    (congrArg FileCore.off hcore).trans hk.off, ?_⟩
  rw [hdata]
  exact hk.data

/-- The files that are in use when a new one is made. -/
theorem NewFile.fileKept {h : Nat} (hn : NewFile w rows p h a f w')
    (huse : (w.table.mb m).inUse = true) (hdata : ∀ b ∈ l, w'.data.bucket b = w.data.bucket b) :
    m ≠ a ∧ FileKept w w' l m := by
  obtain ⟨t₁, hc, _⟩ := hn.edited
  have ham : m ≠ a := by
    rintro rfl
    rw [hc.fresh] at huse
    cases huse
  exact ⟨ham, .of_core (hn.core_eq ham) hdata⟩

section

variable (wf : StoreWf (w.store rows ch)) (huse : (w.table.mb m).inUse = true)

include wf huse

omit wf in
theorem Bare.fileKept (hb : Bare w rows w') : FileKept w w' (ch m) m := by
  obtain ⟨p, h, a, f, hnew, _, _, hdata⟩ := hb
  exact (hnew.fileKept huse (fun _ _ => by rw [hdata])).2

theorem Filled.fileKept {buf : List Byte} {h ix : Nat} {new : List Nat} {r : Option WriteOut}
    (hf : Filled w rows p buf h a ix new r w') : m ≠ a ∧ FileKept w w' (ch m) m :=
  hf.file.fileKept huse (fun _ hc => hf.bucket_eq wf huse hc)

theorem Died.fileKept {e : Halt} (hd : Died w rows e w') :
    e = .hang ∨ e = .undefined ∨ FileKept w w' (ch m) m := by
  rcases hd with ⟨rfl, _⟩ | rfl | ⟨u, _, rfl, htab, hdata⟩ | ⟨rfl, ⟨_, hb⟩ | ⟨_, _, _, _, _, _, hf⟩⟩
  · exact Or.inl rfl
  · exact Or.inr (Or.inl rfl)
  · refine Or.inr (Or.inr ⟨by rw [htab], by rw [htab], by rw [htab], by rw [htab], ?_⟩)
    rw [hdata]
    exact fun _ _ => rfl
  · exact Or.inr (Or.inr (hb.fileKept huse))
  · exact Or.inr (Or.inr (hf.fileKept wf huse).2)

/-- An `open` that does not take the file leaves it alone. -/
theorem sysOpen_kept (hexcl : exclusivePath pathname = false) (htr : truncates flags = false)
    (hno : LeadsTo env w.table pathname m →
      hasFlag flags oAppend = true ∨ (hasFlag flags oCreat ∧ hasFlag flags oExcl)) :
    Ends (sysOpen defaultBuild env pathname flags mode w)
      (fun _ w' => FileKept w w' (ch m) m ∧
        ∀ j, (w.fdTable j).empty = false → w'.fdTable j = w.fdTable j)
      (fun e w' => e = .hang ∨ e = .undefined ∨ FileKept w w' (ch m) m) := by
  have hwf : TableWf w.table rows := wf.table
  by_cases hlead : LeadsTo env w.table pathname m
  · rw [hlead.sysOpen_found hwf htr]
    by_cases hx : hasFlag flags oCreat ∧ hasFlag flags oExcl
    · rw [if_pos hx]
      exact ⟨.refl _ _ _, fun _ _ => rfl⟩
    · rw [if_neg hx]
      obtain ⟨e, he⟩ := openPlace_append env m w ((hno hlead).resolve_right hx)
      rw [he]
      exact Or.inr (Or.inr (.refl _ _ _))
  · -- a locked row would let the call wait, and only then does `lookup` miss the file
    by_cases hstuck : pathname.length ≤ pathMax ∧ ∃ p h, absPath env pathname = .ok p ∧
        hash p = .ok h ∧ RowStuck w.table h
    · obtain ⟨hlen, p, h, hpath, hok, hstuck⟩ := hstuck
      rw [sysOpen_rowStuck hexcl hlen hpath hok hstuck]
      exact Or.inl rfl
    · have hother : ∀ {p : Path} {h : Nat} {a : Int}, pathname.length ≤ pathMax →
          absPath env pathname = .ok p → hash p = .ok h →
          findPath w.table p (rows h) = some a → m ≠ a := by
        rintro p h a hlen hpath hok hfind rfl
        rcases hwf.rowLock h with hidle | hbusy
        · refine hlead ⟨hexcl, hlen, p, hpath, ?_⟩
          rw [lookup, hwf.getMbucket_eq hok hidle, hfind]
        · exact hstuck ⟨hlen, p, h, hpath, hok, hbusy⟩
      refine (sysOpen_ends rfl rfl wf pathname flags mode).mono ?_ ?_
      · intro r w' hret
        cases hret with
        | forwarded hyes _ _ _ =>
            rw [hexcl] at hyes
            cases hyes
        | tooLong _ _ _ => exact ⟨.refl _ _ _, fun _ _ => rfl⟩
        | failed _ _ _ _ hwhy =>
            rcases hwhy with ⟨rfl, _⟩ | ⟨_, hbare⟩
            · exact ⟨.refl _ _ _, fun _ _ => rfl⟩
            · exact ⟨hbare.fileKept huse, fun _ _ => by rw [hbare.fds]⟩
        | opened _ hlen hpath hres he hdata hslot =>
            refine ⟨?_, fun j hj => ?_⟩
            · cases hres with
              | found hok hfind _ =>
                  exact (FileKept.refl _ _ _).edit he (hother hlen hpath hok hfind) hdata
              | truncated _ _ hyes _ _ =>
                  rw [htr] at hyes
                  cases hyes
              | made _ hfill =>
                  obtain ⟨ham, hk⟩ := hfill.fileKept wf huse
                  exact hk.edit he ham hdata
            · rcases hslot with ⟨_, hfds, _⟩ | ⟨i, _, hslot⟩
              · rw [hfds, hres.fds]
              · rw [hres.fds] at hslot
                refine hslot.other j ?_
                rintro rfl
                rw [hslot.free] at hj
                cases hj
      · rintro e w' (hd | ⟨_, rfl | ⟨rfl, p, a, hpath, hres⟩⟩)
        · exact hd.fileKept wf huse
        · exact Or.inl rfl
        · refine Or.inr (Or.inr ?_)
          cases hres with
          | found _ _ _ => exact .refl _ _ _
          | truncated _ _ hyes _ _ =>
              rw [htr] at hyes
              cases hyes
          | made _ hfill => exact (hfill.fileKept wf huse).2

end

/-- A call on a descriptor that is not one of the store changes nothing: the kernel answers
it, or the descriptor is not open. -/
theorem notUser_same {x : Op World Ret} {a b : Ret} {k : FdInfo → Op World Ret}
    (hx : x = fddes fd >>= fun f => if f.exclusive then pure a else if f.empty then pure b else k f)
    (hno : ∀ m, ¬ UserFd w fd m) :
    Ends (x w)
      (fun r w' => w' = w ∧ 0 ≤ fd ∧ fd < maxNumFd ∧
        ((r = a ∧ (w.fdTable fd.toNat).exclusive = true) ∨
          (r = b ∧ (w.fdTable fd.toNat).exclusive = false ∧ (w.fdTable fd.toNat).empty = true)))
      (fun e w' => e = .undefined ∧ w' = w) := by
  subst hx
  by_cases hin : 0 ≤ fd ∧ fd < maxNumFd
  · rw [fddes, bind_assoc, run_get_bind, if_pos hin, run_pure_bind, run_ite]
    by_cases hexcl : (w.fdTable fd.toNat).exclusive = true
    · rw [if_pos hexcl]
      exact ⟨rfl, hin.1, hin.2, Or.inl ⟨rfl, hexcl⟩⟩
    · rw [if_neg hexcl, run_ite]
      by_cases hempty : (w.fdTable fd.toNat).empty = true
      · rw [if_pos hempty]
        exact ⟨rfl, hin.1, hin.2, Or.inr ⟨rfl, by simpa using hexcl, hempty⟩⟩
      · exact absurd ⟨hin.1, hin.2, by simpa using hexcl, by simpa using hempty, rfl⟩ (hno _)
  · rw [fddes, bind_assoc, run_get_bind, if_neg hin]
    exact ⟨rfl, rfl⟩

/-- The bytes between the position of a file and its end. -/
def unread (w : World) (m : Int) : Nat :=
  total w.data (chainFrom w.data walkFuel (w.table.mb m).lastDbucket) -
    (w.table.mb m).lastDbOffset.toNat

/-- A `read` through a descriptor of another file, or one that returns nothing,
leaves the file alone. -/
theorem sysRead_kept (wf : StoreWf (w.store rows ch))
    (hslots : ∀ i, SlotOk (w.store rows ch) i (w.fdTable i))
    (hno : ∀ a : Nat, UserFd w fd a → (a : Int) = m → count = 0 ∨ unread w m = 0) :
    Ends (sysRead env fd count w)
      (fun _ w' => FileKept w w' (ch m) m ∧ ∀ j, SlotKept (w.fdTable j) (w'.fdTable j))
      (fun e w' => e = .undefined ∨ FileKept w w' (ch m) m) := by
  by_cases hex : ∃ a, UserFd w fd a
  · obtain ⟨a, hu⟩ := hex
    have huse : (w.table.mb a).inUse = true := (hu.used (hslots _)).1
    by_cases hcur : (w.table.mb a).lastDbucket = noIx
    · rw [sysRead_noData wf hu hcur]
      exact Or.inr (.refl _ _ _)
    · obtain ⟨pre, l, rd, hsplit, hoff, hread, hrun⟩ := sysRead_eq wf hu huse hcur
      rw [hrun, ends_ok]
      by_cases hpos : rd.data.length > 0
      · rw [if_pos hpos]
        have ham : m ≠ a := by
          intro ham
          -- the cursor is at the end, so that nothing can be read
          obtain ⟨hlinked, _, hlen⟩ := wf.suffix huse hsplit
          have hchain := chainFrom_eq hlinked (Nat.lt_succ_of_le hlen)
          have hdata := congrArg List.length hread.data
          rw [List.length_take, List.length_drop, content_length] at hdata
          rcases hno a hu ham.symm with rfl | hend
          · rw [UInt64.toNat_zero, Nat.zero_min] at hdata
            omega
          · rw [unread, ham, walkFuel, hchain] at hend
            omega
        refine ⟨?_, fun j => ?_⟩
        · have he : Edited w.table (afterRead env fd a rd w).table a
              (fun c => { c with last := rd.dbindex, off := rd.off }) := by
            dsimp only [afterRead, World.setFd]
            exact Edited.setMb rfl
          exact (FileKept.refl _ _ _).edit he ham rfl
        · dsimp only [afterRead, World.setFd]
          by_cases hj : j = fd.toNat
          · subst hj
            rw [Function.update_self]
            exact ⟨rfl, rfl, rfl⟩
          · rw [Function.update_of_ne hj]
            exact .refl _
      · rw [if_neg hpos]
        exact ⟨.refl _ _ _, fun _ => .refl _⟩
  · refine (notUser_same rfl (fun a hu => hex ⟨a, hu⟩)).mono ?_ ?_
    · rintro r w' ⟨rfl, _⟩
      exact ⟨.refl _ _ _, fun _ => .refl _⟩
    · rintro e w' ⟨rfl, rfl⟩
      exact Or.inl rfl

theorem sysClose_kept (l : List Nat) (m : Int) :
    Ends (sysClose env fd w)
      (fun _ w' => FileKept w w' l m ∧ 0 ≤ fd ∧ ∀ j ≠ fd.toNat, w'.fdTable j = w.fdTable j)
      (fun e _ => e = .undefined) := by
  have hother : ∀ (w : World) (g : FdInfo → FdInfo) (j : Nat), j ≠ fd.toNat →
      (w.setFd fd.toNat g).fdTable j = w.fdTable j := by
    intro w g j hj
    simp [World.setFd, hj]
  refine (sysClose_ends env fd w).mono ?_ (fun e w' hstop => hstop.1)
  rintro r w' ⟨hpos, _, hclose⟩
  cases hclose with
  | kernel => exact ⟨⟨rfl, rfl, rfl, rfl, fun _ _ => rfl⟩, hpos, hother w _⟩
  | refused => exact ⟨.refl _ _ _, hpos, fun _ _ => rfl⟩
  | unopened => exact ⟨.refl _ _ _, hpos, fun _ _ => rfl⟩
  | @store a hu =>
      refine ⟨?_, hpos, hother _ _⟩
      have he := edited_closeStamps w.table a (w.fdTable fd.toNat)
      by_cases ham : m = a
      · subst ham
        exact .of_core (n := (w.table.mb a).nextIx) he.self (fun _ _ => rfl)
      · exact (FileKept.refl w l m).edit he ham rfl

/-! The reader. -/

/-- The event is a `read` of process `pid` through `fd`. -/
def readsThrough (pid : Nat) (fd : Int) (e : Event) : Bool :=
  match e.call with
  | .read fd' _ => decide (e.pid = pid ∧ fd' = fd)
  | _ => false

/-- What the reads of process `pid` through `fd` return, one after the other. -/
def delivered (pid : Nat) (fd : Int) : Sys → List Event → List Byte
  | _, [] => []
  | s, e :: es =>
      (if readsThrough pid fd e then (exec defaultBuild s e).1.data else []) ++
        delivered pid fd (exec defaultBuild s e).2 es

/-- How many bytes these reads ask for. -/
def asked (pid : Nat) (fd : Int) : List Event → Nat
  | [] => 0
  | e :: es =>
      (match e.call with
        | .read _ count => if readsThrough pid fd e then count.toNat else 0
        | _ => 0) + asked pid fd es

/-- The calls of an interleaving of the reader with others that open, read and
close files without modifying them. The reader's process does not end. -/
def SharedReads (pid : Nat) (fd : Int) (e : Event) (out : Out) : Prop :=
  (match e.call with
    | .open pathname flags _ => exclusivePath pathname = false ∧ truncates flags = false
    | .read _ _ => True
    | .close fd' => e.pid = pid → fd' ≠ fd
    | _ => False) ∧
  ReturnsOrExits out ∧ (e.pid = pid → Returns out)

/-- The event moves no position of the file `m` but by a `read` through `fd`: it
is no other `open` that takes the file, and no other `read` that finds data. -/
def Undisturbed (pid : Nat) (fd : Int) (m : Nat) (s : Sys) (e : Event) : Prop :=
  match e.call with
  | .open pathname flags _ => LeadsTo e.env s.table pathname m →
      hasFlag flags oAppend = true ∨ (hasFlag flags oCreat ∧ hasFlag flags oExcl)
  | .read fd' count => readsThrough pid fd e = false → UserFd (s.view e.pid) fd' m →
      count = 0 ∨ unread (s.view e.pid) m = 0
  | _ => True

/-- The reader holds `fd` for the file `m`, which has the chain `l` and stands at
position `pos` of its content. -/
structure Reading (s : Sys) (pid : Nat) (fd : Int) (m : Nat) (l : List Nat) (c : List Byte)
    (pos : Nat) : Prop where
  user : UserFd (s.view pid) fd m
  chain : fileChain s m = l
  data : content s.data l = c
  bare : l = [] → (s.table.mb m).lastDbucket = noIx
  place : l ≠ [] → ∃ pre l', l = pre ++ (s.table.mb m).lastDbucket :: l' ∧
    total s.data pre + (s.table.mb m).lastDbOffset.toNat = pos

variable {s s' : Sys} {rows' : Nat → List Int} {ch' : Int → List Nat} {pid pos : Nat} {n : Nat}
  {c : List Byte} {e : Event} {out : Out} {es : List Event}

theorem Reading.used (hr : Reading s pid fd n l c pos) (hinv : SysWf s rows ch) :
    (s.table.mb n).inUse = true := by
  have h := (hinv.slots pid fd.toNat).used hr.user.nonempty hr.user.exclusive
  rwa [show (s.fds pid fd.toNat).mindex = n from hr.user.mindex] at h

theorem Reading.chain_eq (hr : Reading s pid fd n l c pos) (hinv : SysWf s rows ch) :
    ch n = l :=
  (hinv.store.toLinkWf.fileChain_eq (hr.used hinv)).symm.trans hr.chain

/-- The reader is where it was after a call that keeps its file. -/
theorem Reading.keep (hr : Reading s pid fd n l c pos) (hinv : SysWf s rows ch)
    (hk : FileKept (s.view e.pid) (s'.view e.pid) l n)
    (hslot : SlotKept (s.fds pid fd.toNat) (s'.fds pid fd.toNat)) :
    Reading s' pid fd n l c pos := by
  have huse := hr.used hinv
  have hch := hr.chain_eq hinv
  have hlinked : Linked s.data.next noIx (s.table.mb n).firstDbucket (ch n) :=
    hinv.store.linked n huse
  have hown : ∀ b ∈ ch n, s.data.Owned b := hinv.store.owned n huse
  rw [hch] at hlinked hown
  have hlen : l.length < walkFuel :=
    Nat.lt_succ_of_le (length_le_totBuckets hlinked.nodup (fun b hb => (hown b hb).1))
  have hdata : ∀ b ∈ l, s'.data.bucket b = s.data.bucket b := hk.data
  have hlast : (s'.table.mb n).lastDbucket = (s.table.mb n).lastDbucket := hk.last
  have hoff : (s'.table.mb n).lastDbOffset = (s.table.mb n).lastDbOffset := hk.off
  obtain ⟨hpos, hlt, hexcl, hempty, hidx⟩ := hr.user
  refine ⟨⟨hpos, hlt, hslot.exclusive.trans hexcl, hslot.empty.trans hempty,
    hslot.mindex.trans hidx⟩, ?_, ?_, ?_, ?_⟩
  · rw [fileChain, show (s'.table.mb n).firstDbucket = (s.table.mb n).firstDbucket from hk.first]
    refine chainFrom_eq (hlinked.congr (fun b hb => ?_)) hlen
    rw [DataShm.next, hdata b hb, DataShm.next]
  · rw [content_congr hdata]
    exact hr.data
  · rw [hlast]
    exact hr.bare
  · rw [hlast, hoff]
    intro hne
    obtain ⟨pre, l', hsplit, hpre⟩ := hr.place hne
    refine ⟨pre, l', hsplit, ?_⟩
    rw [total_congr (fun b hb => ?_)]
    · exact hpre
    · rw [hdata b (by rw [hsplit]; exact List.mem_append_left _ hb)]

theorem Reading.of_ends (hr : Reading s pid fd n l c pos) (hinv : SysWf s rows ch)
    (hends : Ends (callOp defaultBuild e.env e.call (s.view e.pid))
      (fun _ w' => FileKept (s.view e.pid) w' (ch n) n ∧
        (e.pid = pid → SlotKept (s.fds pid fd.toNat) (w'.fdTable fd.toNat)))
      (fun x w' => x = .hang ∨ x = .undefined ∨ FileKept (s.view e.pid) w' (ch n) n))
    (hout : ReturnsOrExits (exec defaultBuild s e).1)
    (hlive : e.pid = pid → Returns (exec defaultBuild s e).1) :
    Reading (exec defaultBuild s e).2 pid fd n l c pos := by
  rw [hr.chain_eq hinv] at hends
  unfold exec at hout hlive ⊢
  cases hrun : callOp defaultBuild e.env e.call (s.view e.pid) with
  | ok r w' =>
      rw [hrun] at hends
      obtain ⟨hk, hslot⟩ := hends
      refine hr.keep (e := e) hinv ⟨hk.inUse, hk.first, hk.last, hk.off, hk.data⟩ ?_
      by_cases hpid : pid = e.pid
      · subst hpid
        simpa [Sys.put] using hslot rfl
      · simp only [Sys.put, Function.update_of_ne hpid]
        exact .refl _
  | error x w' =>
      rw [hrun] at hends hout hlive
      have hpid : pid ≠ e.pid := fun h => hlive h.symm
      rcases hends with rfl | rfl | hk
      · exact hout.elim
      · exact hout.elim
      · refine hr.keep (e := e) hinv ⟨hk.inUse, hk.first, hk.last, hk.off, hk.data⟩ ?_
        simp only [Sys.put, Function.update_of_ne hpid]
        exact .refl _

/-- A call of the others that moves nothing leaves the reader where it is. -/
theorem Reading.other (hr : Reading s pid fd n l c pos) (hinv : SysWf s rows ch)
    (hshared : SharedReads pid fd e (exec defaultBuild s e).1)
    (hundist : Undisturbed pid fd n s e) (hnot : readsThrough pid fd e = false) :
    Reading (exec defaultBuild s e).2 pid fd n l c pos := by
  obtain ⟨hcall, hout, hlive⟩ := hshared
  refine hr.of_ends hinv ?_ hout hlive
  have huse := hr.used hinv
  have hview : StoreWf ((s.view e.pid).store rows ch) := hinv.store
  unfold Undisturbed at hundist
  cases hc : e.call with
  | «open» pathname flags mode =>
      rw [hc] at hcall hundist
      refine (sysOpen_kept hview huse hcall.1 hcall.2 hundist).mono ?_ (fun _ _ h => h)
      rintro r w' ⟨hk, hslots⟩
      refine ⟨hk, fun hpid => ?_⟩
      have hempty : ((s.view e.pid).fdTable fd.toNat).empty = false := by
        rw [hpid]
        exact hr.user.nonempty
      rw [hslots _ hempty, hpid]
      exact .refl _
  | read fd' count =>
      rw [hc] at hundist
      refine (sysRead_kept (m := n) hview (hinv.slots e.pid) ?_).mono ?_ ?_
      · intro a hu ha
        obtain rfl : a = n := Int.ofNat.inj ha
        exact hundist hnot hu
      · rintro r w' ⟨hk, hslots⟩
        refine ⟨hk, fun hpid => ?_⟩
        subst hpid
        exact hslots _
      · rintro x w' (rfl | hk)
        · exact Or.inr (Or.inl rfl)
        · exact Or.inr (Or.inr hk)
  | close fd' =>
      rw [hc] at hcall
      refine (sysClose_kept (ch n) n).mono ?_ ?_
      · rintro r w' ⟨hk, hpos, hslots⟩
        refine ⟨hk, fun hpid => ?_⟩
        have hne := hcall hpid
        subst hpid
        have hpos' := hr.user.pos
        rw [hslots fd.toNat (by omega)]
        exact .refl _
      · rintro x w' rfl
        exact Or.inr (Or.inl rfl)
  | _ =>
      rw [hc] at hcall
      exact hcall.elim

/-- A `read` that returns reads from a file with data. -/
theorem Reading.nonempty (hr : Reading s pid fd n l c pos) (hinv : SysWf s rows ch)
    (hret : Returns (exec defaultBuild s ⟨pid, env, .read fd count⟩).1) : l ≠ [] := by
  intro hl
  have hstop : sysRead env fd count (s.view pid) =
      .error (.exit .stepNotYetCreated) (s.view pid) :=
    sysRead_noData (w := s.view pid) hinv.store hr.user (hr.bare hl)
  simp only [exec, callOp, hstop] at hret
  exact hret.elim

/-- The reader's own `read` returns the next bytes of the content. -/
theorem Reading.read (env : Env) (count : UInt64) (hr : Reading s pid fd n l c pos)
    (hinv : SysWf s rows ch) (hl : l ≠ []) :
    Returns (exec defaultBuild s ⟨pid, env, .read fd count⟩).1 ∧
      (exec defaultBuild s ⟨pid, env, .read fd count⟩).1.data = (c.drop pos).take count.toNat ∧
      Reading (exec defaultBuild s ⟨pid, env, .read fd count⟩).2 pid fd n l c
        (pos + ((c.drop pos).take count.toNat).length) := by
  have huse := hr.used hinv
  have hview : StoreWf ((s.view pid).store rows ch) := hinv.store
  have hch := hr.chain_eq hinv
  obtain ⟨pre', l', hsplit', hpos⟩ := hr.place hl
  have hlinked : Linked s.data.next noIx (s.table.mb n).firstDbucket (ch n) :=
    hinv.store.linked n huse
  have hcur : (s.table.mb n).lastDbucket ≠ noIx :=
    hlinked.ne_nil (by rw [hch, hsplit']; simp)
  obtain ⟨pre, l₀, rd, hsplit, hoff, hread, hrun⟩ := @sysRead_eq (s.view pid) rows ch env fd n
    count hview hr.user huse hcur
  have hsame : pre' = pre ∧ l' = l₀ := by
    have h₁ := Linked.suffix (hsplit ▸ hlinked)
    have h₂ := Linked.suffix ((hch.trans hsplit') ▸ hlinked)
    have htail := Linked.unique h₁ h₂
    rw [hch, hsplit'] at hsplit
    rw [← htail] at hsplit
    refine ⟨List.append_cancel_right hsplit, ?_⟩
    injection htail with _ htail
    exact htail.symm
  obtain ⟨rfl, rfl⟩ := hsame
  have hdrop : c.drop pos = (content s.data ((s.table.mb n).lastDbucket :: l')).drop
      (s.table.mb n).lastDbOffset.toNat := by
    rw [← hr.data, hsplit', content_append, ← hpos, ← List.drop_drop,
      List.drop_left' content_length]
  have hdata : rd.data = (c.drop pos).take count.toNat := by
    rw [hdrop]
    exact hread.data
  rw [← hdata]
  simp only [exec, callOp, hrun]
  refine ⟨trivial, rfl, ?_⟩
  by_cases hlen : rd.data.length > 0
  · rw [if_pos hlen]
    obtain ⟨l₁, l₂, hl₁, hle, htotal⟩ := hread.place
    obtain ⟨hpos', hlt, hexcl, hempty, hidx⟩ := hr.user
    refine ⟨⟨hpos', hlt, ?_, ?_, ?_⟩, ?_, hr.data, fun h => absurd h hl,
      fun _ => ⟨pre' ++ l₁, l₂, ?_, ?_⟩⟩
    · simpa [Sys.put, Sys.view, afterRead, World.setFd, deferStamp] using hexcl
    · simpa [Sys.put, Sys.view, afterRead, World.setFd, deferStamp] using hempty
    · simpa [Sys.put, Sys.view, afterRead, World.setFd, deferStamp] using hidx
    · rw [← hr.chain, fileChain, fileChain]
      simp [Sys.put, afterRead, World.setFd, Sys.view]
    · rw [hsplit', List.append_assoc]
      simpa [Sys.put, afterRead, World.setFd, Sys.view] using hl₁
    · have hoff' : ((s.put pid (afterRead env fd n rd (s.view pid))).table.mb n).lastDbOffset =
          rd.off := by
        simp [Sys.put, afterRead, World.setFd, Sys.view]
      rw [hoff', Int.toNat_natCast, total_append]
      change total s.data pre' + total s.data l₁ + rd.off = _
      change total s.data l₁ + rd.off = (s.table.mb n).lastDbOffset.toNat + _ at htotal
      omega
  · have hput : s.put pid (s.view pid) = s := by
      simp [Sys.put, Sys.view]
    rw [if_neg hlen, hput, show pos + rd.data.length = pos from by omega]
    exact hr

end Spacefish
