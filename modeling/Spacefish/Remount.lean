import Spacefish.FlatFlush
import Spacefish.MountRoom

/-!
From one mount to the next. A file without the mark of a modification has the content that
the disk answered for its path, along every run; so the shutdown, which writes back the
marked files only, leaves every file on the disk, and the next mount brings it again.
-/

namespace Spacefish

open LinkedArray Program Buffer

variable {s s' : Sys} {rows rows' : Nat → List Int} {ch : Int → List Nat} {a a' : Flat}
  {w : World} {env : Env} {call : Call} {e : Event} {out : Out} {t' : MetaShm} {m : Int}
  {f f' : FlatFile} {p q : Path} {disk : Path → Option (List Byte)} {fd : Int} {pid : Nat}
  {es : List Event} {tree : DirStream} {root : Option Path} {l : List (Env × Path)}

/-! Files that stay and files that come. -/

/-- A file that the call does not modify keeps its path. -/
theorem TableEffect.path_kept (heff : TableEffect w rows env call out t' rows')
    (huse : (w.table.mb m).inUse = true) (huse' : (t'.mb m).inUse = true)
    (hmod : ¬ Modifies w env call out m) : (t'.mb m).path = (w.table.mb m).path := by
  cases heff with
  | keep => rfl
  | @touch k _ _ he =>
      by_cases hk : m = k
      · rw [hk, he.path]
      · rw [he.other m hk]
  | @make _ _ _ k _ _ _ hm =>
      obtain ⟨t₁, hc, he⟩ := hm.made
      have hk : m ≠ k := by
        rintro rfl
        rw [hc.fresh] at huse
        cases huse
      rw [he.other m hk, (hc.same m hk).path]
  | @release _ _ _ k _ _ _ _ _ _ hr =>
      have hk : m ≠ k := by
        rintro rfl
        rw [hr.gone] at huse'
        cases huse'
      exact (hr.same m hk).path
  | @rename _ _ _ _ _ _ k t₁ _ _ _ _ _ _ _ _ _ _ hr he hiff =>
      have hk : m ≠ k := fun hk => hmod ((hiff m huse).mpr hk)
      rw [he.other m hk]
      refine (hr.same m hk (fun hlost => ?_)).path
      rw [he.other m hk, hr.gone m hlost] at huse'
      cases huse'
  | stuck ho hn => rfl

/-- A file that has come is one that the call brings, under a path that had none. -/
theorem TableEffect.taken_path (heff : TableEffect w rows env call out t' rows')
    (hfree : (w.table.mb m).inUse = false) (huse' : (t'.mb m).inUse = true)
    (hwhole : ∀ p, Brings env p call →
      ¬ ShortReads env call ∧ out ≠ .halt (.exit .dataBucketOverUse)) :
    ∃ h, Brings env (t'.mb m).path call ∧ (t'.mb m).path.length < pathMax ∧
      hash (t'.mb m).path = .ok h ∧ findPath w.table (t'.mb m).path (rows h) = none := by
  have hno : (w.table.mb m).inUse = (t'.mb m).inUse → False := by
    intro heq
    rw [hfree, huse'] at heq
    cases heq
  cases heff with
  | keep => exact (hno rfl).elim
  | touch he => exact (hno (he.inUse_eq m).symm).elim
  | @make p' q' h k dirty _ hbrings hm hq =>
      obtain ⟨t₁, hc, he⟩ := hm.made
      have hk : m = k := by
        by_contra hk
        exact hno (by rw [he.other m hk, (hc.same m hk).inUse])
      obtain ⟨hread, hout⟩ := hwhole p' hbrings
      obtain ⟨rfl, hlen⟩ := hq.resolve_right (fun h => h.elim hread hout)
      rw [hk, he.path]
      exact ⟨h, hbrings, hlen, hm.hashed, hm.absent⟩
  | @release _ _ _ k _ _ _ _ _ _ hr =>
      have hk : m ≠ k := by
        rintro rfl
        rw [hr.gone] at huse'
        cases huse'
      exact (hno (hr.same m hk).inUse.symm).elim
  | @rename _ _ _ _ _ _ k t₁ _ _ _ _ _ _ _ _ _ _ hr he =>
      refine (hno ?_).elim
      rw [he.inUse_eq]
      by_cases hk : m = k
      · rw [hk, hr.moved.inUse]
      · refine (hr.same m hk (fun hlost => ?_)).inUse.symm
        rw [he.inUse_eq, hr.gone m hlost] at huse'
        cases huse'
  | stuck ho hn => exact (hno rfl).elim

/-- The call writes to the path, through a descriptor of the process. -/
def WritesTo (a : Flat) (e : Event) (out : Out) (p : Path) : Prop :=
  ∃ fd buf, (e.call = .write fd buf ∨ ∃ offset, e.call = .pwrite fd buf offset) ∧
    a.entry e.pid fd = some (.file p) ∧ 0 < out.num

/-- The call moves another file to the path. -/
def MovesTo (a : Flat) (e : Event) (p : Path) (a' : Flat) : Prop :=
  ∃ old new q, e.call = .rename old new ∧ absPath e.env old = .ok q ∧ absPath e.env new = .ok p ∧
    q ≠ p ∧ a.files q ≠ none ∧ a'.files q = none

/-- What a call that accesses a file leaves of its content. -/
theorem FlatFile.access_content {r : Ret} (hcall : f.access call = some (r, f')) :
    f'.content = f.content ∨ ∃ fd buf, (call = .write fd buf ∨ ∃ offset, call = .pwrite fd buf offset) ∧
      0 < r.ret := by
  have hwrote : ∀ (pos : Nat) (buf : List Byte),
      overwrite f.content pos buf = f.content ∨ 0 < (buf.length : Int) := by
    intro pos buf
    by_cases hbuf : buf = []
    · left
      rw [hbuf, overwrite_nil_data]
    · right
      exact_mod_cast List.length_pos_iff.mpr hbuf
  cases call with
  | read fd count =>
      obtain ⟨_, rfl⟩ := Prod.mk.inj (Option.some.inj hcall)
      exact Or.inl rfl
  | pread fd count offset =>
      obtain ⟨_, rfl⟩ := Prod.mk.inj (Option.some.inj hcall)
      exact Or.inl rfl
  | write fd buf =>
      obtain ⟨rfl, rfl⟩ := Prod.mk.inj (Option.some.inj hcall)
      exact (hwrote _ _).imp id (fun hpos => ⟨fd, buf, Or.inl rfl, hpos⟩)
  | pwrite fd buf offset =>
      obtain ⟨rfl, rfl⟩ := Prod.mk.inj (Option.some.inj hcall)
      exact (hwrote _ _).imp id (fun hpos => ⟨fd, buf, Or.inr ⟨offset, rfl⟩, hpos⟩)
  | _ => cases hcall

theorem setFile_self (a : Flat) (p : Path) (f : FlatFile) : (a.setFile p f).files p = some f :=
  Function.update_self ..

theorem setFile_other (a : Flat) (f : FlatFile) (hne : p ≠ q) :
    (a.setFile q f).files p = a.files p :=
  Function.update_of_ne hne _ _

/-- What `open` leaves of the contents. -/
theorem opened_content {pathname : Path} {flags : Nat} {c : List Byte}
    (hstart : a.opens env pathname q flags = .ok c) (hfile : a.files p = some f)
    (hfile' : (a.setFile q ⟨c, 0⟩).files p = some f') : f'.content = f.content := by
  by_cases hp : p = q
  · subst hp
    rw [setFile_self] at hfile'
    obtain rfl := Option.some.inj hfile'
    exact Flat.opens_found hstart hfile
  · rw [setFile_other a _ hp, hfile] at hfile'
    exact congrArg FlatFile.content (Option.some.inj hfile').symm

/-- A path keeps its content unless the call writes to it or moves a file to it. -/
theorem NameStep.content_kept (hstep : NameStep a e out a') (hfile : a.files p = some f)
    (hfile' : a'.files p = some f') :
    f'.content = f.content ∨ WritesTo a e out p ∨ MovesTo a e p a' := by
  have hsame : a'.files p = a.files p → f'.content = f.content ∨ WritesTo a e out p ∨ MovesTo a e p a' := by
    intro heq
    rw [heq, hfile] at hfile'
    exact Or.inl (congrArg FlatFile.content (Option.some.inj hfile').symm)
  cases hstep with
  | file hstep =>
      cases hstep with
      | @access fd q g g' r hfd hopen hg hcall =>
          by_cases hp : p = q
          · subst hp
            obtain rfl := Option.some.inj (hg.symm.trans hfile)
            rw [setFile_self] at hfile'
            obtain rfl := Option.some.inj hfile'
            refine (FlatFile.access_content hcall).imp id (fun hw => Or.inl ?_)
            obtain ⟨fd', buf, hw, hpos⟩ := hw
            have hfd' : e.call.descriptor = some fd' := by
              rcases hw with hw | ⟨offset, hw⟩ <;> rw [hw] <;> rfl
            obtain rfl := Option.some.inj (hfd.symm.trans hfd')
            exact ⟨fd, buf, hw, hopen, hpos⟩
          · exact hsame (setFile_other a g' hp)
      | opened hcall hname hstart => exact Or.inl (opened_content hstart hfile hfile')
      | full hcall hname hstart => exact Or.inl (opened_content hstart hfile hfile')
      | forwarded =>
          refine hsame ?_
          split <;> rfl
      | _ => exact hsame rfl
  | @unlinked _ q =>
      by_cases hp : p = q
      · subst hp
        rw [show (a.remove p).files p = none from Function.update_self ..] at hfile'
        cases hfile'
      · exact hsame (Function.update_of_ne hp _ _)
  | @renamed old new p₁ q₁ g hcall hold hnew hne hg =>
      have hgone : (a.move p₁ q₁ g).files p₁ = none :=
        (Function.update_of_ne hne _ _).trans (Function.update_self ..)
      by_cases hp : p = q₁
      · subst hp
        exact Or.inr (Or.inr ⟨old, new, p₁, hcall, hold, hnew, hne, by rw [hg]; simp, hgone⟩)
      · by_cases hp₁ : p = p₁
        · subst hp₁
          rw [hgone] at hfile'
          cases hfile'
        · exact hsame ((Function.update_of_ne hp _ _).trans (Function.update_of_ne hp₁ _ _))
  | @uploaded name buf _ hdisk =>
      refine hsame (setFile_other a _ ?_)
      rintro rfl
      rw [(Flat.uploads_eq_ok.mp hdisk).1] at hfile
      cases hfile
  | _ => exact hsame rfl

/-- A path that comes without being created has the content of the disk. -/
theorem NameStep.content_brought (hstep : NameStep a e out a') (hnone : a.files p = none)
    (hfile' : a'.files p = some f') (hbrings : Brings e.env p e.call)
    (hout : out ≠ .halt (.exit .dataBucketOverUse)) (hcreate : ¬ Creates e.env e.call out) :
    diskContent e.env p = some f'.content := by
  have hsame : a'.files p ≠ a.files p := by
    rw [hfile', hnone]
    simp
  have hopened : ∀ {pathname q : Path} {flags mode : Nat} {c : List Byte},
      e.call = .open pathname flags mode → Names e.env pathname q →
      a.opens e.env pathname q flags = .ok c → (a.setFile q ⟨c, 0⟩).files p = some f' →
      diskContent e.env p = some f'.content := by
    intro pathname q flags mode c hcall hname hstart hset
    rw [hcall] at hbrings hcreate
    obtain rfl := Except.ok.inj (hname.abs.symm.trans hbrings.2.1)
    rw [setFile_self] at hset
    obtain rfl := Option.some.inj hset
    exact Flat.opens_brought hstart hnone (fun hnew => hcreate ⟨hnew.1, Or.inr hnew.2, hout⟩)
  cases hstep with
  | file hstep =>
      cases hstep with
      | @access fd q g g' r hfd hopen hg =>
          refine (hsame (setFile_other a g' ?_)).elim
          rintro rfl
          rw [hg] at hnone
          cases hnone
      | opened hcall hname hstart => exact hopened hcall hname hstart hfile'
      | full hcall hname hstart => exact hopened hcall hname hstart hfile'
      | forwarded =>
          refine (hsame ?_).elim
          split <;> rfl
      | _ => exact (hsame rfl).elim
  | unlinked hcall =>
      rw [hcall] at hbrings
      exact hbrings.elim
  | renamed hcall =>
      rw [hcall] at hbrings
      exact hbrings.elim
  | @uploaded name buf hcall hdisk =>
      rw [hcall] at hbrings
      obtain ⟨rfl, _⟩ := hbrings
      rw [setFile_self] at hfile'
      obtain rfl := Option.some.inj hfile'
      exact (Flat.uploads_eq_ok.mp hdisk).2.2
  | _ => exact (hsame rfl).elim

/-! The marks. -/

/-- Every file that is not marked as modified has the content of the disk. -/
def AsOnDisk (s : Sys) (a : Flat) (disk : Path → Option (List Byte)) : Prop :=
  ∀ m f, (s.table.mb m).inUse = true → (s.table.mb m).consisent = true →
    a.files (s.table.mb m).path = some f → disk (s.table.mb m).path = some f.content

theorem NameStep.returnsOrExits (hstep : NameStep a e out a') : ReturnsOrExits out := by
  cases hstep with
  | file hstep => cases hstep <;> trivial
  | _ => trivial

/-- A call that brings a file brings all of it. -/
theorem NameAllowed.complete (hallow : NameAllowed s e out) (hbrings : Brings e.env p e.call) :
    ¬ ShortReads e.env e.call ∧ out ≠ .halt (.exit .dataBucketOverUse) := by
  obtain ⟨pid, env, call⟩ := e
  cases call with
  | «open» pathname flags mode =>
      obtain ⟨_, _, hread, hout, _⟩ := hallow
      exact ⟨hread, hout⟩
  | upload name => exact ⟨hallow.1, hallow.2.1⟩
  | _ => exact hbrings.elim

/-- The file that a call writes to is marked. -/
theorem FlatInv.writes_modifies (hinv : FlatInv s rows ch a) (hwrites : WritesTo a e out p)
    (huse : (s.table.mb m).inUse = true) (hpath : (s.table.mb m).path = p) :
    Modifies (s.view e.pid) e.env e.call out m := by
  obtain ⟨fd, buf, hcall, hopen, hpos⟩ := hwrites
  obtain ⟨n, hu, hn⟩ := hinv.sim.user_of_entry hopen
  have hm : m = n := hinv.sim.unique m n huse (hinv.user hu).1 (hpath.trans hn.symm)
  rcases hcall with hcall | ⟨offset, hcall⟩
  · rw [hcall]
    exact ⟨⟨n, hm, hu⟩, hpos⟩
  · rw [hcall]
    exact ⟨⟨n, hm, hu⟩, hpos⟩

/-- The file that a call moves to a path is marked. -/
theorem FlatInv.moves_marks {ch' : Int → List Nat} {rows₁ : Nat → List Int}
    (hinv : FlatInv s rows ch a) (hinv' : FlatInv s' rows' ch' a') (hmoves : MovesTo a e p a')
    (heff : TableEffect (s.view e.pid) rows e.env e.call out s'.table rows₁)
    (huse : (s'.table.mb m).inUse = true) (hpath : (s'.table.mb m).path = p) :
    (s'.table.mb m).consisent = false := by
  obtain ⟨old, new, q, hcall, hold, hnew, hne, hq, hgone⟩ := hmoves
  obtain ⟨f, hf⟩ := Option.ne_none_iff_exists'.mp hq
  obtain ⟨k, hk, hkq⟩ := hinv.sim.only q f hf
  -- a table with the old path still in it is not what the move leaves
  have hleft : ¬ ((s'.table.mb k).inUse = true ∧ (s'.table.mb k).path = q) := by
    rintro ⟨hk', hkq'⟩
    obtain ⟨g, hg, _⟩ := hinv'.sim.file k hk'
    rw [hkq', hgone] at hg
    cases hg
  generalize htable : s'.table = t' at heff hleft huse hpath ⊢
  cases heff with
  | keep => exact absurd ⟨hk, hkq⟩ hleft
  | touch _ _ hstay =>
      have heq := hstay old new hcall
      rw [hold, hnew] at heq
      exact absurd (Except.ok.inj heq) hne
  | make hbrings =>
      rw [hcall] at hbrings
      exact hbrings.elim
  | release hrelease =>
      rw [hcall] at hrelease
      cases hrelease
  | @rename old' new' p' q' _ hn k' t₁ _ _ hcall' hlen _ hnew' hokold _ _ hfind hr he =>
      obtain ⟨rfl, rfl⟩ := Call.rename.inj (hcall'.symm.trans hcall)
      obtain rfl := Except.ok.inj (hnew'.symm.trans hnew)
      have hkp : (t'.mb k').path = q' := by
        rw [he.path, hr.moved.path]
        exact List.take_of_length_le (absPath_length hnew' hlen.2)
      have hkuse : (t'.mb k').inUse = true := by
        rw [he.inUse, hr.moved.inUse]
        exact hinv.tableWf.findPath_inUse hokold hfind
      have hmk : m = k' := by
        refine hinv'.sim.unique m k' ?_ ?_ ?_
        all_goals rw [htable]
        · exact huse
        · exact hkuse
        · exact hpath.trans hkp.symm
      rw [hmk, he.consisent]
      simp
  | stuck => exact absurd ⟨hk, hkq⟩ hleft

/-- Every admitted call that asks this disk keeps the marks right. -/
theorem AsOnDisk.step (hclean : AsOnDisk s a disk) (hinv : FlatInv s rows ch a)
    (hallow : NameAllowed s e out) (hdisk : diskContent e.env = disk)
    (hexec : exec defaultBuild s e = (out, s')) :
    ∃ a' rows' ch', NameStep a e out a' ∧ FlatInv s' rows' ch' a' ∧ AsOnDisk s' a' disk := by
  obtain ⟨a', rows', ch', hstep, hinv'⟩ := hinv.nameStep hallow hexec
  obtain ⟨rows₁, heff⟩ := exec_table hinv.tableWf hexec hstep.returnsOrExits
  refine ⟨a', rows', ch', hstep, hinv', fun m f' huse' hmark' hfile' => ?_⟩
  have hmarks := heff.marks
  cases huse : (s.table.mb m).inUse with
  | true =>
      have hno : ¬ ((s.table.mb m).consisent = false ∨
          Modifies (s.view e.pid) e.env e.call out m) := by
        intro hmod
        rw [(hmarks.stays m huse huse').mpr hmod] at hmark'
        cases hmark'
      rw [not_or, Bool.not_eq_false] at hno
      obtain ⟨hmark, hmod⟩ := hno
      have hpath : (s'.table.mb m).path = (s.table.mb m).path := heff.path_kept huse huse' hmod
      obtain ⟨f, hfile, _⟩ := hinv.sim.file m huse
      have hsame : f'.content = f.content := by
        rcases hstep.content_kept hfile (hpath ▸ hfile') with hsame | hwrites | hmoves
        · exact hsame
        · exact absurd (hinv.writes_modifies hwrites huse rfl) hmod
        · rw [hinv.moves_marks hinv' hmoves heff huse' hpath] at hmark'
          cases hmark'
      rw [hpath, hsame]
      exact hclean m f huse hmark hfile
  | false =>
      obtain ⟨h, hbrings, hlen, hok, hfind⟩ :=
        heff.taken_path huse huse' (fun p => hallow.complete)
      have hcreate : ¬ Creates e.env e.call out := by
        intro hcreate
        rw [hmarks.created m huse huse' hcreate] at hmark'
        cases hmark'
      rw [← hdisk]
      exact hstep.content_brought (hinv.absent hok hfind) hfile' hbrings
        (hallow.complete hbrings).2 hcreate

theorem AsOnDisk.run (hclean : AsOnDisk s a disk) (hinv : FlatInv s rows ch a)
    (hes : Along defaultBuild NameAllowed s es) (hdisk : ∀ e ∈ es, diskContent e.env = disk) :
    ∃ a' rows' ch', NameRun a es (outs defaultBuild s es) a' ∧
      FlatInv (afterEvents s es) rows' ch' a' ∧ AsOnDisk (afterEvents s es) a' disk := by
  induction es generalizing s rows ch a with
  | nil => exact ⟨a, rows, ch, rfl, hinv, hclean⟩
  | cons e es ih =>
      obtain ⟨hallow, hrest⟩ := hes
      obtain ⟨a₁, rows₁, ch₁, hstep, hinv₁, hclean₁⟩ :=
        hclean.step hinv hallow (hdisk e (List.mem_cons_self ..)) rfl
      obtain ⟨a', rows', ch', hrun, hinv', hclean'⟩ :=
        ih hclean₁ hinv₁ hrest (fun x hx => hdisk x (List.mem_cons_of_mem _ hx))
      exact ⟨a', rows', ch', ⟨a₁, hstep, hrun⟩, hinv', hclean'⟩

/-! The shutdown. -/

/-- The calls of `flush_write` are one for each file that is marked as modified, and no
others, and leave the disk so: a file that is not marked as it was, with its content, a marked
one as `write_to_disk` makes it, and a path without a file as it was. -/
structure Saves (s : Sys) (a : Flat) (disk : Path → Option (List Byte)) (junk : Nat → Byte)
    (calls : List (Int × List Byte)) : Prop where
  once : (calls.map Prod.fst).Nodup
  marked : ∀ m, m ∈ calls.map Prod.fst ↔
    (s.table.mb m).inUse = true ∧ (s.table.mb m).consisent = false
  kept : ∀ m f, (s.table.mb m).inUse = true → (s.table.mb m).consisent = true →
    a.files (s.table.mb m).path = some f →
      diskAfter s.table calls disk (s.table.mb m).path = disk (s.table.mb m).path ∧
        disk (s.table.mb m).path = some f.content
  written : ∀ m f, (s.table.mb m).inUse = true → (s.table.mb m).consisent = false →
    a.files (s.table.mb m).path = some f →
      diskAfter s.table calls disk (s.table.mb m).path = some (flushed junk f.content)
  others : ∀ p, a.files p = none → diskAfter s.table calls disk p = disk p

theorem AsOnDisk.saved (hclean : AsOnDisk s a disk) (hinv : FlatInv s rows ch a) (env : Env)
    (pid : Nat) :
    ∃ calls, Spacefish.flushWrite env (s.view pid) = .ok calls (s.view pid) ∧
      Saves s a disk env.junk calls := by
  obtain ⟨calls, hrun, honce, hmarked, hhanded⟩ := hinv.flushWrite env pid
  -- a call for the path of a file is one for this file
  have hsame : ∀ m, (s.table.mb m).inUse = true → ∀ x ∈ calls,
      (s.table.mb x.1).path = (s.table.mb m).path → x.1 = m :=
    fun m huse x hx hp =>
      hinv.sim.unique x.1 m ((hmarked x.1).mp (List.mem_map_of_mem hx)).1 huse hp
  refine ⟨calls, hrun, honce, hmarked, fun m f huse hmark hfile => ?_,
    fun m f huse hmark hfile => ?_, fun p hnone => diskAfter_other (fun x hx hp => ?_)⟩
  · refine ⟨diskAfter_other (fun x hx hp => ?_), hclean m f huse hmark hfile⟩
    have hx' := ((hmarked x.1).mp (List.mem_map_of_mem hx)).2
    rw [hsame m huse x hx hp, hmark] at hx'
    cases hx'
  · obtain ⟨x, hx, hxm⟩ := List.mem_map.mp ((hmarked m).mpr ⟨huse, hmark⟩)
    refine diskAfter_mem ⟨x, hx, by rw [hxm]⟩ (fun y hy hp => ?_)
    exact hhanded y hy f (by rw [hp]; exact hfile)
  · obtain ⟨g, hg, _⟩ := hinv.sim.file x.1 ((hmarked x.1).mp (List.mem_map_of_mem hx)).1
    rw [hp, hnone] at hg
    cases hg

/-- Each file is on the disk afterwards, or what `write_to_disk` makes of it. -/
theorem Saves.file {junk : Nat → Byte} {calls : List (Int × List Byte)} {f : FlatFile}
    (hsaves : Saves s a disk junk calls) (hsim : Represents s a) (hfile : a.files p = some f) :
    diskAfter s.table calls disk p = some f.content ∨
      diskAfter s.table calls disk p = some (flushed junk f.content) := by
  obtain ⟨m, huse, rfl⟩ := hsim.only p f hfile
  cases hmark : (s.table.mb m).consisent with
  | true =>
      obtain ⟨hdisk, hcontent⟩ := hsaves.kept m f huse hmark hfile
      exact Or.inl (hdisk.trans hcontent)
  | false => exact Or.inr (hsaves.written m f huse hmark hfile)

/-! The next mount. -/

/-- The daemon can mount the tree, whose files are uploaded under the names `l`. -/
structure Mountable (root : Option Path) (tree : DirStream) (l : List (Env × Path)) : Prop where
  names : mountNames tree (root.getD dotPath) = some l
  storable : ∀ x ∈ l, Storable x.2
  reads : ∀ x ∈ l, ¬ ShortRead x.1 x.2
  few : l.length ≤ metaBuckets
  room : (l.map (fun x => uploadCost x.1 x.2)).sum ≤ totBuckets

/-- What uploads from one disk bring. -/
theorem uploadedContent_disk (hl : ∀ x ∈ l, diskContent x.1 x.2 = disk x.2) (hp : p ∈ l.map Prod.snd) :
    uploadedContent l p = disk p := by
  induction l with
  | nil => cases hp
  | cons x l ih =>
      rw [uploadedContent, List.findSome?_cons]
      by_cases hx : x.2 = p
      · rw [if_pos hx, hl x (List.mem_cons_self ..), hx]
        cases hdisk : disk p with
        | some c => rfl
        | none =>
            refine List.findSome?_eq_none_iff.mpr (fun y hy => ?_)
            split
            · next hyp => rw [hl y (List.mem_cons_of_mem _ hy), hyp, hdisk]
            · rfl
      · rw [if_neg hx]
        refine ih (fun y hy => hl y (List.mem_cons_of_mem _ hy)) ?_
        rw [List.map_cons, List.mem_cons] at hp
        exact hp.resolve_left (fun h => hx h.symm)

/-- `write_to_disk` gets the content right: it fills no bucket, or fills all its buckets. -/
def Flushable (c : List Byte) : Prop := c.length < dbucketBufSize ∨ dbucketBufSize ∣ c.length

/-- After every run on one disk the shutdown writes back the modified files and no others, and
the next mount of the tree brings each file with the content it had, when it was not modified
or `write_to_disk` gets it right. A file that was removed or renamed is there again, as the
disk had it. -/
theorem remount_restores (hes : Along defaultBuild NameAllowed initSys es)
    (hdisk : ∀ e ∈ es, diskContent e.env = disk) (env : Env) (pid : Nat) :
    ∃ a calls, NameRun .start es (outs defaultBuild initSys es) a ∧
      Represents (afterEvents initSys es) a ∧
      flushWrite env ((afterEvents initSys es).view pid) =
        .ok calls ((afterEvents initSys es).view pid) ∧
      Saves (afterEvents initSys es) a disk env.junk calls ∧
      (∀ p f, a.files p = some f → Flushable f.content →
        diskAfter (afterEvents initSys es).table calls disk p = some f.content) ∧
      ∀ root tree l, Mountable root tree l →
        (∀ x ∈ l, diskContent x.1 x.2 = diskAfter (afterEvents initSys es).table calls disk x.2) →
        ∃ w' b, initMountRoot defaultBuild root tree (initSys.view pid) = .ok () w' ∧
          Represents (initSys.put pid w') b ∧ ∀ p ∈ l.map Prod.snd,
            b.files p = (diskAfter (afterEvents initSys es).table calls disk p).map (⟨·, 0⟩) ∧
            (a.files p = none → b.files p = (disk p).map (⟨·, 0⟩)) ∧
            ∀ f, a.files p = some f → ∃ c, b.files p = some ⟨c, 0⟩ ∧
              (c = f.content ∨ c = flushed env.junk f.content) ∧ (Flushable f.content → c = f.content) := by
  have hstart : AsOnDisk initSys .start disk := fun _ _ huse => absurd huse Bool.false_ne_true
  obtain ⟨a, _, _, hsteps, hinv, hclean⟩ := hstart.run initSys_flatInv hes hdisk
  obtain ⟨calls, hflush, hsaves⟩ := hclean.saved hinv env pid
  have hwhole : ∀ p f, a.files p = some f → Flushable f.content →
      diskAfter (afterEvents initSys es).table calls disk p = some f.content := by
    intro p f hfile hsize
    rcases hsaves.file hinv.sim hfile with h | h
    · exact h
    · rw [h, flushed_eq_iff.mpr hsize]
  refine ⟨a, calls, hsteps, hinv.sim, hflush, hsaves, hwhole, fun root tree l hmount hl => ?_⟩
  obtain ⟨w', _, _, b, hrun, _, hinv', hfiles, _⟩ := initMountRoot_flat pid hmount.names
    hmount.storable hmount.reads hmount.few hmount.room
  refine ⟨w', b, hrun, hinv'.sim, fun p hp => ?_⟩
  have hbrought : b.files p =
      (diskAfter (afterEvents initSys es).table calls disk p).map (⟨·, 0⟩) := by
    rw [hfiles, uploadedContent_disk hl hp]
  refine ⟨hbrought, fun hnone => ?_, fun f hfile => ?_⟩
  · rw [hbrought, hsaves.others p hnone]
  · rw [hbrought]
    rcases hsaves.file hinv.sim hfile with h | h
    · exact ⟨f.content, by rw [h]; rfl, Or.inl rfl, fun _ => rfl⟩
    · exact ⟨_, by rw [h]; rfl, Or.inr rfl, fun hsize => flushed_eq_iff.mpr hsize env.junk⟩

/-- A file is uploaded and written to. -/
def overwritesA : List Event :=
  [⟨0, twoBytes, .upload pathA⟩, ⟨0, twoBytes, .open pathA 2 0⟩, ⟨0, twoBytes, .write 1024 [7, 8, 9]⟩]

/-- The next mount brings the bytes written. -/
theorem remount_restores_overwritesA : ∃ w' b,
    initMountRoot defaultBuild (some []) (.file [97] (diskOf [7, 8, 9] (by decide)) .eof)
      (initSys.view 0) = .ok () w' ∧ Represents (initSys.put 0 w') b ∧
      b.files pathA = some ⟨[7, 8, 9], 0⟩ := by
  have hrets : ∀ out ∈ outs defaultBuild initSys overwritesA, out.isRet = true := by
    decide +kernel
  simp only [overwritesA, outs, List.forall_mem_cons] at hrets
  obtain ⟨h₁, h₂, h₃, _⟩ := hrets
  have hread : ¬ ShortRead twoBytes pathA := diskOf_reads (by decide)
  have hes : Along defaultBuild NameAllowed initSys overwritesA := by
    refine ⟨⟨hread, (Out.isRet_spec h₁).2 _, (Out.isRet_spec h₁).2 _⟩,
      ⟨⟨by decide, by decide⟩, trivial, ?_, (Out.isRet_spec h₂).2 _, fun _ => (Out.isRet_spec h₂).2 _⟩,
      ⟨trivial, trivial, id, (Out.isRet_spec h₃).2 _, fun _ => (Out.isRet_spec h₃).2 _⟩, trivial⟩
    rintro ⟨p, _, hshort⟩
    exact diskOf_reads (by decide) hshort
  have hdisk : ∀ e ∈ overwritesA, diskContent e.env = fun _ => some [1, 2] := by
    intro e he
    simp only [overwritesA, List.mem_cons, List.not_mem_nil, or_false] at he
    rcases he with rfl | rfl | rfl <;> exact funext (fun _ => diskOf_content (by decide))
  obtain ⟨a, calls, _, hsim, _, _, hsaved, hmounts⟩ := remount_restores hes hdisk emptyDisk 0
  obtain ⟨f, hfile, his⟩ := hsim.file 0 (by decide +kernel)
  have hpath : ((afterEvents initSys overwritesA).table.mb 0).path = pathA := by decide +kernel
  have hcontent : f.content = [7, 8, 9] := his.content.symm.trans (by decide +kernel)
  have hsize : Flushable f.content := by
    rw [hcontent]
    exact Or.inl (by decide)
  rw [hpath] at hfile
  have hmount : Mountable (some []) (.file [97] (diskOf [7, 8, 9] (by decide)) .eof)
      [(diskOf [7, 8, 9] (by decide), pathA)] := by
    refine ⟨rfl, ?_, ?_, by decide, ?_⟩
    · simp only [List.mem_singleton, forall_eq]
      exact ⟨by decide, _, rfl⟩
    · simp only [List.mem_singleton, forall_eq]
      exact diskOf_reads (by decide)
    · simp only [List.map_cons, List.map_nil, uploadCost, diskOf_content]
      decide
  obtain ⟨w', b, hrun, hrep, hfiles⟩ := hmounts _ _ _ hmount (by
    simp only [List.mem_singleton, forall_eq]
    rw [diskOf_content, hsaved pathA f hfile hsize, hcontent])
  obtain ⟨c, hc, _, hsame⟩ := (hfiles pathA (by simp)).2.2 f hfile
  exact ⟨w', b, hrun, hrep, by rw [hc, hsame hsize, hcontent]⟩

end Spacefish
