import Spacefish.CallEffects

/-!
The effects of the calls that name a file by its path, and the statement for
all calls together.
-/

namespace Spacefish

open LinkedArray Program Buffer

variable {w w' w₁ : World} {rows : Nat → List Int} {ch : Int → List Nat} {env : Env} {call : Call}
  {pathname p name : Path} {flags mode h : Nat} {m : Int} {r : Ret} {e : Halt}

theorem findPath_same {t : MetaShm} {l : List Int} (hfind : findPath t p l = some m) :
    samePath p (t.mb m).path = true :=
  List.find?_some (p := fun m => samePath p (t.mb m).path) hfind

theorem Bare.effect (ch : Int → List Nat) (hb : Bare w rows w') :
    ∃ rows' ch', Effect w rows ch env call false (w'.store rows' ch') := by
  obtain ⟨p, h, m, f, hnew, hf, hsame, hdata⟩ := hb
  refine ⟨Function.update rows h (rows h ++ [m]), Function.update ch m [], ?_⟩
  rw [World.store, hdata]
  exact .bare hnew hf hsame

theorem Filled.effect {buf : List Byte} {ix : Nat} {new : List Nat} {o : Option WriteOut}
    (hf : Filled w rows p buf h m ix new o w') :
    ∃ rows' ch', Effect w rows ch env call o.isSome (w'.store rows' ch') :=
  ⟨_, _, .fill hf (.refl _ _) (Or.inl rfl)⟩

theorem Died.stopped (hd : Died w rows e w') : Stopped w rows ch env call e w' := by
  rcases hd with ⟨rfl, _⟩ | rfl | ⟨u, _, rfl, htab, hdata⟩ | ⟨rfl, ⟨_, hb⟩ | ⟨_, _, _, _, _, _, hf⟩⟩
  · exact Or.inl rfl
  · exact Or.inr (Or.inl rfl)
  · exact .keep htab hdata
  · obtain ⟨rows', ch', heff⟩ := hb.effect ch
    exact Or.inr (Or.inr ⟨false, rows', ch', heff, fun _ => rfl⟩)
  · obtain ⟨rows', ch', heff⟩ := hf.effect
    exact Or.inr (Or.inr ⟨false, rows', ch', heff, fun _ => rfl⟩)

theorem TableStop.stopped {t' : MetaShm} (hs : TableStop w.table e t') :
    Stopped w rows ch env call e { w with table := t' } := by
  rcases hs with rfl | ⟨rfl, rfl⟩
  · exact Or.inl rfl
  · exact .keep rfl rfl

section

variable (wf : StoreWf (w.store rows ch))

include wf

theorem StoreWf.first_mem (huse : (w.table.mb m).inUse = true) :
    (w.table.mb m).firstDbucket ∈ ch m ∨ ((w.table.mb m).firstDbucket = noIx ∧ ch m = []) := by
  have hfirst : (w.table.mb m).firstDbucket = (ch m).head?.getD noIx :=
    (wf.linked m huse).head_eq
  rw [hfirst]
  cases ch m with
  | nil => exact Or.inr ⟨rfl, rfl⟩
  | cons b l => exact Or.inl (by simp)

theorem StoreWf.index_pos (huse : (w.table.mb m).inUse = true) : 0 ≤ m := by
  obtain ⟨h, hh, hmem⟩ := (wf.table.inUse_iff m).mp huse
  exact (wf.table.bound h hh m hmem).1

/-- The store after `open` has put the cursor of its file to the start. -/
theorem Resolved.effect (hres : Resolved env pathname p flags rows ch w m w₁)
    (he : Edited w₁.table w'.table m rewound) (hdata : w'.data = w₁.data) :
    ∃ rows' ch', Effect w rows ch env (.open pathname flags mode) true (w'.store rows' ch') ∧
      0 ≤ m ∧ (w'.table.mb m).inUse = true ∧ samePath p (w'.table.mb m).path = true := by
  have hin := he.inUse Seeks.rewound.toStays m
  have hpath : (w'.table.mb m).path = (w₁.table.mb m).path := congrArg FileCore.path he.self
  rw [hin, hpath]
  cases hres with
  | @found h _ hok hfind hflag =>
      have huse : (w.table.mb m).inUse = true := wf.table.findPath_inUse hok hfind
      refine ⟨rows, ch, ?_, wf.index_pos huse, huse, findPath_same hfind⟩
      rw [World.store, hdata]
      exact .edit huse he .rewound
        ((wf.first_mem huse).imp id (fun h => ⟨h.1, Or.inl h.2⟩))
        (fun _ => ⟨Int.le_refl _, Int.natCast_nonneg _⟩)
  | @truncated h _ t' hok hfind hflag hch he₁ =>
      have huse : (w.table.mb m).inUse = true := wf.table.findPath_inUse hok hfind
      refine ⟨rows, ch, ?_, wf.index_pos huse, ?_, ?_⟩
      · rw [World.store, hdata]
        exact .truncate huse hflag hch (he₁.trans he)
      · exact (he₁.inUse ⟨fun _ => rfl, fun _ => rfl, fun _ => rfl⟩ m).trans huse
      · have hsame : samePath p (w.table.mb m).path = true := findPath_same hfind
        rw [← hsame]
        exact congrArg (samePath p) (congrArg FileCore.path he₁.self)
  | @made buf h _ ix new out _ hstart hfill =>
      obtain ⟨t₁, hc, he₁⟩ := hfill.file.edited
      refine ⟨Function.update rows h (rows h ++ [m]), Function.update ch m (ix :: new), ?_,
        hc.bound.1, ?_, ?_⟩
      · rw [World.store, hdata]
        exact .fill hfill he (Or.inr rfl)
      · exact (he₁.inUse (filledCore_stays _ _ _) m).trans hc.new.inUse
      · rw [show (w₁.table.mb m).path = p from congrArg FileCore.path he₁.self]
        simp [samePath]

theorem sysOpen_effect (pathname : Path) (flags mode : Nat)
    (happ : hasFlag flags oAppend = true → truncates flags = false) :
    Ends (sysOpen defaultBuild env pathname flags mode w)
      (Returned w rows ch env (.open pathname flags mode))
      (Stopped w rows ch env (.open pathname flags mode)) := by
  refine (sysOpen_ends rfl rfl wf pathname flags mode).mono ?_ ?_
  · intro r w' hret
    cases hret with
    | forwarded _ htab hdata hfds => exact .keep htab hdata (.forwarded hfds)
    | tooLong _ _ _ => exact .same
    | failed hexcl hlen hpath hret hwhy =>
        rcases hwhy with ⟨rfl, _⟩ | ⟨hshort, hbare⟩
        · exact .same
        · obtain ⟨rows', ch', heff⟩ := hbare.effect ch
          refine ⟨false, rows', ch', heff, ?_, fun _ => ⟨_, hpath, hshort⟩⟩
          rw [hbare.fds]
          exact .same
    | opened hexcl hlen hpath hres he hdata hslot =>
        obtain ⟨rows', ch', heff, hpos, hused, hname⟩ :=
          hres.effect wf he hdata
        refine ⟨true, rows', ch', heff, ?_, by simp⟩
        rcases hslot with ⟨rfl, hfds, _⟩ | ⟨i, rfl, hslot⟩
        · rw [hfds, hres.fds]
          exact .same
        · rw [hres.fds] at hslot
          refine .opened hpath hslot hpos hused ?_ hname
          exact he.last.trans (he.first rfl _).symm
  · rintro e w' (hd | ⟨hflag, rfl | ⟨rfl, p, m, hpath, hres⟩⟩)
    · exact hd.stopped
    · exact Or.inl rfl
    · cases hres with
      | found _ _ _ => exact .keep rfl rfl
      | truncated _ _ htrunc _ _ =>
          rw [happ hflag] at htrunc
          cases htrunc
      | @made buf h _ ix new out _ hstart hfill =>
          obtain ⟨rows', ch', heff⟩ := hfill.effect
          exact Or.inr (Or.inr ⟨true, rows', ch', heff, by simp⟩)

theorem sysUnlink_effect (pathname : Path) :
    Ends (sysUnlink env pathname w) (Returned w rows ch env (.unlink pathname))
      (Stopped w rows ch env (.unlink pathname)) := by
  have hwf : TableWf w.table rows := wf.table
  unfold sysUnlink
  rw [run_ite]
  split
  · exact .same
  · rcases absPath_cases env pathname with ⟨p, hpath, hrun⟩ | ⟨e, he, _, hrun⟩
    · rw [bind_of_ok (hrun w), ends_bind, onMeta, ends_zoom]
      refine (releaseMetaBucket_ends hwf p).mono ?_ (fun e t' hs => hs.tableStop.stopped)
      rintro r t' ⟨h, hok, ⟨rfl, rfl, _⟩ | ⟨m, rows', rfl, hfind, hr⟩⟩
      · exact .keep rfl rfl .same
      · exact ⟨true, rows', ch, .release hpath (hwf.findPath_inUse hok hfind)
          (findPath_same hfind) hr, .same, by simp⟩
    · rw [bind_of_error (hrun w)]
      exact (Died.of_pathStop he).stopped

omit wf in
/-- The end of a rename: the file that the new path leads to is marked. -/
theorem renameMark_ends {t₁ : MetaShm} {rows₁ : Nat → List Int} {old new fnew : Path} {ret : Int}
    (hwf : TableWf t₁ rows₁) (hkeep : ∃ rows' ch', Effect w rows ch env (.rename old new) true
      ⟨t₁, w.data, rows', ch'⟩)
    (hmark : ∀ a t', (t₁.mb a).inUse = true → Edited t₁ t' a id →
      ∃ rows' ch', Effect w rows ch env (.rename old new) true ⟨t', w.data, rows', ch'⟩) :
    Ends ((do
        match ← onMeta (getMbucket fnew) with
        | some mb =>
            mbModify mb
            return { ret := ret, err := .ok }
        | none => throw .undefined : Op World Ret) { w with table := t₁ })
      (Returned w rows ch env (.rename old new)) (Stopped w rows ch env (.rename old new)) := by
  rw [ends_bind, onMeta, ends_zoom]
  refine (getMbucket_ends hwf fnew).mono ?_ ?_
  · rintro r t' ⟨rfl, h, hok, rfl⟩
    cases hfind : findPath t' fnew (rows₁ h) with
    | none => exact Or.inr (Or.inl rfl)
    | some a =>
        obtain ⟨rows', ch', heff⟩ := hmark a _ (hwf.findPath_inUse hok hfind)
          (Edited.setMb (F := fun b => { b with consisent := false }) rfl)
        exact ⟨true, rows', ch', heff, .same, by simp⟩
  · rintro e t' (⟨rfl, _⟩ | ⟨rfl, rfl, _⟩)
    · exact Or.inl rfl
    · obtain ⟨rows', ch', heff⟩ := hkeep
      exact Or.inr (Or.inr ⟨true, rows', ch', heff, by simp⟩)

theorem sysRename_effect (old new : Path) :
    Ends (sysRename env old new w) (Returned w rows ch env (.rename old new))
      (Stopped w rows ch env (.rename old new)) := by
  have hwf : TableWf w.table rows := wf.table
  unfold sysRename
  rw [run_ite]
  split
  · exact .same
  · rw [run_ite]
    split
    · exact .same
    · rcases absPath_cases env old with ⟨fold, _, hold⟩ | ⟨e, he, _, hold⟩
      · rcases absPath_cases env new with ⟨fnew, hpath, hnew⟩ | ⟨e, he, _, hnew⟩
        · rw [bind_of_ok (hold w), bind_of_ok (hnew w), ends_bind, onMeta, ends_zoom]
          refine (mbChpath_ends hwf fold fnew).mono ?_ (fun e t' hs => hs.stopped)
          rintro r t' (⟨rfl, rfl, _⟩ | ⟨ho, hn, hokold, hoknew, hne, _, _, ⟨rfl, _, rfl⟩ |
            ⟨m, rows', rfl, hfind, hr⟩⟩)
          · rw [run_ite, if_neg (by decide)]
            refine renameMark_ends hwf ⟨rows, ch, .keep⟩ (fun a t' huse he => ?_)
            exact ⟨rows, ch, .stay wf huse he⟩
          · rw [run_ite, if_pos (by decide), run_ite]
            have hst : ∃ rows' ch', Effect w rows ch env (.rename old new) true
                ⟨w.table.lockBoth ho hn, w.data, rows', ch'⟩ := ⟨rows, ch, .stuck ho hn⟩
            obtain ⟨rows', ch', heff⟩ := hst
            split
            · rw [ends_bind, onMeta, ends_zoom]
              refine (getMbucket_ends (hwf.lockBoth ho hn) fnew).mono ?_ ?_
              · rintro r t' ⟨rfl, h, hok, rfl⟩
                cases hfind : findPath (w.table.lockBoth ho hn) fnew (rows h) with
                | none => exact ⟨true, rows', ch', heff, .same, by simp⟩
                | some a => exact Or.inr (Or.inr ⟨true, rows', ch', heff, by simp⟩)
              · rintro e t' (⟨rfl, _⟩ | ⟨rfl, rfl, _⟩)
                · exact Or.inl rfl
                · exact Or.inr (Or.inr ⟨true, rows', ch', heff, by simp⟩)
            · exact ⟨true, rows', ch', heff, .same, by simp⟩
          · rw [run_ite, if_neg (by decide)]
            have huse : (t'.mb m).inUse = true :=
              hr.moved.inUse.trans (hwf.findPath_inUse hokold hfind)
            have hover : ∀ b ∈ findPath w.table fnew (rows hn),
                samePath fnew (w.table.mb b).path = true := fun b hb => findPath_same hb
            exact renameMark_ends hr.wf ⟨rows', ch, .rename hpath hover hr huse (.refl _ _)⟩
              (fun a t'' ha he => ⟨rows', ch, .rename hpath hover hr ha he⟩)
        · rw [bind_of_ok (hold w), bind_of_error (hnew w)]
          exact (Died.of_pathStop he).stopped
      · rw [bind_of_error (hold w)]
        exact (Died.of_pathStop he).stopped

theorem statPath_effect (real : Path → Except Errno Stat) (path : Path) :
    Ends (statPath env real path w) (Returned w rows ch env call) (Stopped w rows ch env call) := by
  have hwf : TableWf w.table rows := wf.table
  unfold statPath
  rw [run_ite]
  split
  · exact .same
  · rcases absPath_cases env path with ⟨p, _, hrun⟩ | ⟨e, he, _, hrun⟩
    · rw [bind_of_ok (hrun w), ends_bind, onMeta, ends_zoom]
      refine (getMbucket_ends hwf p).mono ?_ (fun e t' hs => hs.tableStop.stopped)
      rintro r t' ⟨rfl, h, hok, rfl⟩
      cases hfind : findPath w.table p (rows h) with
      | some a => exact .keep rfl rfl .same
      | none =>
          dsimp only
          cases real path with
          | ok st => exact .keep rfl rfl .same
          | error e => exact .keep rfl rfl .same
    · rw [bind_of_error (hrun w)]
      exact (Died.of_pathStop he).stopped

theorem upload_effect (name : Path) :
    Ends (callOp defaultBuild env (.upload name) w) (Returned w rows ch env (.upload name))
      (Stopped w rows ch env (.upload name)) := by
  unfold callOp
  rw [ends_bind]
  refine (uploadFile_ends rfl wf name).mono ?_ (fun _ _ hd => hd.stopped)
  rintro r w' (⟨e, rfl, rfl⟩ | ⟨hshort, ⟨e, rfl⟩, hbare⟩ | ⟨buf, h, m, ix, new, out, _, rfl, hf⟩)
  · exact .same
  · obtain ⟨rows', ch', heff⟩ := hbare.effect ch
    refine ⟨false, rows', ch', heff, ?_, fun _ => hshort⟩
    rw [hbare.fds]
    exact .same
  · obtain ⟨rows', ch', heff⟩ := hf.effect
    refine ⟨true, rows', ch', heff, ?_, by simp⟩
    rw [hf.file.fds]
    exact .same

end

theorem sysFxstat_effect (fd : Int) :
    Ends (sysFxstat env fd w) (Returned w rows ch env (.fxstat fd))
      (Stopped w rows ch env (.fxstat fd)) := by
  unfold sysFxstat
  by_cases hin : 0 ≤ fd ∧ fd < maxNumFd
  · rw [fddes, bind_assoc, run_get_bind, if_pos hin, run_pure_bind, run_ite]
    split
    · cases env.realFstat fd with
      | ok st => exact .same
      | error e => exact .same
    · rw [run_ite]
      split
      · exact .same
      · rw [run_get_bind, run_ite]
        split
        · exact .same
        · exact .same
  · rw [fddes, bind_assoc, run_get_bind, if_neg hin]
    exact Or.inr (Or.inl rfl)

/-- The calls that keep a well-formed store: offsets are not negative, and an
`open` that truncates does not also ask for `O_APPEND`. -/
def CallOk : Call → Prop
  | .open _ flags _ => hasFlag flags oAppend = true → truncates flags = false
  | .pread _ _ offset => 0 ≤ offset
  | .pwrite _ _ offset => 0 ≤ offset
  | _ => True

/-- The calls whose effect depends on the file and the cache of their descriptor. -/
def Positioned : Call → Prop
  | .close _ => True
  | .pread _ _ _ => True
  | .pwrite _ _ _ => True
  | _ => False

/-- The effect of the other calls, whatever the descriptors refer to. -/
theorem callOp_effect_of_wf (env : Env) (wf : StoreWf (w.store rows ch)) (hok : CallOk call)
    (hpos : ¬ Positioned call) :
    Ends (callOp defaultBuild env call w) (Returned w rows ch env call)
      (Stopped w rows ch env call) := by
  cases call with
  | «open» pathname flags mode => exact sysOpen_effect wf pathname flags mode hok
  | read fd count => exact sysRead_effect wf fd count
  | write fd buf => exact sysWrite_effect wf fd buf
  | unlink pathname => exact sysUnlink_effect wf pathname
  | rename old new => exact sysRename_effect wf old new
  | xstat path => exact statPath_effect wf env.realStat path
  | fxstat fd => exact sysFxstat_effect fd
  | upload name => exact upload_effect wf name
  | close fd => exact absurd trivial hpos
  | pread fd count offset => exact absurd trivial hpos
  | pwrite fd buf offset => exact absurd trivial hpos

theorem callOp_effect (env : Env) (wf : StoreWf (w.store rows ch))
    (hslots : ∀ i, SlotOk (w.store rows ch) i (w.fdTable i)) (hok : CallOk call) :
    Ends (callOp defaultBuild env call w) (Returned w rows ch env call)
      (Stopped w rows ch env call) := by
  by_cases hpos : Positioned call
  · cases call with
    | close fd => exact sysClose_effect wf hslots fd
    | pread fd count offset => exact sysPread_effect wf hslots fd count hok
    | pwrite fd buf offset => exact sysPwrite_effect wf hslots fd buf hok
    | «open» _ _ _ => exact hpos.elim
    | read _ _ => exact hpos.elim
    | write _ _ => exact hpos.elim
    | unlink _ => exact hpos.elim
    | rename _ _ => exact hpos.elim
    | xstat _ => exact hpos.elim
    | fxstat _ => exact hpos.elim
    | upload _ => exact hpos.elim
  · exact callOp_effect_of_wf env wf hok hpos

end Spacefish
