import Spacefish.TableRun

/-!
A rename within one hash row. The row locks stop `mb_chpath` before it gets to its
list updates, which are studied here with the lock calls taken as no-ops. Both
predecessors are computed before either list is edited: the updates are those of a
move to another place of the row, unless the bucket is its own new predecessor.
-/

namespace Spacefish

open LinkedArray Program

variable {t t' : MetaShm} {rows rows' : Nat → List Int} {h : Nat} {oldpath newpath : Path}
  {m a : Int} {l l₁ l₂ : List Int} {newPrev lost : Option Int}

/-- `mb_chpath` with its lock calls as parameters. -/
def mbChpathWith (down up : Nat → Op MetaShm Unit) (spinLock spinUnlock : Int → Op MetaShm Unit)
    (oldpath newpath : Path) : Op MetaShm Int := do
  if samePath oldpath newpath then return 0
  let hiOld ← hashRow oldpath
  let hiNew ← hashRow newpath
  down hiOld
  down hiNew
  let (mbOld, mbOldPrev) ← getMbAndPrev oldpath
  let (mbNew, mbNewPrev) ← getMbAndPrev newpath
  match mbOld with
  | none => return -1
  | some mbOld =>
      let t ← get
      let oldIx := linkBehind t hiOld mbOldPrev
      modify (·.setMb mbOld (fun b => { b with path := newpath.take pathMax }))
      linkAfter hiOld mbOldPrev (t.mb mbOld).nextIx
      match mbNew with
      | some mbNew =>
          let t ← get
          modify (·.setMb mbOld (fun b => { b with nextIx := (t.mb mbNew).nextIx }))
          linkAfter hiNew mbNewPrev oldIx
          spinLock mbNew
          modify (·.setMb mbNew (fun b =>
            { b with inUse := false, nextIx := -1, firstDbucket := noIx,
                     lastDbucket := noIx, lastDbOffset := 0 }))
          spinUnlock mbNew
          up hiNew
          up hiOld
          return 0
      | none =>
          modify (·.setMb mbOld (fun b => { b with nextIx := -1 }))
          linkAfter hiNew mbNewPrev oldIx
          up hiNew
          up hiOld
          return 0

/-- With the lock calls of `rwlock.c` and `pthread` it is `mb_chpath`. -/
theorem mbChpath_with (oldpath newpath : Path) :
    mbChpath oldpath newpath =
      mbChpathWith downWrite upWrite spinLockMb spinUnlockMb oldpath newpath := rfl

/-- The list updates of `mb_chpath`: its lock calls are no-ops. -/
def mbChpathUnlocked (oldpath newpath : Path) : Op MetaShm Int :=
  mbChpathWith (fun _ => pure ⟨⟩) (fun _ => pure ⟨⟩) (fun _ => pure ⟨⟩) (fun _ => pure ⟨⟩)
    oldpath newpath

/-- The link that the moved bucket gets: that of the bucket with the new path, once the
moved one is out of its row, or the end marker. -/
def MetaShm.newLink (t : MetaShm) (h : Nat) (m : Int) (newpath : Path) (oldPrev lost : Option Int) :
    Int :=
  match lost with
  | some a => (((t.setMb m (fun b => { b with path := newpath.take pathMax })).relink h oldPrev
      (t.next m)).mb a).nextIx
  | none => -1

/-- What the updates compute within a row. -/
theorem TableWf.mbChpathUnlocked_eq (wf : TableWf t rows) (hold : hash oldpath = .ok h)
    (hnew : hash newpath = .ok h) (hdiff : samePath oldpath newpath = false)
    (hrow : rows h = l₁ ++ m :: l₂)
    (hres : seek t oldpath none (rows h) = (some m, l₁.getLast?))
    (hres' : seek t newpath none (rows h) = (lost, newPrev)) :
    mbChpathUnlocked oldpath newpath t =
      .ok 0 ((t.moveMb h h m newpath l₁.getLast? newPrev
        (t.newLink h m newpath l₁.getLast? lost)).dropMb lost) := by
  have hh := hash_lt hold
  have hseek : ∀ str : Path, hash str = .ok h →
      getMbAndPrev str t = .ok (seek t str none (rows h)) t :=
    fun str hok => getMbAndPrev_eq hok (wf.linked h hh) (wf.length_lt hh)
  have hold_ix : linkBehind t h l₁.getLast? = m := by
    refine linkBehind_eq l₂ ?_
    rw [← hrow]
    exact wf.linked h hh
  rw [mbChpathUnlocked, mbChpathWith, run_ite, if_neg (by simp [hdiff]),
    bind_of_ok (hashRow_eq hold), bind_of_ok (hashRow_eq hnew), run_pure_bind, run_pure_bind,
    bind_of_ok (hseek oldpath hold), hres]
  change (getMbAndPrev newpath >>= _) _ = _
  rw [bind_of_ok (hseek newpath hnew), hres']
  cases lost with
  | none =>
      dsimp only
      rw [run_get_bind, hold_ix, run_modify_bind, bind_of_ok linkAfter_eq, run_modify_bind,
        bind_of_ok linkAfter_eq]
      rfl
  | some a =>
      dsimp only
      rw [run_get_bind, hold_ix, run_modify_bind, bind_of_ok linkAfter_eq, run_get_bind,
        run_modify_bind, bind_of_ok linkAfter_eq]
      rfl

/-! The place of the new path in a row. -/

/-- Where the search for the new path ends in the row `l`: at a bucket with the path,
or behind the last one. No bucket before that place has the path. -/
structure Sought (t : MetaShm) (newpath : Path) (l : List Int) (lost newPrev : Option Int)
    (k₁ k₂ : List Int) : Prop where
  split : l = k₁ ++ (lost.toList ++ k₂)
  prev : newPrev = k₁.getLast?
  last : lost = none → k₂ = []
  unlike : ∀ b ∈ k₁, samePath newpath (t.mb b).path = false

theorem seek_sought (t : MetaShm) (newpath : Path) (l : List Int) :
    ∃ newPrev k₁ k₂, seek t newpath none l = (findPath t newpath l, newPrev) ∧
      Sought t newpath l (findPath t newpath l) newPrev k₁ k₂ := by
  rcases seek_cases t newpath l with ⟨hnone, hres⟩ | ⟨a, k₁, k₂, hl, hk₁, _, hfind, hres⟩
  · refine ⟨_, l, [], by rw [hres, hnone], ⟨by simp [hnone], rfl, fun _ => rfl, ?_⟩⟩
    simpa [findPath] using hnone
  · refine ⟨_, k₁, k₂, by rw [hres, hfind], ⟨by rw [hfind]; simpa using hl, rfl, ?_, hk₁⟩⟩
    intro hno
    rw [hfind] at hno
    cases hno

/-- The place of `m` in the row against the place of the new path. -/
theorem Sought.places {k₁ k₂ : List Int}
    (hs : Sought t newpath (l₁ ++ m :: l₂) lost newPrev k₁ k₂) (hm : lost ≠ some m) :
    (∃ mid, k₁ = l₁ ++ m :: mid ∧ l₂ = mid ++ (lost.toList ++ k₂)) ∨
      ∃ a mid, lost = some a ∧ l₁ = k₁ ++ a :: mid ∧ k₂ = mid ++ m :: l₂ := by
  cases lost with
  | none =>
      obtain rfl := hs.last rfl
      have hsplit := hs.split
      simp only [Option.toList_none, List.append_nil] at hsplit
      exact Or.inl ⟨l₂, hsplit.symm, by simp⟩
  | some a =>
      rcases List.append_eq_append_iff.mp hs.split with ⟨mid, hk, hrest⟩ | ⟨mid, hk, hrest⟩
      · cases mid with
        | nil =>
            have hma : m = a := (List.cons.inj hrest).1
            exact absurd (congrArg some hma.symm) hm
        | cons b mid =>
            obtain ⟨rfl, hl₂⟩ := List.cons.inj hrest
            exact Or.inl ⟨mid, hk, hl₂⟩
      · cases mid with
        | nil =>
            have hma : a = m := (List.cons.inj hrest).1
            exact absurd (congrArg some hma) hm
        | cons b mid =>
            obtain ⟨rfl, hk₂⟩ := List.cons.inj hrest
            exact Or.inr ⟨_, mid, rfl, hk, hk₂⟩

/-- The bucket in front of the new path is `m` itself if and only if the new path
follows `m`. -/
theorem Sought.ownPrev_iff {k₁ k₂ : List Int}
    (hs : Sought t newpath (l₁ ++ m :: l₂) lost newPrev k₁ k₂) (hm : lost ≠ some m)
    (hnodup : (l₁ ++ m :: l₂).Nodup) : newPrev = some m ↔ l₂.head? = lost := by
  rw [hs.prev]
  rcases hs.places hm with ⟨mid, rfl, rfl⟩ | ⟨a, mid, rfl, rfl, rfl⟩
  · cases mid with
    | nil =>
        refine iff_of_true (by simp) ?_
        cases lost with
        | none => rw [hs.last rfl]; rfl
        | some a => rfl
    | cons b mid =>
        refine iff_of_false (fun hlast => ?_) (fun hhead => ?_)
        · have hmem : m ∈ b :: mid := List.mem_of_getLast? (by simpa using hlast)
          grind
        · have hb : lost = some b := hhead.symm
          subst hb
          rw [Option.toList_some] at hnodup
          grind
  · refine iff_of_false (fun hlast => ?_) (fun hhead => ?_)
    · have hmem : m ∈ k₁ := List.mem_of_getLast? hlast
      grind
    · have hmem : a ∈ l₂ := List.mem_of_mem_head? (by rw [hhead]; rfl)
      grind

/-- Otherwise the row without `m` has the new path at the same place. -/
theorem Sought.remove {k₁ k₂ : List Int}
    (hs : Sought t newpath (l₁ ++ m :: l₂) lost newPrev k₁ k₂) (hm : lost ≠ some m)
    (hown : newPrev ≠ some m) :
    ∃ k₁' k₂', Sought t newpath (l₁ ++ l₂) lost newPrev k₁' k₂' := by
  rcases hs.places hm with ⟨mid, rfl, rfl⟩ | ⟨a, mid, rfl, rfl, rfl⟩
  · refine ⟨l₁ ++ mid, k₂, by simp, ?_, hs.last, fun b hb => hs.unlike b (by grind)⟩
    rw [hs.prev] at hown ⊢
    cases mid with
    | nil => simp at hown
    | cons b mid => simp
  · exact ⟨k₁, mid ++ l₂, by simp, hs.prev, nofun, hs.unlike⟩

/-! The updates as a whole. -/

/-- The list updates succeed and leave a well-formed table with distinct paths, in
which the new path leads to `m`, the old one to nothing and every other path to where
it led before. -/
def RowRenamed (t : MetaShm) (oldpath newpath : Path) (m : Int) : Prop :=
  ∃ t' rows', mbChpathUnlocked oldpath newpath t = .ok 0 t' ∧ TableWf t' rows' ∧ Named t' rows' ∧
    pathMap t' = Function.update (Function.update (pathMap t) oldpath none) newpath (some m)

/-- A bucket that is its own predecessor points at itself afterwards. -/
theorem moveMb_own {oldPrev : Option Int} {ix : Int} (hm : lost ≠ some m) :
    ((t.moveMb h h m newpath oldPrev (some m) ix).dropMb lost).next m = m := by
  rw [MetaShm.next, dropMb_of_ne hm, MetaShm.moveMb, MetaShm.relink, setMb_mb_self]

/-- The new link of the moved bucket leads to what follows the new path. -/
theorem Sought.newLink_eq {k₁ k₂ : List Int} (wf : TableWf t rows) (hh : h < hashTableSize)
    (hrow : rows h = l₁ ++ m :: l₂) (hs : Sought t newpath (l₁ ++ l₂) lost newPrev k₁ k₂) :
    t.newLink h m newpath l₁.getLast? lost = k₂.head?.getD (-1) := by
  cases lost with
  | none =>
      rw [hs.last rfl]
      rfl
  | some a =>
      have hnext : ∀ b, (t.setMb m (fun b => { b with path := newpath.take pathMax })).next b =
          t.next b := by
        intro b
        by_cases hb : b = m
        · subst hb
          simp [MetaShm.next]
        · rw [MetaShm.next, setMb_mb_of_ne _ hb, MetaShm.next]
      have hwf : RowsWf (t.setMb m (fun b => { b with path := newpath.take pathMax })) rows :=
        wf.toRowsWf.congr (fun _ _ => rfl) (fun _ _ b _ => hnext b)
      have hlinked := (hwf.remove hh hrow).linked h hh
      rw [Function.update_self, hs.split, hnext] at hlinked
      exact Linked.next_eq hlinked

/-- Within a row, the list updates of a rename are right if and only if the bucket
behind the old path is not the one of the new path, or, when there is none, the old
path is not the last of the row. -/
theorem rename_in_row_iff (wf : TableWf t rows) (named : Named t rows)
    (hold : hash oldpath = .ok h) (hnew : hash newpath = .ok h)
    (hfits : newpath.length < pathMax) (hne : oldpath ≠ newpath)
    (hin : pathMap t oldpath = some m) :
    RowRenamed t oldpath newpath m ↔ (t.mb m).nextIx ≠ (pathMap t newpath).getD (-1) := by
  have hh := hash_lt hold
  obtain ⟨huse, hpath⟩ := (pathMap_iff wf named).mp hin
  have hshort : oldpath.length < pathMax := hpath ▸ named.short m huse
  have hdiff : samePath oldpath newpath = false := by
    rw [Bool.eq_false_iff, ne_eq, samePath_iff hshort hfits]
    exact hne
  have hm : pathMap t newpath ≠ some m := fun hnew' =>
    hne (((pathMap_iff wf named).mp hin).2.symm.trans ((pathMap_iff wf named).mp hnew').2)
  have hfind := (findPath_eq_pathMap wf named hold hshort).trans hin
  obtain ⟨l₁, l₂, hrow, hres⟩ : ∃ l₁ l₂, rows h = l₁ ++ m :: l₂ ∧
      seek t oldpath none (rows h) = (some m, l₁.getLast?) := by
    rcases seek_cases t oldpath (rows h) with ⟨hnone, _⟩ | ⟨m', l₁, l₂, hrow, _, _, hfind', hres⟩
    · rw [hnone] at hfind
      cases hfind
    · obtain rfl : m' = m := Option.some.inj (hfind'.symm.trans hfind)
      exact ⟨l₁, l₂, hrow, hres⟩
  obtain ⟨newPrev, k₁, k₂, hres', hs⟩ := seek_sought t newpath (rows h)
  rw [findPath_eq_pathMap wf named hnew hfits] at hres' hs
  have hrun := wf.mbChpathUnlocked_eq hold hnew hdiff hrow hres hres'
  rw [hrow] at hs
  have hlinked : Linked t.next (-1) (t.row h).firstIx (l₁ ++ m :: l₂) := hrow ▸ wf.linked h hh
  -- the condition says that the bucket is not its own new predecessor
  have hcond : (t.mb m).nextIx = (pathMap t newpath).getD (-1) ↔ newPrev = some m := by
    rw [hs.ownPrev_iff hm hlinked.nodup, show (t.mb m).nextIx = l₂.head?.getD (-1) from
      Linked.next_eq hlinked]
    have hne₁ : ∀ a, l₂.head? = some a → a ≠ -1 := fun a ha =>
      Seg.ne_nil hlinked (by simp [List.mem_of_mem_head? ha])
    have hne₂ : ∀ a, pathMap t newpath = some a → a ≠ -1 := by
      intro a ha
      obtain ⟨h', hh', hmem⟩ := (wf.inUse_iff a).mp ((pathMap_iff wf named).mp ha).1
      have := wf.bound h' hh' a hmem
      omega
    cases hl : l₂.head? with
    | none =>
        cases hp : pathMap t newpath with
        | none => simp
        | some a => simpa using (hne₂ a hp).symm
    | some b =>
        cases hp : pathMap t newpath with
        | none => simpa using hne₁ b hl
        | some a => simp
  rw [ne_eq, hcond]
  constructor
  · rintro ⟨t', rows', hrun', wf', _, _⟩ rfl
    rw [hrun] at hrun'
    injection hrun' with _ ht'
    have huse' : (t'.mb m).inUse = true := by
      rw [← ht', dropMb_of_ne hm, moveMb_moved.inUse]
      exact huse
    obtain ⟨h', hh', hmem⟩ := (wf'.inUse_iff m).mp huse'
    refine Linked.next_ne_self (wf'.linked h' hh') hmem ?_
    rw [← ht']
    exact moveMb_own hm
  · intro hown
    obtain ⟨k₁', k₂', hs'⟩ := hs.remove hm hown
    have hr := wf.rename newpath hh hh hrow
      ((Function.update_self ..).trans hs'.split) hs'.unlike
    rw [← hs'.prev, ← hs'.newLink_eq wf hh hrow] at hr
    obtain ⟨named', hmap⟩ := hr.named_pathMap wf named hnew hfits hin
    exact ⟨_, _, hrun, hr.wf, named', hmap⟩

/-! Three paths of one row. -/

def pathAb : Path := [47, 97, 98]
def pathBA : Path := [47, 98, 65]
def pathC : Path := [47, 99, 32]

/-- The table after the creation of the given paths. -/
def tableWith (ps : List Path) : MetaShm :=
  ps.foldl (fun t p => match createMbucket 0 p t with
    | .ok _ t' => t'
    | .error _ t' => t') initTable

theorem tableWith_wf {ps : List Path} (hps : ∀ p ∈ ps, GoodPath p) :
    ∃ rows, MapWf (tableWith ps) rows := by
  have hstep : ∀ t : MetaShm, (∃ rows, MapWf t rows) → ∃ rows, MapWf (ps.foldl (fun t p =>
      match createMbucket 0 p t with
      | .ok _ t' => t'
      | .error _ t' => t') t) rows := by
    induction ps with
    | nil => exact fun t hwf => hwf
    | cons p ps ih =>
        rintro t ⟨rows, hwf⟩
        obtain ⟨⟨r, t', hrun, _⟩, hkeeps⟩ := createMbucket_spec hwf (hps p (by simp)) 0
        rw [List.foldl_cons, hrun]
        exact ih (fun q hq => hps q (by simp [hq])) t' (hkeeps r t' hrun)
  exact hstep initTable ⟨_, initTable_wf, initTable_named, fun _ => rfl⟩

/-- The rename of the first of two paths of a row. -/
theorem rename_in_row_first : RowRenamed (tableWith [pathAb, pathC]) pathAb pathBA 0 := by
  obtain ⟨rows, wf, named, _⟩ := tableWith_wf (show ∀ p ∈ [pathAb, pathC], GoodPath p by decide +kernel)
  have hin : pathMap (tableWith [pathAb, pathC]) pathAb = some 0 :=
    (pathMap_iff wf named).mpr ⟨by decide +kernel, by decide +kernel⟩
  refine (rename_in_row_iff (h := 1975) wf named (by decide) (by decide) (by decide) (by decide) hin).mpr ?_
  rw [show ((tableWith [pathAb, pathC]).mb 0).nextIx = 1 by decide +kernel]
  cases hp : pathMap (tableWith [pathAb, pathC]) pathBA with
  | none => decide
  | some a =>
      rintro rfl
      have hpath := ((pathMap_iff wf named).mp hp).2
      exact absurd hpath (by decide +kernel)

/-- The rename of the only path of a row takes its bucket out of the row. -/
theorem rename_only_path_lost :
    ¬ ∀ (t : MetaShm) (rows : Nat → List Int) (oldpath newpath : Path) (h : Nat) (m : Int),
      TableWf t rows → Named t rows → hash oldpath = .ok h → hash newpath = .ok h →
      oldpath.length < pathMax → newpath.length < pathMax → oldpath ≠ newpath →
      pathMap t oldpath = some m → RowRenamed t oldpath newpath m := by
  intro hall
  obtain ⟨rows, wf, named, _⟩ := tableWith_wf (show ∀ p ∈ [pathAb], GoodPath p by decide +kernel)
  have hin : pathMap (tableWith [pathAb]) pathAb = some 0 :=
    (pathMap_iff wf named).mpr ⟨by decide +kernel, by decide +kernel⟩
  obtain ⟨t', rows', hrun, wf', _⟩ := hall _ rows pathAb pathBA 1975 0 wf named (by decide)
    (by decide) (by decide) (by decide) (by decide) hin
  have hself : Ends (mbChpathUnlocked pathAb pathBA (tableWith [pathAb]))
      (fun _ t' => (t'.mb 0).nextIx = 0 ∧ (t'.mb 0).inUse = true) (fun _ _ => False) := by
    decide +kernel
  rw [hrun, ends_ok] at hself
  obtain ⟨hnext, huse⟩ := hself
  obtain ⟨h', hh', hmem⟩ := (wf'.inUse_iff 0).mp huse
  exact Linked.next_ne_self (wf'.linked h' hh') hmem hnext

end Spacefish
