import Spacefish.TableCreate

/-!
Release and rename in a well-formed table. Both start from the search for a
bucket and its predecessor; release takes the bucket out of its row, and a
rename between two rows takes it out of one and puts it into the other, in the
place of the bucket that had the new path or at the end.
-/

namespace Spacefish

open LinkedArray Program

variable {t : MetaShm} {rows : Nat → List Int} {h fuel : Nat} {str : Path}
  {l l₁ l₂ : List Int} {i m : Int} {prev : Option Int}

/-- The search of `get_mb_and_prev` along a row list. -/
def seek (t : MetaShm) (str : Path) : Option Int → List Int → Option Int × Option Int
  | prev, [] => (none, prev)
  | prev, m :: l =>
      if samePath str (t.mb m).path then (some m, prev) else seek t str (some m) l

theorem seek_none (prev : Option Int) (hnone : findPath t str l = none) :
    seek t str prev l = (none, l.getLast?.or prev) := by
  induction l generalizing prev with
  | nil => rfl
  | cons m l ih =>
      have hm : samePath str (t.mb m).path = false := by
        by_contra hsame
        simp [findPath, hsame] at hnone
      have hl : findPath t str l = none := by simpa [findPath, hm] using hnone
      rw [seek, hm, if_neg (by simp), ih _ hl, List.getLast?_cons]
      cases l.getLast? <;> rfl

theorem seek_some (hm : samePath str (t.mb m).path = true)
    (hl₁ : ∀ a ∈ l₁, samePath str (t.mb a).path = false) :
    seek t str prev (l₁ ++ m :: l₂) = (some m, l₁.getLast?.or prev) := by
  induction l₁ generalizing prev with
  | nil => simp [seek, hm]
  | cons a l₁ ih =>
      have ha := hl₁ a (by simp)
      rw [List.cons_append, seek, ha, if_neg (by simp),
        ih (fun b hb => hl₁ b (by simp [hb])), List.getLast?_cons]
      cases l₁.getLast? <;> rfl

@[simp] theorem seek_lockRow {lk : UrwLock} :
    seek (t.lockRow h lk) str prev l = seek t str prev l := by
  induction l generalizing prev with
  | nil => rfl
  | cons m l ih => simp only [seek, lockRow_mb, ih]

theorem getMbAndPrevLoop_eq {p : Int} (str : Path) (fuel : Nat) (hl : Linked t.next (-1) i l) (hf : l.length < fuel) :
    getMbAndPrevLoop str fuel p i t = .ok (seek t str (some p) l) t := by
  induction l generalizing i p fuel with
  | nil =>
      obtain rfl : i = -1 := hl
      obtain ⟨fuel, rfl⟩ : ∃ n, fuel = n + 1 := ⟨fuel - 1, by simp at hf; omega⟩
      simp [getMbAndPrevLoop, seek]
  | cons m l ih =>
      obtain ⟨rfl, hm, htail⟩ := hl
      obtain ⟨fuel, rfl⟩ : ∃ n, fuel = n + 1 := ⟨fuel - 1, by simp at hf; omega⟩
      have htail' := ih (p := i) fuel htail (by simpa using hf)
      by_cases hsame : samePath str (t.mb i).path
      · simp [getMbAndPrevLoop, seek, hm, hsame]
      · simpa [getMbAndPrevLoop, seek, hm, hsame, MetaShm.next] using htail'

theorem getMbAndPrev_eq (hok : hash str = .ok h)
    (hl : Linked t.next (-1) (t.row h).firstIx l) (hf : l.length < rowFuel) :
    getMbAndPrev str t = .ok (seek t str none l) t := by
  unfold getMbAndPrev
  rw [bind_of_ok (hashRow_eq hok), run_get_bind]
  cases l with
  | nil =>
      have hnil : (t.row h).firstIx = -1 := hl
      simp [hnil, seek]
  | cons m l =>
      obtain ⟨hfirst, hm, htail⟩ := hl
      rw [hfirst, run_ite, if_neg hm]
      by_cases hsame : samePath str (t.mb m).path
      · by_cases hone : (t.mb m).nextIx = -1 <;> simp [hone, hsame, seek]
      · by_cases hone : (t.mb m).nextIx = -1
        · have hl : l = [] := by
            cases l with
            | nil => rfl
            | cons a l => exact absurd (htail.1.symm.trans hone) htail.2.1
          subst hl
          simp [hone, hsame, seek]
        · have hloop := getMbAndPrevLoop_eq (p := m) str rowFuel htail
            (by simp at hf; omega)
          simpa [hone, hsame, seek, MetaShm.next] using hloop

/-- A search that finds its path splits the row. -/
theorem seek_cases (t : MetaShm) (str : Path) (l : List Int) :
    (findPath t str l = none ∧ seek t str none l = (none, l.getLast?)) ∨
    ∃ m l₁ l₂, l = l₁ ++ m :: l₂ ∧ (∀ a ∈ l₁, samePath str (t.mb a).path = false) ∧
      samePath str (t.mb m).path = true ∧
      findPath t str l = some m ∧ seek t str none l = (some m, l₁.getLast?) := by
  cases hfind : findPath t str l with
  | none => exact Or.inl ⟨rfl, by simpa using seek_none none hfind⟩
  | some m =>
      obtain ⟨hm, l₁, l₂, hsplit, hl₁⟩ := List.find?_eq_some_iff_append.mp hfind
      have hbefore : ∀ a ∈ l₁, samePath str (t.mb a).path = false :=
        fun a ha => by simpa using hl₁ a ha
      refine Or.inr ⟨m, l₁, l₂, hsplit, hbefore, hm, rfl, ?_⟩
      rw [hsplit, seek_some hm hbefore]
      simp

/-! Release. -/

/-- What release leaves of a bucket. -/
def MetaBucket.released (b : MetaBucket) : MetaBucket :=
  { b with inUse := false, nextIx := -1, firstDbucket := noIx, lastDbucket := noIx,
           lastDbOffset := 0 }

/-- What `release_meta_bucket` leaves when it frees bucket `m`. -/
structure Released (t t' : MetaShm) (rows rows' : Nat → List Int) (m : Int) : Prop where
  wf : TableWf t' rows'
  mem_iff : ∀ h < hashTableSize, ∀ a, a ∈ rows' h ↔ a ≠ m ∧ a ∈ rows h
  gone : t'.mb m = (t.mb m).released
  same : ∀ m' ≠ m, SameButLink (t'.mb m') (t.mb m')
  locks : ∀ h, (t'.row h).lock = (t.row h).lock

theorem RowsWf.mem_remove (wf : RowsWf t rows) (hh : h < hashTableSize)
    (hrow : rows h = l₁ ++ m :: l₂) :
    ∀ h' < hashTableSize, ∀ a, a ∈ Function.update rows h (l₁ ++ l₂) h' ↔ a ≠ m ∧ a ∈ rows h' := by
  intro h' hh' a
  by_cases heq : h' = h
  · subst heq
    have hnodup := (wf.linked h' hh).nodup
    rw [hrow] at hnodup ⊢
    rw [Function.update_self]
    grind
  · rw [Function.update_of_ne heq]
    refine ⟨fun ha => ⟨?_, ha⟩, fun ha => ha.2⟩
    rintro rfl
    exact heq (wf.apart h' hh' h hh a ha (by rw [hrow]; simp))

theorem TableWf.release (wf : TableWf t rows) (hh : h < hashTableSize)
    (hrow : rows h = l₁ ++ m :: l₂) :
    Released t ((t.relink h l₁.getLast? (t.next m)).setMb m MetaBucket.released) rows
      (Function.update rows h (l₁ ++ l₂)) m := by
  have hmem := wf.toRowsWf.mem_remove hh hrow
  have hrows := (wf.toRowsWf.remove hh hrow).setMb_off MetaBucket.released
    (fun h' hh' hm => ((hmem h' hh' m).mp hm).1 rfl)
  have hsame : ∀ m' ≠ m, SameButLink
      (((t.relink h l₁.getLast? (t.next m)).setMb m MetaBucket.released).mb m') (t.mb m') := by
    intro m' hne
    rw [setMb_mb_of_ne _ hne]
    exact relink_same
  have hgone : ((t.relink h l₁.getLast? (t.next m)).setMb m MetaBucket.released).mb m =
      (t.mb m).released := by
    rw [setMb_mb_self]
    have hs : SameButLink ((t.relink h l₁.getLast? (t.next m)).mb m) (t.mb m) := relink_same
    unfold MetaBucket.released
    rw [hs]
  refine ⟨⟨hrows, ?_, ?_, ?_, ?_⟩, hmem, hgone, hsame, fun h' => relink_rowLock⟩
  · intro m'
    by_cases hne : m' = m
    · subst hne
      rw [hgone]
      refine ⟨fun hu => by simp [MetaBucket.released] at hu, ?_⟩
      rintro ⟨h', hh', hm'⟩
      exact absurd rfl ((hmem h' hh' m').mp hm').1
    · rw [(hsame m' hne).inUse, wf.inUse_iff]
      constructor
      · rintro ⟨h', hh', hm'⟩
        exact ⟨h', hh', (hmem h' hh' m').mpr ⟨hne, hm'⟩⟩
      · rintro ⟨h', hh', hm'⟩
        exact ⟨h', hh', ((hmem h' hh' m').mp hm').2⟩
  · intro m' hfree
    by_cases hne : m' = m
    · subst hne
      rw [MetaShm.next, hgone]
      exact ⟨rfl, rfl⟩
    · rw [(hsame m' hne).inUse] at hfree
      refine ⟨?_, by rw [(hsame m' hne).firstDbucket]; exact (wf.free m' hfree).2⟩
      rw [MetaShm.next, setMb_mb_of_ne _ hne]
      refine (relink_next_of_ne ?_).trans (wf.free m' hfree).1
      intro hlast
      refine wf.not_mem hfree h hh ?_
      rw [hrow]
      exact List.mem_append_left _ (List.mem_of_getLast? hlast)
  · intro h'
    simp only [RowIdle, RowStuck, setMb_row, relink_rowLock]
    exact wf.rowLock h'
  · intro m'
    by_cases hne : m' = m
    · subst hne
      rw [hgone]
      exact wf.mbUnlocked m'
    · rw [(hsame m' hne).lock]
      exact wf.mbUnlocked m'

theorem spinLockMb_eq (hl : (t.mb m).lock = false) :
    spinLockMb m t = .ok ⟨⟩ (t.setMb m (fun b => { b with lock := true })) := by
  simp [spinLockMb, hl]

theorem setMb_congr {f g : MetaBucket → MetaBucket} (hfg : f (t.mb m) = g (t.mb m)) :
    t.setMb m f = t.setMb m g := by
  simp only [MetaShm.setMb, hfg]

/-- Freeing a bucket under its own lock. -/
theorem freeMb_eq (hl : (t.mb m).lock = false) {f : MetaBucket → MetaBucket}
    (hf : ∀ b : MetaBucket, { f { b with lock := true } with lock := b.lock } = f b)
    {k : Op MetaShm Int} :
    (do spinLockMb m; modify (·.setMb m f); spinUnlockMb m; k : Op MetaShm Int) t =
      k (t.setMb m f) := by
  rw [bind_of_ok (spinLockMb_eq hl), run_modify_bind, spinUnlockMb, run_modify_bind,
    setMb_setMb, setMb_setMb]
  congr 1
  refine setMb_congr ?_
  rw [← hf (t.mb m), hl]

/-- `release_meta_bucket` returns -1 with the table unchanged when the path is
absent, and otherwise frees the bucket of the path. -/
theorem TableWf.releaseMetaBucket_eq (wf : TableWf t rows) (hok : hash str = .ok h)
    (hidle : RowIdle t h) :
    (findPath t str (rows h) = none ∧ releaseMetaBucket str t = .ok (-1) t) ∨
    ∃ m t' rows', findPath t str (rows h) = some m ∧ releaseMetaBucket str t = .ok 0 t' ∧
      Released t t' rows rows' m := by
  have hh := hash_lt hok
  unfold releaseMetaBucket
  rw [bind_of_ok (hashRow_eq hok), bind_of_ok (downWrite_eq hidle)]
  have hseek : getMbAndPrev str (t.lockRow h ⟨0, 1, true⟩) =
      .ok (seek t str none (rows h)) (t.lockRow h ⟨0, 1, true⟩) := by
    rw [getMbAndPrev_eq (t := t.lockRow h ⟨0, 1, true⟩) hok
      (by rw [lockRow_firstIx]; exact wf.linked h hh) (wf.length_lt hh), seek_lockRow]
  rw [bind_of_ok hseek]
  rcases seek_cases t str (rows h) with ⟨hnone, hres⟩ | ⟨m, l₁, l₂, hrow, _, hsame, hfind, hres⟩
  · refine Or.inl ⟨hnone, ?_⟩
    rw [hres]
    change (upWrite h >>= fun _ => pure (-1)) _ = _
    rw [bind_of_ok (upWrite_lockRow hidle)]
    rfl
  · refine Or.inr ⟨m, _, _, hfind, ?_, wf.release hh hrow⟩
    rw [hres]
    change (linkAfter h l₁.getLast? (t.next m) >>= _) _ = _
    rw [bind_of_ok linkAfter_eq, run_modify_bind, relink_lockRow]
    have hup : upWrite h (((t.relink h l₁.getLast? (t.next m)).lockRow h ⟨0, 1, true⟩).setMb m
        (fun b => { b with nextIx := -1 })) =
        .ok ⟨⟩ ((t.relink h l₁.getLast? (t.next m)).setMb m (fun b => { b with nextIx := -1 })) :=
      upWrite_lockRow (t := (t.relink h l₁.getLast? (t.next m)).setMb m
        (fun b => { b with nextIx := -1 })) (by
          rw [setMb_row, relink_rowLock]
          exact hidle)
    rw [bind_of_ok hup, freeMb_eq, setMb_setMb]
    · rfl
    · simpa [relink_same.lock] using wf.mbUnlocked m
    · intro b
      rfl

/-! Rename between two rows. -/

/-- What `mb_chpath` leaves when bucket `m` gets a path of row `hn` and `lost`
is the bucket that had that path. -/
structure Renamed (t t' : MetaShm) (rows rows' : Nat → List Int) (hn : Nat) (m : Int)
    (lost : Option Int) (newpath : Path) : Prop where
  wf : TableWf t' rows'
  mem_iff : ∀ h < hashTableSize, ∀ a, a ∈ rows' h ↔
    (a = m ∧ h = hn) ∨ (a ≠ m ∧ lost ≠ some a ∧ a ∈ rows h)
  moved : SameButLink (t'.mb m) { t.mb m with path := newpath.take pathMax }
  gone : ∀ a, lost = some a → t'.mb a = (t.mb a).released
  same : ∀ a ≠ m, lost ≠ some a → SameButLink (t'.mb a) (t.mb a)
  locks : ∀ h, (t'.row h).lock = (t.row h).lock
  found : findPath t' newpath (rows' hn) = some m

section Rename

variable {ho hn : Nat} {k₁ k₂ : List Int} {lost : Option Int} {newpath : Path}

/-- The table with `m` out of row `ho` and in row `hn`, in front of `ix`. -/
def MetaShm.moveMb (t : MetaShm) (ho hn : Nat) (m : Int) (newpath : Path)
    (oldPrev newPrev : Option Int) (ix : Int) : MetaShm :=
  (((t.setMb m (fun b => { b with path := newpath.take pathMax })).relink ho oldPrev
    (t.next m)).setMb m (fun b => { b with nextIx := ix })).relink hn newPrev m

/-- The same table with the bucket that had the new path released. -/
def MetaShm.dropMb (t : MetaShm) : Option Int → MetaShm
  | none => t
  | some a => t.setMb a MetaBucket.released

theorem moveMb_same {a : Int} (ho hn : Nat) (newpath : Path) (oldPrev newPrev : Option Int)
    (ix : Int) (hne : a ≠ m) :
    SameButLink ((t.moveMb ho hn m newpath oldPrev newPrev ix).mb a) (t.mb a) := by
  refine SameButLink.trans relink_same ?_
  rw [setMb_mb_of_ne _ hne]
  refine SameButLink.trans relink_same ?_
  rw [setMb_mb_of_ne _ hne]
  exact SameButLink.refl _

theorem moveMb_moved {oldPrev newPrev : Option Int} {ix : Int} :
    SameButLink ((t.moveMb ho hn m newpath oldPrev newPrev ix).mb m)
      { t.mb m with path := newpath.take pathMax } := by
  refine SameButLink.trans relink_same ?_
  rw [setMb_mb_self]
  have hs : SameButLink
      (((t.setMb m (fun b => { b with path := newpath.take pathMax })).relink ho oldPrev
        (t.next m)).mb m)
      ((t.setMb m (fun b => { b with path := newpath.take pathMax })).mb m) := relink_same
  rw [setMb_mb_self] at hs
  unfold SameButLink at hs ⊢
  rw [hs]

theorem moveMb_next {oldPrev newPrev : Option Int} {ix a : Int} (hne : a ≠ m)
    (hold : oldPrev ≠ some a) (hnew : newPrev ≠ some a) :
    (t.moveMb ho hn m newpath oldPrev newPrev ix).next a = t.next a := by
  rw [MetaShm.moveMb, relink_next_of_ne hnew, MetaShm.next, setMb_mb_of_ne _ hne]
  refine (relink_next_of_ne hold).trans ?_
  rw [MetaShm.next, setMb_mb_of_ne _ hne, MetaShm.next]

@[simp] theorem dropMb_row : (t.dropMb lost).row = t.row := by
  cases lost <;> rfl

theorem dropMb_of_ne {a : Int} (hne : lost ≠ some a) : (t.dropMb lost).mb a = t.mb a := by
  cases lost with
  | none => rfl
  | some b => exact setMb_mb_of_ne _ (fun heq => hne (by rw [heq]))

/-- The rows after `m` was taken out of row `ho` and put into row `hn`, which may be
the same one, in the place of `lost`. -/
theorem mem_move (wf : RowsWf t rows) (hho : ho < hashTableSize) (hhn : hn < hashTableSize)
    (hrow : rows ho = l₁ ++ m :: l₂)
    (hrow' : Function.update rows ho (l₁ ++ l₂) hn = k₁ ++ (lost.toList ++ k₂)) :
    ∀ h < hashTableSize, ∀ a,
      a ∈ Function.update (Function.update rows ho (l₁ ++ l₂)) hn (k₁ ++ m :: k₂) h ↔
        (a = m ∧ h = hn) ∨ (a ≠ m ∧ lost ≠ some a ∧ a ∈ rows h) := by
  intro h hh a
  have hrem := wf.mem_remove hho hrow
  have hover : ∀ b, lost = some b → b ∈ rows hn := by
    rintro b rfl
    exact ((hrem hn hhn b).mp (by simp [hrow'])).2
  by_cases heq : h = hn
  · subst heq
    have hnodup := ((wf.remove hho hrow).linked h hh).nodup
    have hmem := hrem h hh a
    rw [Function.update_self]
    rw [hrow'] at hnodup hmem
    cases lost with
    | none => simp only [Option.toList_none, List.nil_append] at *; grind
    | some b => simp only [Option.toList_some, List.singleton_append] at *; grind
  · rw [Function.update_of_ne heq, hrem h hh a]
    have hnot : a ∈ rows h → lost ≠ some a := fun hmem ho' =>
      heq (wf.apart h hh hn hhn a hmem (hover a ho'))
    grind

theorem setPath_next {a : Int} :
    (t.setMb m (fun b => { b with path := newpath.take pathMax })).next a = t.next a := by
  by_cases ha : a = m
  · subst ha
    simp [MetaShm.next]
  · rw [MetaShm.next, setMb_mb_of_ne _ ha, MetaShm.next]

/-- The links after the move are those of the new rows. -/
theorem RowsWf.move (wf : RowsWf t rows) (newpath : Path) (hho : ho < hashTableSize)
    (hhn : hn < hashTableSize) (hrow : rows ho = l₁ ++ m :: l₂)
    (hrow' : Function.update rows ho (l₁ ++ l₂) hn = k₁ ++ (lost.toList ++ k₂)) :
    RowsWf ((t.moveMb ho hn m newpath l₁.getLast? k₁.getLast? (k₂.head?.getD (-1))).dropMb lost)
      (Function.update (Function.update rows ho (l₁ ++ l₂)) hn (k₁ ++ m :: k₂)) := by
  have h₁ : RowsWf (t.setMb m (fun b => { b with path := newpath.take pathMax })) rows :=
    wf.congr (fun _ _ => rfl) (fun _ _ _ _ => setPath_next)
  have h₂ := h₁.remove hho hrow
  rw [setPath_next] at h₂
  have hoff : ∀ h < hashTableSize, m ∉ Function.update rows ho (l₁ ++ l₂) h :=
    fun h hh hmem => ((h₁.mem_remove hho hrow h hh m).mp hmem).1 rfl
  have h₄ := (h₂.setMb_off (fun b => { b with nextIx := k₂.head?.getD (-1) }) hoff).insert k₁
    lost.toList k₂ hhn hrow' hoff (wf.bound ho hho m (by simp [hrow])) (by simp [MetaShm.next])
  cases lost with
  | none => exact h₄
  | some a =>
      have hne : a ≠ m := ((wf.mem_remove hho hrow hn hhn a).mp (by simp [hrow'])).1
      refine h₄.setMb_off MetaBucket.released (fun h hh ha => ?_)
      rcases (mem_move wf hho hhn hrow hrow' h hh a).mp ha with ⟨ham, _⟩ | ⟨_, ha', _⟩
      · exact hne ham
      · exact ha' rfl

/-- A table in which `m` has moved and `lost` was released is well-formed. -/
theorem TableWf.moved {t' : MetaShm} {rows' : Nat → List Int} (wf : TableWf t rows)
    (hho : ho < hashTableSize) (hhn : hn < hashTableSize) (hm : m ∈ rows ho)
    (hrows : RowsWf t' rows')
    (hmem : ∀ h < hashTableSize, ∀ a, a ∈ rows' h ↔
      (a = m ∧ h = hn) ∨ (a ≠ m ∧ lost ≠ some a ∧ a ∈ rows h))
    (hmoved : SameButLink (t'.mb m) { t.mb m with path := newpath.take pathMax })
    (hgone : ∀ a, lost = some a → t'.mb a = (t.mb a).released)
    (hsame : ∀ a ≠ m, lost ≠ some a → SameButLink (t'.mb a) (t.mb a))
    (hlocks : ∀ h, (t'.row h).lock = (t.row h).lock)
    (hfree : ∀ a, (t.mb a).inUse = false → lost ≠ some a → t'.next a = -1) :
    TableWf t' rows' := by
  have huse : (t.mb m).inUse = true := (wf.inUse_iff m).mpr ⟨ho, hho, hm⟩
  refine ⟨hrows, ?_, ?_, ?_, ?_⟩
  · intro a
    by_cases ha : a = m
    · subst ha
      rw [hmoved.inUse]
      exact ⟨fun _ => ⟨hn, hhn, (hmem hn hhn a).mpr (Or.inl ⟨rfl, rfl⟩)⟩, fun _ => huse⟩
    · by_cases hao : lost = some a
      · rw [hgone a hao]
        refine ⟨fun hu => by simp [MetaBucket.released] at hu, ?_⟩
        rintro ⟨h', hh', ha'⟩
        rcases (hmem h' hh' a).mp ha' with ⟨ham, _⟩ | ⟨_, hao', _⟩
        · exact absurd ham ha
        · exact absurd hao hao'
      · rw [(hsame a ha hao).inUse, wf.inUse_iff]
        constructor
        · rintro ⟨h', hh', ha'⟩
          exact ⟨h', hh', (hmem h' hh' a).mpr (Or.inr ⟨ha, hao, ha'⟩)⟩
        · rintro ⟨h', hh', ha'⟩
          rcases (hmem h' hh' a).mp ha' with ⟨ham, _⟩ | ⟨_, _, ha''⟩
          · exact absurd ham ha
          · exact ⟨h', hh', ha''⟩
  · intro a hunused
    by_cases hao : lost = some a
    · rw [MetaShm.next, hgone a hao]
      exact ⟨rfl, rfl⟩
    · have ha : a ≠ m := by
        rintro rfl
        rw [hmoved.inUse, huse] at hunused
        cases hunused
      rw [(hsame a ha hao).inUse] at hunused
      exact ⟨hfree a hunused hao,
        (hsame a ha hao).firstDbucket.trans (wf.free a hunused).2⟩
  · intro h'
    simp only [RowIdle, RowStuck, hlocks]
    exact wf.rowLock h'
  · intro a
    by_cases ha : a = m
    · subst ha
      rw [hmoved.lock]
      exact wf.mbUnlocked a
    · by_cases hao : lost = some a
      · rw [hgone a hao]
        exact wf.mbUnlocked a
      · rw [(hsame a ha hao).lock]
        exact wf.mbUnlocked a

theorem TableWf.rename (wf : TableWf t rows) (newpath : Path) (hho : ho < hashTableSize)
    (hhn : hn < hashTableSize) (hrow : rows ho = l₁ ++ m :: l₂)
    (hrow' : Function.update rows ho (l₁ ++ l₂) hn = k₁ ++ (lost.toList ++ k₂))
    (hfirst : ∀ a ∈ k₁, samePath newpath (t.mb a).path = false) :
    Renamed t ((t.moveMb ho hn m newpath l₁.getLast? k₁.getLast? (k₂.head?.getD (-1))).dropMb lost)
      rows (Function.update (Function.update rows ho (l₁ ++ l₂)) hn (k₁ ++ m :: k₂))
      hn m lost newpath := by
  have hmem := mem_move wf.toRowsWf hho hhn hrow hrow'
  have hrem := wf.toRowsWf.mem_remove hho hrow
  have hm : m ∈ rows ho := by simp [hrow]
  have hlost_ne : ∀ b, lost = some b → b ≠ m := by
    rintro b rfl
    exact ((hrem hn hhn b).mp (by simp [hrow'])).1
  have hk₁ : ∀ a ∈ k₁, a ≠ m ∧ a ∈ rows hn := fun a ha =>
    (hrem hn hhn a).mp (by simp [hrow', ha])
  have hmoved : SameButLink
      (((t.moveMb ho hn m newpath l₁.getLast? k₁.getLast? (k₂.head?.getD (-1))).dropMb lost).mb m)
      { t.mb m with path := newpath.take pathMax } := by
    rw [dropMb_of_ne (fun heq => hlost_ne m heq rfl)]
    exact moveMb_moved
  have hsame : ∀ a ≠ m, lost ≠ some a → SameButLink
      (((t.moveMb ho hn m newpath l₁.getLast? k₁.getLast? (k₂.head?.getD (-1))).dropMb lost).mb a)
      (t.mb a) := by
    intro a ha hao
    rw [dropMb_of_ne hao]
    exact moveMb_same _ _ _ _ _ _ ha
  have hgone : ∀ a, lost = some a →
      ((t.moveMb ho hn m newpath l₁.getLast? k₁.getLast? (k₂.head?.getD (-1))).dropMb lost).mb a =
      (t.mb a).released := by
    rintro a rfl
    rw [MetaShm.dropMb, setMb_mb_self]
    have hs := moveMb_same (t := t) ho hn newpath l₁.getLast? k₁.getLast? (k₂.head?.getD (-1))
      (hlost_ne a rfl)
    unfold MetaBucket.released
    rw [hs]
  have hlocks : ∀ h', ((((t.moveMb ho hn m newpath l₁.getLast? k₁.getLast?
      (k₂.head?.getD (-1))).dropMb lost)).row h').lock = (t.row h').lock := by
    intro h'
    simp only [dropMb_row, MetaShm.moveMb, relink_rowLock, setMb_row]
  refine ⟨wf.moved hho hhn hm (wf.toRowsWf.move newpath hho hhn hrow hrow') hmem hmoved hgone hsame
    hlocks ?_, hmem, hmoved, hgone, hsame, hlocks, ?_⟩
  · intro a hfree hao
    have ha : a ≠ m := by
      rintro rfl
      exact wf.not_mem hfree ho hho hm
    have hlast : ∀ l : List Int, ∀ h < hashTableSize, (∀ b ∈ l, b ∈ rows h) → l.getLast? ≠ some a :=
      fun l h hh hsub heq => wf.not_mem hfree h hh (hsub a (List.mem_of_getLast? heq))
    rw [MetaShm.next, dropMb_of_ne hao]
    refine (moveMb_next ha ?_ ?_).trans (wf.free a hfree).1
    · exact hlast l₁ ho hho (fun b hb => by simp [hrow, hb])
    · exact hlast k₁ hn hhn (fun b hb => (hk₁ b hb).2)
  · rw [Function.update_self]
    refine List.find?_eq_some_iff_append.mpr ⟨?_, k₁, k₂, rfl, fun a ha => ?_⟩
    · rw [hmoved.path]
      simp [samePath]
    · have hk := (hmem hn hhn a).mp (by simp [ha])
      rcases hk with ⟨ham, _⟩ | ⟨ham, hao, _⟩
      · exact absurd ham (hk₁ a ha).1
      · rw [(hsame a ham hao).path, hfirst a ha]
        rfl

/-- The link that leads to a bucket of a row. -/
theorem linkBehind_eq (l₂ : List Int) (hl : Linked t.next (-1) (t.row h).firstIx (l₁ ++ m :: l₂)) :
    linkBehind t h l₁.getLast? = m := by
  rcases List.eq_nil_or_concat' l₁ with rfl | ⟨l, p, rfl⟩
  · exact hl.1
  · rw [List.append_assoc] at hl
    simpa [linkBehind, MetaShm.next] using Linked.next_eq hl

/-- The table with both rows of a rename locked. -/
def MetaShm.lockBoth (t : MetaShm) (ho hn : Nat) : MetaShm :=
  (t.lockRow ho ⟨0, 1, true⟩).lockRow hn ⟨0, 1, true⟩

theorem lockBoth_setMb {f : MetaBucket → MetaBucket} {a : Int} :
    (t.lockBoth ho hn).setMb a f = (t.setMb a f).lockBoth ho hn := rfl

theorem lockBoth_relink {p : Option Int} {ix : Int} :
    (t.lockBoth ho hn).relink h p ix = (t.relink h p ix).lockBoth ho hn := by
  rw [MetaShm.lockBoth, relink_lockRow, relink_lockRow, MetaShm.lockBoth]

theorem lockRow_lock_of_ne {lk : UrwLock} (hne : ho ≠ hn) :
    ((t.lockRow ho lk).row hn).lock = (t.row hn).lock := by
  simp [MetaShm.lockRow, MetaShm.setRow, hne.symm]

theorem lockBoth_firstIx : ((t.lockBoth ho hn).row h).firstIx = (t.row h).firstIx := by
  rw [MetaShm.lockBoth, lockRow_firstIx, lockRow_firstIx]

/-- The search of `mb_chpath`, with both rows locked. -/
theorem TableWf.getMbAndPrev_lockBoth (wf : TableWf t rows) (hok : hash str = .ok h) :
    getMbAndPrev str (t.lockBoth ho hn) =
      .ok (seek t str none (rows h)) (t.lockBoth ho hn) := by
  rw [getMbAndPrev_eq hok (l := rows h), MetaShm.lockBoth, seek_lockRow, seek_lockRow]
  · rw [lockBoth_firstIx]
    exact wf.linked h (hash_lt hok)
  · exact wf.length_lt (hash_lt hok)

theorem unlockBoth_eq (hne : ho ≠ hn) (hold : RowIdle t ho) (hnew : RowIdle t hn) :
    (do upWrite hn; upWrite ho; return 0 : Op MetaShm Int) (t.lockBoth ho hn) = .ok 0 t := by
  rw [MetaShm.lockBoth, bind_of_ok (upWrite_lockRow ?_), bind_of_ok (upWrite_lockRow hold)]
  · rfl
  · rw [lockRow_lock_of_ne hne]
    exact hnew

/-- `mb_chpath` of a path that is present to a path of another row. -/
theorem TableWf.mbChpath_eq {oldpath : Path} (wf : TableWf t rows)
    (hold : hash oldpath = .ok ho) (hnew : hash newpath = .ok hn) (hne : ho ≠ hn)
    (hidle : RowIdle t ho) (hidle' : RowIdle t hn)
    (hdiff : samePath oldpath newpath = false) (hfind : findPath t oldpath (rows ho) = some m) :
    ∃ t' rows', mbChpath oldpath newpath t = .ok 0 t' ∧
      Renamed t t' rows rows' hn m (findPath t newpath (rows hn)) newpath := by
  have hho := hash_lt hold
  have hhn := hash_lt hnew
  obtain ⟨l₁, l₂, hrow, hres⟩ : ∃ l₁ l₂, rows ho = l₁ ++ m :: l₂ ∧
      seek t oldpath none (rows ho) = (some m, l₁.getLast?) := by
    rcases seek_cases t oldpath (rows ho) with ⟨hnone, _⟩ | ⟨m', l₁, l₂, hrow, _, _, hfind', hres⟩
    · rw [hnone] at hfind
      cases hfind
    · obtain rfl : m' = m := Option.some.inj (hfind'.symm.trans hfind)
      exact ⟨l₁, l₂, hrow, hres⟩
  obtain ⟨k₁, k₂, hrow', hres', hend, hfirst⟩ : ∃ k₁ k₂,
      rows hn = k₁ ++ ((findPath t newpath (rows hn)).toList ++ k₂) ∧
      seek t newpath none (rows hn) = (findPath t newpath (rows hn), k₁.getLast?) ∧
      (findPath t newpath (rows hn) = none → k₂ = []) ∧
      ∀ a ∈ k₁, samePath newpath (t.mb a).path = false := by
    rcases seek_cases t newpath (rows hn) with ⟨hnone, hr⟩ | ⟨m', k₁, k₂, hr, hk₁, _, hf, hs⟩
    · refine ⟨rows hn, [], by simp [hnone], by rw [hr, hnone], fun _ => rfl, ?_⟩
      simpa [findPath] using hnone
    · exact ⟨k₁, k₂, by rw [hf]; simpa using hr, by rw [hs, hf], fun hn => by simp [hf] at hn, hk₁⟩
  have hold_ix : linkBehind (t.lockBoth ho hn) ho l₁.getLast? = m := by
    refine linkBehind_eq l₂ ?_
    rw [lockBoth_firstIx, ← hrow]
    exact wf.linked ho hho
  have hrename := wf.rename newpath hho hhn hrow
    ((Function.update_of_ne hne.symm _ _).trans hrow') hfirst
  refine ⟨_, _, ?_, hrename⟩
  unfold mbChpath
  rw [run_ite, if_neg (by simp [hdiff]), bind_of_ok (hashRow_eq hold), bind_of_ok (hashRow_eq hnew),
    bind_of_ok (downWrite_eq hidle), bind_of_ok (downWrite_eq ?_)]
  · change (getMbAndPrev oldpath >>= _) (t.lockBoth ho hn) = _
    rw [bind_of_ok (wf.getMbAndPrev_lockBoth hold), hres]
    change (getMbAndPrev newpath >>= _) _ = _
    rw [bind_of_ok (wf.getMbAndPrev_lockBoth hnew), hres']
    cases hover : findPath t newpath (rows hn) with
    | none =>
        rw [hover] at hrow' hrename
        dsimp only
        rw [run_get_bind, hold_ix, run_modify_bind, bind_of_ok linkAfter_eq, run_modify_bind,
          bind_of_ok linkAfter_eq, lockBoth_setMb, lockBoth_relink, lockBoth_setMb,
          lockBoth_relink]
        rw [hend hover] at hrename ⊢
        exact unlockBoth_eq hne ((hrename.locks ho).trans hidle) ((hrename.locks hn).trans hidle')
    | some a =>
        rw [hover] at hrow' hrename
        have ha : a ∈ rows hn := by simp [hrow']
        have ham : a ≠ m := by
          rintro rfl
          exact hne (wf.apart ho hho hn hhn a (by simp [hrow]) ha)
        have hal : l₁.getLast? ≠ some a := fun hlast =>
          hne (wf.apart ho hho hn hhn a
            (by rw [hrow]; exact List.mem_append_left _ (List.mem_of_getLast? hlast)) ha)
        have hnext : ((((t.lockBoth ho hn).setMb m
            (fun b => { b with path := newpath.take pathMax })).relink ho l₁.getLast?
            ((t.lockBoth ho hn).mb m).nextIx).mb a).nextIx = k₂.head?.getD (-1) := by
          refine (relink_next_of_ne hal).trans ?_
          rw [MetaShm.next, setMb_mb_of_ne _ ham]
          exact Linked.next_eq (by simpa [hrow'] using wf.linked hn hhn)
        dsimp only
        rw [run_get_bind, hold_ix, run_modify_bind, bind_of_ok linkAfter_eq, run_get_bind,
          hnext, run_modify_bind, bind_of_ok linkAfter_eq, lockBoth_setMb, lockBoth_relink,
          lockBoth_setMb, lockBoth_relink]
        refine (freeMb_eq ?_ (fun b => rfl)).trans ?_
        · change ((t.moveMb ho hn m newpath l₁.getLast? k₁.getLast? (k₂.head?.getD (-1))).mb
            a).lock = false
          rw [(moveMb_same _ _ _ _ _ _ ham).lock]
          exact wf.mbUnlocked a
        · exact unlockBoth_eq hne ((hrename.locks ho).trans hidle) ((hrename.locks hn).trans hidle')
  · rw [RowIdle, lockRow_lock_of_ne hne]
    exact hidle'

end Rename

end Spacefish
