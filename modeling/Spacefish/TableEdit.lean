import Spacefish.TableWf

/-!
The edits of the table. Every change to a row is one store to a link: the one
behind a prefix of the row, or the head of the row when the prefix is empty.
Taking a bucket out of a row and putting one in are such stores, and creation,
release and rename are built from the two.
-/

namespace Spacefish

open LinkedArray Program

variable {t : MetaShm} {rows : Nat → List Int} {h h' fuel : Nat} {str : Path}
  {l l₁ l₂ : List Int} {i m m' : Int} {prev : Option Int} {ix : Int}

/-- The table after the link behind `prev`, or the head of row `h`, was pointed
at `ix`. -/
def MetaShm.relink (t : MetaShm) (h : Nat) (prev : Option Int) (ix : Int) : MetaShm :=
  match prev with
  | none => t.setRow h (fun hi => { hi with firstIx := ix })
  | some p => t.setMb p (fun b => { b with nextIx := ix })

theorem linkAfter_eq : linkAfter h prev ix t = .ok ⟨⟩ (t.relink h prev ix) := by
  cases prev <;> rfl

/-- Two buckets that agree in everything but their link. -/
def SameButLink (b b' : MetaBucket) : Prop := b = { b' with nextIx := b.nextIx }

namespace SameButLink

variable {b b' b'' : MetaBucket}

theorem refl (b : MetaBucket) : SameButLink b b := rfl

theorem trans (h₁ : SameButLink b b') (h₂ : SameButLink b' b'') : SameButLink b b'' := by
  unfold SameButLink at *
  rw [h₂] at h₁
  exact h₁

theorem inUse (hb : SameButLink b b') : b.inUse = b'.inUse := by rw [hb]

theorem path (hb : SameButLink b b') : b.path = b'.path := by rw [hb]

theorem s (hb : SameButLink b b') : b.s = b'.s := by rw [hb]

theorem firstDbucket (hb : SameButLink b b') : b.firstDbucket = b'.firstDbucket := by rw [hb]

theorem lastDbucket (hb : SameButLink b b') : b.lastDbucket = b'.lastDbucket := by rw [hb]

theorem lastDbOffset (hb : SameButLink b b') : b.lastDbOffset = b'.lastDbOffset := by rw [hb]

theorem lock (hb : SameButLink b b') : b.lock = b'.lock := by rw [hb]

theorem consisent (hb : SameButLink b b') : b.consisent = b'.consisent := by rw [hb]

end SameButLink

@[simp] theorem setMb_mb_self (f : MetaBucket → MetaBucket) :
    (t.setMb m f).mb m = f (t.mb m) := by
  simp [MetaShm.setMb]

theorem setMb_mb_of_ne (f : MetaBucket → MetaBucket) (hne : m' ≠ m) :
    (t.setMb m f).mb m' = t.mb m' := by
  simp [MetaShm.setMb, hne]

@[simp] theorem setMb_row (f : MetaBucket → MetaBucket) : (t.setMb m f).row = t.row := rfl

@[simp] theorem setMb_setMb (f g : MetaBucket → MetaBucket) :
    (t.setMb m f).setMb m g = t.setMb m (fun b => g (f b)) := by
  simp [MetaShm.setMb]

theorem relink_same : SameButLink ((t.relink h prev ix).mb m) (t.mb m) := by
  cases prev with
  | none => rfl
  | some p =>
      by_cases heq : m = p
      · subst heq
        simp [MetaShm.relink, SameButLink]
      · simp [MetaShm.relink, SameButLink, setMb_mb_of_ne _ heq]

theorem relink_next_of_ne (hne : prev ≠ some m) : (t.relink h prev ix).next m = t.next m := by
  cases prev with
  | none => rfl
  | some p => simp [MetaShm.next, MetaShm.relink, MetaShm.setMb, show m ≠ p by grind]

@[simp] theorem relink_rowLock : ((t.relink h prev ix).row h').lock = (t.row h').lock := by
  cases prev with
  | none =>
      by_cases heq : h' = h
      · subst heq
        simp [MetaShm.relink, MetaShm.setRow]
      · simp [MetaShm.relink, MetaShm.setRow, heq]
  | some p => rfl

theorem relink_firstIx_of_ne (hne : h' ≠ h) :
    ((t.relink h prev ix).row h').firstIx = (t.row h').firstIx := by
  cases prev with
  | none => simp [MetaShm.relink, MetaShm.setRow, hne]
  | some p => rfl

theorem relink_lockRow {lk : UrwLock} :
    (t.lockRow h' lk).relink h prev ix = (t.relink h prev ix).lockRow h' lk := by
  cases prev with
  | none =>
      simp only [MetaShm.relink, MetaShm.lockRow, MetaShm.setRow]
      congr 1
      funext k
      by_cases h₁ : k = h <;> by_cases h₂ : k = h' <;> by_cases h₃ : h = h' <;>
        simp_all
  | some p => rfl

/-! Rows under a store to one link. -/

/-- The row whose prefix is redirected continues with the list it is pointed at. -/
theorem relink_linked {j : Int} (hseg : Seg t.next (-1) (t.row h).firstIx l₁ j)
    (hnodup : l₁.Nodup) (hl : Linked t.next (-1) ix l) (hdisj : ∀ a ∈ l₁, a ∉ l) :
    Linked (t.relink h l₁.getLast? ix).next (-1) ((t.relink h l₁.getLast? ix).row h).firstIx
      (l₁ ++ l) := by
  rcases List.eq_nil_or_concat' l₁ with rfl | ⟨l', a, rfl⟩
  · have hfirst : ((t.relink h none ix).row h).firstIx = ix := by
      simp [MetaShm.relink, MetaShm.setRow]
    rw [List.getLast?_nil, hfirst]
    exact hl
  · have ha : a ∉ l' := fun hmem => by
      have := List.nodup_append.mp hnodup
      exact this.2.2 a hmem a (by simp) rfl
    have hnext : (t.relink h (l' ++ [a]).getLast? ix).next = Function.update t.next a ix := by
      funext k
      by_cases hk : k = a
      · subst hk
        simp [MetaShm.relink, MetaShm.next]
      · simp [MetaShm.relink, MetaShm.next, setMb_mb_of_ne _ hk, hk]
    rw [hnext]
    have hrow : (t.relink h (l' ++ [a]).getLast? ix).row = t.row := by
      simp [MetaShm.relink]
    rw [hrow]
    exact hseg.splice ha hl (hdisj a (by simp))

/-- A list that avoids the redirected prefix stays linked. -/
theorem relink_linked_of_ne {l' : List Int} (hl : Linked t.next (-1) i l)
    (hdisj : ∀ a ∈ l', a ∉ l) : Linked (t.relink h l'.getLast? ix).next (-1) i l := by
  refine hl.congr (fun b hb => relink_next_of_ne ?_)
  intro hlast
  exact hdisj b (List.mem_of_getLast? hlast) hb

theorem RowsWf.relink_other (wf : RowsWf t rows) (hh : h < hashTableSize)
    (hh' : h' < hashTableSize) (hne : h' ≠ h) (hsub : ∀ a ∈ l₁, a ∈ rows h) :
    Linked (t.relink h l₁.getLast? ix).next (-1)
      ((t.relink h l₁.getLast? ix).row h').firstIx (rows h') := by
  rw [relink_firstIx_of_ne hne]
  refine relink_linked_of_ne (wf.linked h' hh') ?_
  intro a ha hmem
  exact hne (wf.apart h' hh' h hh a hmem (hsub a ha))

/-- Taking a bucket out of its row. -/
theorem RowsWf.remove (wf : RowsWf t rows) (hh : h < hashTableSize)
    (hrow : rows h = l₁ ++ m :: l₂) :
    RowsWf (t.relink h l₁.getLast? (t.next m)) (Function.update rows h (l₁ ++ l₂)) := by
  have hlinked := wf.linked h hh
  rw [hrow] at hlinked
  have hnodup := Linked.nodup hlinked
  have hsub : ∀ h', ∀ a ∈ Function.update rows h (l₁ ++ l₂) h', a ∈ rows h' := by
    intro h' a ha
    by_cases heq : h' = h
    · subst heq
      rw [Function.update_self] at ha
      rw [hrow]
      grind
    · rwa [Function.update_of_ne heq] at ha
  obtain ⟨j, hpre, hpost⟩ := seg_append.mp hlinked
  constructor
  · intro h' hh'
    by_cases heq : h' = h
    · subst heq
      rw [Function.update_self]
      refine relink_linked hpre (hnodup.sublist (by simp)) hpost.2.2 ?_
      intro a ha hmem
      exact (List.nodup_append.mp hnodup).2.2 a ha a (by simp [hmem]) rfl
    · rw [Function.update_of_ne heq]
      exact wf.relink_other hh hh' heq (fun a ha => by rw [hrow]; simp [ha])
  · exact fun h' hh' a ha => wf.bound h' hh' a (hsub h' a ha)
  · exact fun h' hh' h'' hh'' a ha ha' => wf.apart h' hh' h'' hh'' a (hsub h' a ha) (hsub h'' a ha')

/-- Putting a bucket that is on no row in place of a part of a row, when its link
already points at what follows that part. -/
theorem RowsWf.insert (l₁ l l₂ : List Int) (wf : RowsWf t rows) (hh : h < hashTableSize)
    (hrow : rows h = l₁ ++ (l ++ l₂)) (hm : ∀ h' < hashTableSize, m ∉ rows h')
    (hbound : 0 ≤ m ∧ m < metaBuckets) (hnext : t.next m = l₂.head?.getD (-1)) :
    RowsWf (t.relink h l₁.getLast? m) (Function.update rows h (l₁ ++ m :: l₂)) := by
  have hlinked := wf.linked h hh
  rw [hrow] at hlinked
  have hnodup := Linked.nodup hlinked
  have hmrow : m ∉ l₁ ++ (l ++ l₂) := hrow ▸ hm h hh
  have hsub : ∀ h' < hashTableSize, ∀ a ∈ Function.update rows h (l₁ ++ m :: l₂) h',
      (a = m ∧ h' = h) ∨ (a ≠ m ∧ a ∈ rows h') := by
    intro h' hh' a ha
    by_cases heq : h' = h
    · subst heq
      rw [Function.update_self] at ha
      rw [hrow]
      grind
    · rw [Function.update_of_ne heq] at ha
      exact Or.inr ⟨fun hne => hm h' hh' (hne ▸ ha), ha⟩
  obtain ⟨j, hpre, hrest⟩ := seg_append.mp hlinked
  obtain ⟨_, _, hpost⟩ := seg_append.mp hrest
  constructor
  · intro h' hh'
    by_cases heq : h' = h
    · subst heq
      rw [Function.update_self]
      refine relink_linked hpre (hnodup.sublist (by simp)) ⟨rfl, by omega, ?_⟩ ?_
      · rw [hnext, ← Linked.head_eq hpost]
        exact hpost
      · intro a ha hmem
        rcases List.mem_cons.mp hmem with rfl | hmem
        · exact hmrow (by simp [ha])
        · exact (List.nodup_append.mp hnodup).2.2 a ha a (by simp [hmem]) rfl
    · rw [Function.update_of_ne heq]
      exact wf.relink_other hh hh' heq (fun a ha => by rw [hrow]; simp [ha])
  · intro h' hh' a ha
    rcases hsub h' hh' a ha with ⟨rfl, _⟩ | ⟨_, ha⟩
    · exact hbound
    · exact wf.bound h' hh' a ha
  · intro h' hh' h'' hh'' a ha ha'
    rcases hsub h' hh' a ha with ⟨h₁, h₂⟩ | ⟨h₁, h₂⟩ <;>
      rcases hsub h'' hh'' a ha' with ⟨h₃, h₄⟩ | ⟨h₃, h₄⟩
    · omega
    · exact absurd h₁ h₃
    · exact absurd h₃ h₁
    · exact wf.apart h' hh' h'' hh'' a h₂ h₄

/-- Rows survive every change that keeps their heads and their links. -/
theorem RowsWf.congr {t' : MetaShm} (wf : RowsWf t rows)
    (hrow : ∀ h < hashTableSize, (t'.row h).firstIx = (t.row h).firstIx)
    (hnext : ∀ h < hashTableSize, ∀ m ∈ rows h, t'.next m = t.next m) : RowsWf t' rows := by
  refine ⟨fun h hh => ?_, wf.bound, wf.apart⟩
  rw [hrow h hh]
  exact (wf.linked h hh).congr (hnext h hh)

theorem RowsWf.setMb_off (wf : RowsWf t rows) (f : MetaBucket → MetaBucket)
    (hm : ∀ h < hashTableSize, m ∉ rows h) : RowsWf (t.setMb m f) rows := by
  refine wf.congr (fun _ _ => rfl) (fun h hh m' hm' => ?_)
  have hne : m' ≠ m := fun heq => hm h hh (heq ▸ hm')
  simp [MetaShm.next, setMb_mb_of_ne f hne]

end Spacefish
