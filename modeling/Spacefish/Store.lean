import Spacefish.TableEnds
import Spacefish.ReadWalk

/-!
The store as a whole: the table and the data segment together with the row
lists and, for every meta bucket, the chain of its data buckets. `StoreWf` says
that the chains of the files in use are linked, in use and disjoint and that
the cursors lie on them. The part of it that concerns only the links, `LinkWf`,
survives also the calls that break the byte counts.
-/

namespace Spacefish

open LinkedArray Program

/-- The fields of a meta bucket that the placement of data depends on: all but
the time stamps, the mode, the block counts and the consistency mark. -/
structure FileCore where
  inUse : Bool
  nextIx : Int
  path : Path
  lock : Bool
  first : Nat
  last : Nat
  off : Int
  size : Nat

def MetaBucket.core (b : MetaBucket) : FileCore :=
  { inUse := b.inUse, nextIx := b.nextIx, path := b.path, lock := b.lock
    first := b.firstDbucket, last := b.lastDbucket, off := b.lastDbOffset, size := b.s.stSize }

/-- `t'` is `t` with bucket `m` changed by `f`, up to the fields outside the
core. -/
structure Edited (t t' : MetaShm) (m : Int) (f : FileCore → FileCore) : Prop where
  row : t'.row = t.row
  self : (t'.mb m).core = f (t.mb m).core
  other : ∀ a ≠ m, (t'.mb a).core = (t.mb a).core

/-- The two segments with the lists they are linked through. -/
structure Store where
  table : MetaShm
  data : DataShm
  rows : Nat → List Int
  ch : Int → List Nat

/-- The meta bucket belongs to a file. -/
def Store.Used (s : Store) (m : Int) : Prop := (s.table.mb m).inUse = true

/-- The links of a store: the rows of the table and the chains of the files are
linked through their lists, the chains are disjoint and in use, and the cursor
of a file stands on one of its buckets or nowhere. -/
structure LinkWf (s : Store) : Prop where
  table : TableWf s.table s.rows
  links : LinksOk s.data
  linked : ∀ m, s.Used m → Linked s.data.next noIx (s.table.mb m).firstDbucket (s.ch m)
  owned : ∀ m, s.Used m → ∀ b ∈ s.ch m, s.data.Owned b
  apart : ∀ m m', s.Used m → s.Used m' → ∀ b ∈ s.ch m, b ∈ s.ch m' → m = m'
  onChain : ∀ m, s.Used m →
    (s.table.mb m).lastDbucket = noIx ∨ (s.table.mb m).lastDbucket ∈ s.ch m
  unused : ∀ m, (s.table.mb m).inUse = false → (s.table.mb m).lastDbucket = noIx

/-- The store with its byte counts and cursors in range. -/
structure StoreWf (s : Store) : Prop extends LinkWf s where
  bytes_le : ∀ b, (s.data.bucket b).bytes ≤ dbucketBufSize
  empty : ∀ b, (s.data.bucket b).inUse = false → (s.data.bucket b).bytes = 0
  inBucket : ∀ m, s.Used m → (s.table.mb m).lastDbucket ≠ noIx →
    0 ≤ (s.table.mb m).lastDbOffset ∧
      (s.table.mb m).lastDbOffset ≤ (s.data.bucket (s.table.mb m).lastDbucket).bytes

variable {s : Store} {t t' t₁ : MetaShm} {rows' : Nat → List Int} {m : Int}
  {f g : FileCore → FileCore}

theorem StoreWf.data (wf : StoreWf s) : DataWf s.data := ⟨wf.links, wf.bytes_le, wf.empty⟩

/-! Edits of one bucket. -/

theorem Edited.refl (t : MetaShm) (m : Int) : Edited t t m id := ⟨rfl, rfl, fun _ _ => rfl⟩

theorem Edited.trans (h₁ : Edited t t₁ m f) (h₂ : Edited t₁ t' m g) :
    Edited t t' m (fun c => g (f c)) :=
  ⟨h₂.row.trans h₁.row, h₂.self.trans (congrArg g h₁.self),
    fun a ha => (h₂.other a ha).trans (h₁.other a ha)⟩

theorem Edited.setMb {F : MetaBucket → MetaBucket} (hF : (F (t.mb m)).core = f (t.mb m).core) :
    Edited t (t.setMb m F) m f :=
  ⟨rfl, by rw [setMb_mb_self]; exact hF, fun a ha => by rw [setMb_mb_of_ne _ ha]⟩

/-- An edit that leaves the place of the bucket in the table alone. -/
structure Stays (f : FileCore → FileCore) : Prop where
  inUse : ∀ c, (f c).inUse = c.inUse
  nextIx : ∀ c, (f c).nextIx = c.nextIx
  lock : ∀ c, (f c).lock = c.lock

theorem Edited.inUse (he : Edited t t' m f) (hf : Stays f) (a : Int) :
    (t'.mb a).inUse = (t.mb a).inUse := by
  by_cases ha : a = m
  · subst ha
    have h₁ := congrArg FileCore.inUse he.self
    rw [hf.inUse] at h₁
    exact h₁
  · exact congrArg FileCore.inUse (he.other a ha)

/-- An edit keeps the table well formed when a free bucket keeps its data field. -/
theorem Edited.tableWf_of (he : Edited t t' m f) (hf : Stays f) (wf : TableWf t rows')
    (hkeep : (t.mb m).inUse = false → (f (t.mb m).core).first = (t.mb m).firstDbucket) :
    TableWf t' rows' := by
  have hnext : ∀ a, t'.next a = t.next a := by
    intro a
    by_cases ha : a = m
    · subst ha
      have h₁ := congrArg FileCore.nextIx he.self
      rw [hf.nextIx] at h₁
      exact h₁
    · exact congrArg FileCore.nextIx (he.other a ha)
  refine ⟨wf.toRowsWf.congr (fun h _ => by rw [he.row]) (fun _ _ a _ => hnext a), ?_, ?_, ?_, ?_⟩
  · intro a
    rw [he.inUse hf]
    exact wf.inUse_iff a
  · intro a hfree
    rw [he.inUse hf] at hfree
    refine ⟨(hnext a).trans (wf.free a hfree).1, ?_⟩
    have hfirst : (t'.mb a).firstDbucket = (t.mb a).firstDbucket := by
      by_cases ha : a = m
      · subst ha
        exact (congrArg FileCore.first he.self).trans (hkeep hfree)
      · exact congrArg FileCore.first (he.other a ha)
    exact hfirst.trans (wf.free a hfree).2
  · intro h
    simp only [RowIdle, RowStuck, he.row]
    exact wf.rowLock h
  · intro a
    by_cases ha : a = m
    · subst ha
      have h₁ := congrArg FileCore.lock he.self
      rw [hf.lock] at h₁
      exact h₁.trans (wf.mbUnlocked a)
    · exact (congrArg FileCore.lock (he.other a ha)).trans (wf.mbUnlocked a)

theorem Edited.tableWf (he : Edited t t' m f) (hf : Stays f) (wf : TableWf t rows')
    (huse : (t.mb m).inUse = true) : TableWf t' rows' :=
  he.tableWf_of hf wf (fun hfree => by rw [huse] at hfree; cases hfree)

theorem Edited.first (he : Edited t t' m f)
    (hfirst : (f (t.mb m).core).first = (t.mb m).firstDbucket) (a : Int) :
    (t'.mb a).firstDbucket = (t.mb a).firstDbucket := by
  by_cases ha : a = m
  · subst ha
    exact (congrArg FileCore.first he.self).trans hfirst
  · exact congrArg FileCore.first (he.other a ha)

theorem Edited.last (he : Edited t t' m f) : (t'.mb m).lastDbucket = (f (t.mb m).core).last :=
  congrArg FileCore.last he.self

theorem Edited.off (he : Edited t t' m f) : (t'.mb m).lastDbOffset = (f (t.mb m).core).off :=
  congrArg FileCore.off he.self

theorem Edited.last_of_ne {a : Int} (he : Edited t t' m f) (ha : a ≠ m) :
    (t'.mb a).lastDbucket = (t.mb a).lastDbucket := congrArg FileCore.last (he.other a ha)

theorem Edited.off_of_ne {a : Int} (he : Edited t t' m f) (ha : a ≠ m) :
    (t'.mb a).lastDbOffset = (t.mb a).lastDbOffset := congrArg FileCore.off (he.other a ha)

/-- An edit of a file in use that keeps its chain and leaves the cursor on it. -/
theorem LinkWf.edit (wf : LinkWf s) (huse : s.Used m) (he : Edited s.table t' m f)
    (hf : Stays f) (hfirst : (f (s.table.mb m).core).first = (s.table.mb m).firstDbucket)
    (hlast : (f (s.table.mb m).core).last = noIx ∨ (f (s.table.mb m).core).last ∈ s.ch m) :
    LinkWf { s with table := t' } := by
  have hin := he.inUse hf
  refine ⟨he.tableWf hf wf.table huse, wf.links, ?_, ?_, ?_, ?_, ?_⟩
  · intro a ha
    change Linked s.data.next noIx (t'.mb a).firstDbucket (s.ch a)
    rw [he.first hfirst]
    exact wf.linked a ((hin a).symm.trans ha)
  · exact fun a ha => wf.owned a ((hin a).symm.trans ha)
  · exact fun a a' ha ha' => wf.apart a a' ((hin a).symm.trans ha) ((hin a').symm.trans ha')
  · intro a ha
    change (t'.mb a).lastDbucket = noIx ∨ (t'.mb a).lastDbucket ∈ s.ch a
    by_cases ham : a = m
    · subst ham
      rw [he.last]
      exact hlast
    · rw [he.last_of_ne ham]
      exact wf.onChain a ((hin a).symm.trans ha)
  · intro a ha
    have ha' : (s.table.mb a).inUse = false := (hin a).symm.trans ha
    have ham : a ≠ m := by
      rintro rfl
      rw [show (s.table.mb a).inUse = true from huse] at ha'
      cases ha'
    exact (he.last_of_ne ham).trans (wf.unused a ha')

theorem StoreWf.edit (wf : StoreWf s) (huse : s.Used m) (he : Edited s.table t' m f)
    (hf : Stays f) (hfirst : (f (s.table.mb m).core).first = (s.table.mb m).firstDbucket)
    (hlast : (f (s.table.mb m).core).last = noIx ∨ (f (s.table.mb m).core).last ∈ s.ch m)
    (hoff : (f (s.table.mb m).core).last ≠ noIx → 0 ≤ (f (s.table.mb m).core).off ∧
      (f (s.table.mb m).core).off ≤ (s.data.bucket (f (s.table.mb m).core).last).bytes) :
    StoreWf { s with table := t' } := by
  refine ⟨wf.toLinkWf.edit huse he hf hfirst hlast, wf.bytes_le, wf.empty, ?_⟩
  intro a ha hne
  by_cases ham : a = m
  · subst ham
    dsimp only at hne ⊢
    rw [he.last] at hne ⊢
    rw [he.off]
    exact hoff hne
  · dsimp only at hne ⊢
    rw [he.last_of_ne ham] at hne ⊢
    rw [he.off_of_ne ham]
    exact wf.inBucket a ((he.inUse hf a).symm.trans ha) hne

end Spacefish
