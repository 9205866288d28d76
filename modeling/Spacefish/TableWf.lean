import Mathlib.Data.Finset.Card
import Mathlib.Order.Interval.Finset.Nat
import Spacefish.Table
import Spacefish.Lib.LinkedArray

/-!
Well-formed tables. The rows are given as lists of bucket indices; a table is
well formed with respect to them when each row of the table is linked through
exactly its list, the lists are disjoint and hold the buckets in use, and all
locks are free. Every operation of the table then acts on the lists: lookup is
a search in one of them, creation appends to one, release erases from one, and
a rename moves an entry.
-/

namespace Spacefish

open LinkedArray Program

def MetaShm.next (t : MetaShm) (m : Int) : Int := (t.mb m).nextIx

/-- Each row is linked through its list, and the lists are disjoint. -/
structure RowsWf (t : MetaShm) (rows : Nat → List Int) : Prop where
  linked : ∀ h < hashTableSize, Linked t.next (-1) (t.row h).firstIx (rows h)
  bound : ∀ h < hashTableSize, ∀ m ∈ rows h, 0 ≤ m ∧ m < metaBuckets
  apart : ∀ h < hashTableSize, ∀ h' < hashTableSize, ∀ m ∈ rows h, m ∈ rows h' → h = h'

/-- Nobody holds the lock of the row. -/
def RowIdle (t : MetaShm) (h : Nat) : Prop := (t.row h).lock = initUrwLock

/-- A writer left the row without unlocking it: every later user waits. -/
def RowStuck (t : MetaShm) (h : Nat) : Prop :=
  0 < (t.row h).lock.numWriters ∧ (t.row h).lock.realLock = true

structure TableWf (t : MetaShm) (rows : Nat → List Int) : Prop extends RowsWf t rows where
  inUse_iff : ∀ m, (t.mb m).inUse = true ↔ ∃ h < hashTableSize, m ∈ rows h
  free : ∀ m, (t.mb m).inUse = false → t.next m = -1 ∧ (t.mb m).firstDbucket = noIx
  rowLock : ∀ h, RowIdle t h ∨ RowStuck t h
  mbUnlocked : ∀ m, (t.mb m).lock = false

variable {t : MetaShm} {rows : Nat → List Int} {h fuel : Nat} {str : Path} {l : List Int}
  {i : Int}

theorem length_le_of_bound (hnodup : l.Nodup) (hbound : ∀ m ∈ l, 0 ≤ m ∧ m < metaBuckets) :
    l.length ≤ metaBuckets := by
  have hmap : (l.map Int.toNat).Nodup := by
    refine List.Nodup.map_on ?_ hnodup
    intro a ha b hb hab
    have := hbound a ha
    have := hbound b hb
    omega
  have hsub : (l.map Int.toNat).toFinset ⊆ Finset.range metaBuckets := by
    intro n hn
    obtain ⟨m, hm, rfl⟩ := List.mem_map.mp (List.mem_toFinset.mp hn)
    have := hbound m hm
    exact Finset.mem_range.mpr (by omega)
  have hcard := Finset.card_le_card hsub
  rw [List.toFinset_card_of_nodup hmap, Finset.card_range, List.length_map] at hcard
  exact hcard

theorem RowsWf.length_lt (wf : RowsWf t rows) (hh : h < hashTableSize) :
    (rows h).length < rowFuel :=
  Nat.lt_succ_of_le (length_le_of_bound (wf.linked h hh).nodup (wf.bound h hh))

/-! The hash. -/

theorem hashFrom_lt {n : Nat} (hok : hashFrom n str = .ok h) : h < hashTableSize := by
  induction str generalizing n with
  | nil =>
      obtain rfl : n % hashTableSize = h := by simpa [hashFrom] using hok
      exact Nat.mod_lt _ (by decide)
  | cons c rest ih =>
      unfold hashFrom at hok
      split at hok
      · exact ih hok
      · cases hok

theorem hash_lt (hok : hash str = .ok h) : h < hashTableSize := hashFrom_lt hok

theorem hashRow_eq {σ : Type} {s : σ} (hok : hash str = .ok h) :
    (hashRow str : Op σ Nat) s = .ok h s := by
  simp [hashRow, hok]

/-! Row locks that are free. -/

def MetaShm.lockRow (t : MetaShm) (h : Nat) (l : UrwLock) : MetaShm :=
  t.setRow h (fun hi => { hi with lock := l })

@[simp] theorem lockRow_mb (l : UrwLock) : (t.lockRow h l).mb = t.mb := rfl

@[simp] theorem lockRow_firstIx (l : UrwLock) (h' : Nat) :
    ((t.lockRow h l).row h').firstIx = (t.row h').firstIx := by
  unfold MetaShm.lockRow MetaShm.setRow
  by_cases heq : h' = h
  · subst heq; simp
  · simp [heq]

@[simp] theorem lockRow_lock (l : UrwLock) : ((t.lockRow h l).row h).lock = l := by
  simp [MetaShm.lockRow, MetaShm.setRow]

@[simp] theorem lockRow_lockRow (l l' : UrwLock) :
    (t.lockRow h l).lockRow h l' = t.lockRow h l' := by
  simp [MetaShm.lockRow, MetaShm.setRow]

theorem lockRow_self {l : UrwLock} (hl : (t.row h).lock = l) : t.lockRow h l = t := by
  subst hl
  simp [MetaShm.lockRow, MetaShm.setRow]

theorem downRead_eq (hl : RowIdle t h) :
    downRead h t = .ok ⟨⟩ (t.lockRow h ⟨1, 0, false⟩) := by
  have hl : (t.row h).lock = initUrwLock := hl
  simp [downRead, onRowLock, zoom, lockRw, hl, initUrwLock, MetaShm.lockRow]

theorem upRead_eq (hl : (t.row h).lock = ⟨1, 0, false⟩) :
    upRead h t = .ok ⟨⟩ (t.lockRow h initUrwLock) := by
  simp [upRead, onRowLock, zoom, unlockRw, hl, initUrwLock, MetaShm.lockRow]

theorem downWrite_eq (hl : RowIdle t h) :
    downWrite h t = .ok ⟨⟩ (t.lockRow h ⟨0, 1, true⟩) := by
  have hl : (t.row h).lock = initUrwLock := hl
  simp [downWrite, onRowLock, zoom, lockRw, hl, initUrwLock, MetaShm.lockRow]

theorem downRead_stuck (hl : RowStuck t h) : downRead h t = .error .hang t := by
  have hne : (t.row h).lock.numWriters ≠ 0 := by
    have := hl.1
    omega
  rw [downRead, onRowLock, zoom, lockRw, if_neg (by decide), if_pos rfl, run_get_bind, run_ite,
    if_pos hne]
  exact congrArg _ (lockRow_self rfl)

theorem downWrite_stuck (hl : RowStuck t h) : ∃ t', downWrite h t = .error .hang t' := by
  have hreal := hl.2
  by_cases hr : (t.row h).lock.numReaders = 0
  · simp [downWrite, onRowLock, zoom, lockRw, hr, hreal]
  · simp [downWrite, onRowLock, zoom, lockRw, hr]

theorem upWrite_eq (hl : (t.row h).lock = ⟨0, 1, true⟩) :
    upWrite h t = .ok ⟨⟩ (t.lockRow h initUrwLock) := by
  simp [upWrite, onRowLock, zoom, unlockRw, hl, initUrwLock, MetaShm.lockRow]

/-! Lookup. -/

/-- The first bucket of a row list that carries the path. -/
def findPath (t : MetaShm) (str : Path) (l : List Int) : Option Int :=
  l.find? (fun m => samePath str (t.mb m).path)

theorem getMbucketLoop_eq (hl : Linked t.next (-1) i l) (hf : l.length < fuel) :
    getMbucketLoop str fuel i t = .ok (findPath t str l) t := by
  induction l generalizing i fuel with
  | nil =>
      obtain rfl : i = -1 := hl
      obtain ⟨fuel, rfl⟩ : ∃ n, fuel = n + 1 := ⟨fuel - 1, by simp at hf; omega⟩
      simp [getMbucketLoop, findPath]
  | cons m l ih =>
      obtain ⟨rfl, hm, htail⟩ := hl
      obtain ⟨fuel, rfl⟩ : ∃ n, fuel = n + 1 := ⟨fuel - 1, by simp at hf; omega⟩
      have hf' : l.length < fuel := by simpa using hf
      have htail' := ih htail hf'
      by_cases hsame : samePath str (t.mb i).path
      · simp [getMbucketLoop, findPath, hm, hsame]
      · simpa [getMbucketLoop, findPath, hm, hsame, MetaShm.next] using htail'

/-- `get_mbucket` searches its row and leaves the table as it was. -/
theorem TableWf.getMbucket_eq (wf : TableWf t rows) (hok : hash str = .ok h)
    (hidle : RowIdle t h) :
    getMbucket str t = .ok (findPath t str (rows h)) t := by
  have hh := hash_lt hok
  unfold getMbucket
  rw [bind_of_ok (hashRow_eq hok), bind_of_ok (downRead_eq hidle), run_get_bind]
  have hloop : getMbucketLoop str rowFuel (t.row h).firstIx (t.lockRow h ⟨1, 0, false⟩) =
      .ok (findPath t str (rows h)) (t.lockRow h ⟨1, 0, false⟩) :=
    getMbucketLoop_eq (t := t.lockRow h ⟨1, 0, false⟩) (wf.linked h hh) (wf.length_lt hh)
  rw [lockRow_firstIx, bind_of_ok hloop, bind_of_ok (upRead_eq (lockRow_lock _))]
  simp [lockRow_self hidle]

end Spacefish
