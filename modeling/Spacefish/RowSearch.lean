import Spacefish.TableMove

/-!
The searches of `meta_shm.c` on an arbitrary table, also one whose rows are not
well formed. A search leaves the table alone, and one that returns has found a
bucket with the path exactly if the row holds one.
-/

namespace Spacefish

open Program

variable {t : MetaShm} {h : Nat} {str : Path} {i m : Int}

theorem hashRow_keeps (str : Path) : Keeps (hashRow str : Op MetaShm Nat) := by
  unfold hashRow
  split
  · exact Keeps.pure _
  · exact Keeps.throw _

theorem getMbucketLoop_keeps (str : Path) (fuel : Nat) (ix : Int) :
    Keeps (getMbucketLoop str fuel ix) := by
  induction fuel generalizing ix with
  | zero => exact Keeps.throw _
  | succ fuel ih =>
      refine Keeps.ite (Keeps.pure _) (Keeps.get.bind (fun t => ?_))
      exact Keeps.ite (Keeps.pure _) (ih _)

theorem rowEndLoop_keeps (str : Path) (fuel : Nat) (ix : Int) :
    Keeps (rowEndLoop str fuel ix) := by
  induction fuel generalizing ix with
  | zero => exact Keeps.throw _
  | succ fuel ih =>
      refine Keeps.get.bind (fun t => Keeps.ite ?_ (Keeps.ite (Keeps.pure _) (Keeps.pure _)))
      exact Keeps.ite (Keeps.pure _) (ih _)

theorem getMbAndPrevLoop_keeps (str : Path) (fuel : Nat) (prev ix : Int) :
    Keeps (getMbAndPrevLoop str fuel prev ix) := by
  induction fuel generalizing prev ix with
  | zero => exact Keeps.throw _
  | succ fuel ih =>
      refine Keeps.ite (Keeps.pure _) (Keeps.get.bind (fun t => ?_))
      exact Keeps.ite (Keeps.pure _) (ih _ _)

theorem getMbAndPrev_keeps (str : Path) : Keeps (getMbAndPrev str) := by
  refine (hashRow_keeps str).bind (fun h => Keeps.get.bind (fun t => ?_))
  refine Keeps.ite (Keeps.pure _) (Keeps.ite ?_ ?_)
  · exact Keeps.ite (Keeps.pure _) (Keeps.pure _)
  · exact Keeps.ite (Keeps.pure _) (getMbAndPrevLoop_keeps str _ _ _)

/-- The bucket `m` is met on the way from `i` to the end of a row. -/
inductive OnRow (next : Int → Int) (m : Int) : Int → Prop where
  | here : m ≠ -1 → OnRow next m m
  | next (i : Int) : i ≠ -1 → OnRow next m (next i) → OnRow next m i

theorem OnRow.cases {next : Int → Int} (hon : OnRow next m i) :
    i ≠ -1 ∧ (m = i ∨ OnRow next m (next i)) := by
  cases hon with
  | here hm => exact ⟨hm, Or.inl rfl⟩
  | next i hi hrest => exact ⟨hi, Or.inr hrest⟩

/-- Some bucket on the row of the path carries it. -/
def HasPath (t : MetaShm) (str : Path) : Prop :=
  ∃ h m, hash str = .ok h ∧ OnRow t.next m (t.row h).firstIx ∧ samePath str (t.mb m).path = true

theorem hasPath_lockRow (l : UrwLock) : HasPath (t.lockRow h l) str ↔ HasPath t str := by
  unfold HasPath
  simp only [lockRow_firstIx, lockRow_mb]
  rfl

/-- A search that starts at `i` finds a bucket with the path if there is one. -/
def Searched (t : MetaShm) (str : Path) (i : Int) (r : Option Int) : Prop :=
  match r with
  | some m => OnRow t.next m i ∧ samePath str (t.mb m).path = true
  | none => ∀ m, OnRow t.next m i → samePath str (t.mb m).path = false

theorem Searched.next {r : Option Int} (hi : i ≠ -1) (hsame : samePath str (t.mb i).path = false)
    (hrest : Searched t str (t.next i) r) : Searched t str i r := by
  cases r with
  | some m => exact ⟨.next i hi hrest.1, hrest.2⟩
  | none =>
      intro m hon
      rcases hon.cases.2 with rfl | hon
      · exact hsame
      · exact hrest m hon

theorem Searched.last : Searched t str (-1) none := fun _ hon => absurd rfl hon.cases.1

theorem Searched.found (hi : i ≠ -1) (hsame : samePath str (t.mb i).path = true) :
    Searched t str i (some i) := ⟨.here hi, hsame⟩

theorem getMbAndPrevLoop_seeks (str : Path) (fuel : Nat) (prev : Int) :
    Ends (getMbAndPrevLoop str fuel prev i t) (fun r _ => Searched t str i r.1)
      (fun _ _ => True) := by
  induction fuel generalizing prev i with
  | zero => trivial
  | succ fuel ih =>
      rw [getMbAndPrevLoop, run_ite]
      split
      next hi =>
        subst hi
        exact Searched.last
      next hi =>
        rw [run_get_bind, run_ite]
        split
        next hsame => exact Searched.found hi hsame
        next hsame =>
          refine (ih i).mono ?_ (fun _ _ _ => trivial)
          exact fun r _ hrest => hrest.next hi (by simpa using hsame)

theorem getMbAndPrev_seeks (hok : hash str = .ok h) :
    Ends (getMbAndPrev str t) (fun r _ => Searched t str (t.row h).firstIx r.1)
      (fun _ _ => True) := by
  rw [getMbAndPrev, bind_of_ok (hashRow_eq hok), run_get_bind]
  generalize (t.row h).firstIx = i
  rw [run_ite]
  split
  next hi =>
    subst hi
    exact Searched.last
  next hi =>
    by_cases hsame : samePath str (t.mb i).path = true
    · simp only [if_pos hsame, ite_self]
      exact Searched.found hi hsame
    · simp only [if_neg hsame, run_ite]
      have hnot : samePath str (t.mb i).path = false := by simpa using hsame
      split
      next hnext =>
        have hlast : Searched t str (t.next i) none := by
          rw [MetaShm.next, hnext]
          exact Searched.last
        exact hlast.next hi hnot
      next =>
        refine (getMbAndPrevLoop_seeks str rowFuel i).mono ?_ (fun _ _ _ => trivial)
        exact fun r _ hrest => hrest.next hi hnot

theorem getMbAndPrev_hasPath (str : Path) :
    Ends (getMbAndPrev str t) (fun r _ => r.1.isSome = true ↔ HasPath t str)
      (fun _ _ => True) := by
  cases hok : hash str with
  | error e =>
      rw [getMbAndPrev, hashRow, hok]
      trivial
  | ok h =>
      refine (getMbAndPrev_seeks hok).mono ?_ (fun _ _ _ => trivial)
      rintro ⟨r, prev⟩ t' hseeks
      cases r with
      | some m => exact iff_of_true rfl ⟨h, m, hok, hseeks⟩
      | none =>
          refine iff_of_false (by simp) ?_
          rintro ⟨h', m, hok', hon, hsame⟩
          obtain rfl : h = h' := Except.ok.inj (hok.symm.trans hok')
          rw [hseeks m hon] at hsame
          cases hsame

/-! On a well-formed table. -/

theorem onRow_iff_mem {next : Int → Int} {l : List Int} (hl : LinkedArray.Linked next (-1) i l) :
    OnRow next m i ↔ m ∈ l := by
  induction l generalizing i with
  | nil => exact iff_of_false (fun hon => hon.cases.1 hl) (by simp)
  | cons a l ih =>
      obtain ⟨rfl, hne, htail⟩ := hl
      rw [List.mem_cons, ← ih htail]
      constructor
      · exact fun hon => hon.cases.2
      · rintro (rfl | hon)
        · exact .here hne
        · exact .next i hne hon

theorem TableWf.hasPath_iff {rows : Nat → List Int} (wf : TableWf t rows) (hok : hash str = .ok h) :
    HasPath t str ↔ (findPath t str (rows h)).isSome = true := by
  have hmem : ∀ m, OnRow t.next m (t.row h).firstIx ↔ m ∈ rows h :=
    fun m => onRow_iff_mem (wf.linked h (hash_lt hok))
  rw [findPath, List.find?_isSome]
  constructor
  · rintro ⟨h', m, hok', hon, hsame⟩
    obtain rfl : h = h' := Except.ok.inj (hok.symm.trans hok')
    exact ⟨m, (hmem m).mp hon, hsame⟩
  · rintro ⟨m, hm, hsame⟩
    exact ⟨h, m, hok, (hmem m).mpr hm, hsame⟩

theorem TableWf.not_hasPath_iff {rows : Nat → List Int} (wf : TableWf t rows)
    (hok : hash str = .ok h) : ¬ HasPath t str ↔ findPath t str (rows h) = none := by
  rw [wf.hasPath_iff hok]
  cases findPath t str (rows h) <;> simp

end Spacefish
