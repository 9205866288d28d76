import Spacefish.TableMap

/-!
The table operations from any well-formed table, also one with rows that a
failed rename left locked: an operation on such a row waits forever, a path
with a byte above 127 ends the process before anything is touched, and
otherwise the operation acts on the rows.
-/

namespace Spacefish

open LinkedArray Program

variable {t t' : MetaShm} {rows : Nat → List Int} {h ho hn : Nat} {str oldpath newpath : Path}

/-- The ways a table operation does not return. -/
def TableStop (t : MetaShm) (e : Halt) (t' : MetaShm) : Prop :=
  e = .hang ∨ (e = .exit .badHashFunctionInput ∧ t' = t)

/-- The ways an operation on the row of `str` does not return: it waits only for a row
that was left locked, and ends the process only when the path has no row. -/
def RowStop (t : MetaShm) (str : Path) (e : Halt) (t' : MetaShm) : Prop :=
  (e = .hang ∧ ∃ h, RowStuck t h) ∨
    (e = .exit .badHashFunctionInput ∧ t' = t ∧ hash str = .error .badHashFunctionInput)

theorem RowStop.tableStop {e : Halt} (hs : RowStop t str e t') : TableStop t e t' :=
  hs.imp And.left (fun hexit => ⟨hexit.1, hexit.2.1⟩)

theorem RowStop.exit {u : UErr} (hs : RowStop t str (.exit u) t') : hash str = .error u := by
  rcases hs with ⟨hhang, _⟩ | ⟨hexit, _, herr⟩
  · cases hhang
  · rw [Halt.exit.inj hexit]
    exact herr

theorem hash_cases (str : Path) :
    (∃ h < hashTableSize, hash str = .ok h) ∨ hash str = .error .badHashFunctionInput := by
  have hfrom : ∀ n, (∃ h, hashFrom n str = .ok h) ∨
      hashFrom n str = .error .badHashFunctionInput := by
    induction str with
    | nil => exact fun n => Or.inl ⟨_, rfl⟩
    | cons c rest ih =>
        intro n
        unfold hashFrom
        split
        · exact ih _
        · exact Or.inr rfl
  rcases hfrom 5381 with ⟨h, hok⟩ | herr
  · exact Or.inl ⟨h, hash_lt hok, hok⟩
  · exact Or.inr herr

theorem hashRow_error {σ α : Type} {s : σ} {k : Nat → Op σ α}
    (herr : hash str = .error .badHashFunctionInput) :
    (hashRow str >>= k) s = .error (.exit .badHashFunctionInput) s := by
  rw [hashRow, herr]
  rfl

theorem getMbucket_ends (wf : TableWf t rows) (str : Path) :
    Ends (getMbucket str t)
      (fun r t' => t' = t ∧ ∃ h, hash str = .ok h ∧ r = findPath t str (rows h))
      (RowStop t str) := by
  rcases hash_cases str with ⟨h, _, hok⟩ | herr
  · rcases wf.rowLock h with hidle | hstuck
    · rw [wf.getMbucket_eq hok hidle]
      exact ⟨rfl, h, hok, rfl⟩
    · rw [getMbucket, bind_of_ok (hashRow_eq hok), bind_of_error (downRead_stuck hstuck)]
      exact Or.inl ⟨rfl, h, hstuck⟩
  · rw [getMbucket, hashRow_error herr]
    exact Or.inr ⟨rfl, rfl, herr⟩

theorem strictCreateMbucket_ends (wf : TableWf t rows) (rand : Nat) (str : Path) :
    Ends (strictCreateMbucket rand str t)
      (fun r t' => ∃ h, hash str = .ok h ∧
        ((r = none ∧ t' = t ∧ ((findPath t str (rows h)).isSome ∨
            ∀ m : Int, 0 ≤ m → m < metaBuckets → (t.mb m).inUse = true)) ∨
          ∃ m, r = some m ∧ findPath t str (rows h) = none ∧ Created t t' rows h m))
      (RowStop t str) := by
  rcases hash_cases str with ⟨h, _, hok⟩ | herr
  · rcases wf.rowLock h with hidle | hstuck
    · rcases wf.strictCreateMbucket_eq rand hok hidle with ⟨hrun, hwhy⟩ | ⟨m, t', hrun, hnone, hc⟩
      · rw [hrun]
        exact ⟨h, hok, Or.inl ⟨rfl, rfl, hwhy⟩⟩
      · rw [hrun]
        exact ⟨h, hok, Or.inr ⟨m, rfl, hnone, hc⟩⟩
    · obtain ⟨t', hhang⟩ := downWrite_stuck hstuck
      rw [strictCreateMbucket, bind_of_ok (hashRow_eq hok), bind_of_error hhang]
      exact Or.inl ⟨rfl, h, hstuck⟩
  · rw [strictCreateMbucket, hashRow_error herr]
    exact Or.inr ⟨rfl, rfl, herr⟩

theorem releaseMetaBucket_ends (wf : TableWf t rows) (str : Path) :
    Ends (releaseMetaBucket str t)
      (fun r t' => ∃ h, hash str = .ok h ∧
        ((r = -1 ∧ t' = t ∧ findPath t str (rows h) = none) ∨
          ∃ m rows', r = 0 ∧ findPath t str (rows h) = some m ∧ Released t t' rows rows' m))
      (RowStop t str) := by
  rcases hash_cases str with ⟨h, _, hok⟩ | herr
  · rcases wf.rowLock h with hidle | hstuck
    · rcases wf.releaseMetaBucket_eq hok hidle with ⟨hnone, hrun⟩ | ⟨m, t', rows', hsome, hrun, hr⟩
      · rw [hrun]
        exact ⟨h, hok, Or.inl ⟨rfl, rfl, hnone⟩⟩
      · rw [hrun]
        exact ⟨h, hok, Or.inr ⟨m, rows', rfl, hsome, hr⟩⟩
    · obtain ⟨t', hhang⟩ := downWrite_stuck hstuck
      rw [releaseMetaBucket, bind_of_ok (hashRow_eq hok), bind_of_error hhang]
      exact Or.inl ⟨rfl, h, hstuck⟩
  · rw [releaseMetaBucket, hashRow_error herr]
    exact Or.inr ⟨rfl, rfl, herr⟩

/-! Rename. -/

/-- Locking rows for good leaves a well-formed table. -/
theorem TableWf.lockBoth (wf : TableWf t rows) (ho hn : Nat) :
    TableWf (t.lockBoth ho hn) rows := by
  refine ⟨wf.toRowsWf.congr (fun h _ => lockBoth_firstIx) (fun _ _ _ _ => rfl), wf.inUse_iff,
    wf.free, ?_, wf.mbUnlocked⟩
  intro h
  have hlock : ∀ t : MetaShm, ∀ k, ((t.lockRow k ⟨0, 1, true⟩).row h).lock =
      if h = k then ⟨0, 1, true⟩ else (t.row h).lock := by
    intro t k
    by_cases hk : h = k
    · subst hk
      simp
    · rw [lockRow_lock_of_ne (fun heq => hk heq.symm), if_neg hk]
  simp only [RowIdle, RowStuck, MetaShm.lockBoth, hlock]
  by_cases h₁ : h = hn
  · simp [h₁]
  · by_cases h₂ : h = ho
    · simp [h₂]
    · simpa [h₁, h₂, RowIdle, RowStuck] using wf.rowLock h

/-- A rename whose old path is absent returns -1 with both rows locked. -/
theorem TableWf.mbChpath_absent (wf : TableWf t rows) (hold : hash oldpath = .ok ho)
    (hnew : hash newpath = .ok hn) (hne : ho ≠ hn) (hidle : RowIdle t ho) (hidle' : RowIdle t hn)
    (hdiff : samePath oldpath newpath = false) (hnone : findPath t oldpath (rows ho) = none) :
    mbChpath oldpath newpath t = .ok (-1) (t.lockBoth ho hn) := by
  unfold mbChpath
  rw [run_ite, if_neg (by simp [hdiff]), bind_of_ok (hashRow_eq hold), bind_of_ok (hashRow_eq hnew),
    bind_of_ok (downWrite_eq hidle), bind_of_ok (downWrite_eq ?_)]
  · change (getMbAndPrev oldpath >>= _) (t.lockBoth ho hn) = _
    rw [bind_of_ok (wf.getMbAndPrev_lockBoth hold), seek_none _ hnone]
    change (getMbAndPrev newpath >>= _) _ = _
    rw [bind_of_ok (wf.getMbAndPrev_lockBoth hnew)]
    rfl
  · rw [RowIdle, lockRow_lock_of_ne hne]
    exact hidle'

/-- A rename within one row waits for the lock it holds itself. -/
theorem mbChpath_sameRow (hold : hash oldpath = .ok h) (hnew : hash newpath = .ok h)
    (hidle : RowIdle t h) (hdiff : samePath oldpath newpath = false) :
    ∃ t', mbChpath oldpath newpath t = .error .hang t' := by
  have hstuck : RowStuck (t.lockRow h ⟨0, 1, true⟩) h := by
    rw [RowStuck, lockRow_lock]
    exact ⟨by decide, rfl⟩
  obtain ⟨t', hhang⟩ := downWrite_stuck hstuck
  refine ⟨t', ?_⟩
  rw [mbChpath, run_ite, if_neg (by simp [hdiff]), bind_of_ok (hashRow_eq hold),
    bind_of_ok (hashRow_eq hnew), bind_of_ok (downWrite_eq hidle), bind_of_error hhang]

theorem mbChpath_ends (wf : TableWf t rows) (oldpath newpath : Path) :
    Ends (mbChpath oldpath newpath t)
      (fun r t' => (r = 0 ∧ t' = t ∧ samePath oldpath newpath = true) ∨
        ∃ ho hn, hash oldpath = .ok ho ∧ hash newpath = .ok hn ∧ ho ≠ hn ∧
          RowIdle t ho ∧ RowIdle t hn ∧
          ((r = -1 ∧ findPath t oldpath (rows ho) = none ∧ t' = t.lockBoth ho hn) ∨
            ∃ m rows', r = 0 ∧ findPath t oldpath (rows ho) = some m ∧
              Renamed t t' rows rows' hn m (findPath t newpath (rows hn)) newpath))
      (TableStop t) := by
  cases hdiff : samePath oldpath newpath with
  | true =>
      rw [mbChpath, run_ite, if_pos hdiff]
      exact Or.inl ⟨rfl, rfl, rfl⟩
  | false =>
      have hne : ¬ samePath oldpath newpath = true := by simp [hdiff]
      rcases hash_cases oldpath with ⟨ho, _, hold⟩ | herr
      · rcases hash_cases newpath with ⟨hn, _, hnew⟩ | herr
        · rcases wf.rowLock ho with hidle | hstuck
          · by_cases hrow : ho = hn
            · subst hrow
              obtain ⟨t', hhang⟩ := mbChpath_sameRow hold hnew hidle hdiff
              rw [hhang]
              exact Or.inl rfl
            · rcases wf.rowLock hn with hidle' | hstuck
              · cases hfind : findPath t oldpath (rows ho) with
                | none =>
                    rw [wf.mbChpath_absent hold hnew hrow hidle hidle' hdiff hfind]
                    exact Or.inr ⟨ho, hn, hold, hnew, hrow, hidle, hidle', Or.inl ⟨rfl, hfind, rfl⟩⟩
                | some m =>
                    obtain ⟨t', rows', hrun, hr⟩ :=
                      wf.mbChpath_eq hold hnew hrow hidle hidle' hdiff hfind
                    rw [hrun]
                    exact Or.inr ⟨ho, hn, hold, hnew, hrow, hidle, hidle',
                      Or.inr ⟨m, rows', rfl, hfind, hr⟩⟩
              · have hstuck' : RowStuck (t.lockRow ho ⟨0, 1, true⟩) hn := by
                  rw [RowStuck, lockRow_lock_of_ne hrow]
                  exact hstuck
                obtain ⟨t', hhang⟩ := downWrite_stuck hstuck'
                rw [mbChpath, run_ite, if_neg hne, bind_of_ok (hashRow_eq hold), bind_of_ok (hashRow_eq hnew),
                  bind_of_ok (downWrite_eq hidle), bind_of_error hhang]
                exact Or.inl rfl
          · obtain ⟨t', hhang⟩ := downWrite_stuck hstuck
            rw [mbChpath, run_ite, if_neg hne, bind_of_ok (hashRow_eq hold), bind_of_ok (hashRow_eq hnew),
              bind_of_error hhang]
            exact Or.inl rfl
        · rw [mbChpath, run_ite, if_neg hne, bind_of_ok (hashRow_eq hold), hashRow_error herr]
          exact Or.inr ⟨rfl, rfl⟩
      · rw [mbChpath, run_ite, if_neg hne, hashRow_error herr]
        exact Or.inr ⟨rfl, rfl⟩

end Spacefish
