import Spacefish.FlushWrite
import Spacefish.RemovedNames

/-!
The `consisent` flag over whole runs. The flag is set when the daemon starts,
cleared by every call that creates, truncates, writes or renames a file, and
never set again; a bucket that is freed keeps its flag for the next file. It says
which files were modified as long as no upload takes a bucket whose flag is
cleared.
-/

namespace Spacefish

open LinkedArray Program

variable {w : World} {rows rows' : Nat → List Int} {env : Env} {call : Call} {out : Out}
  {t' : MetaShm} {s s' : Sys} {e : Event} {es : List Event}

/-- What a call does to the flags: a file that stays is marked when the call
modifies it, and a bucket that is taken is marked when the call creates its file. -/
structure Marks (w : World) (env : Env) (call : Call) (out : Out) (t' : MetaShm) : Prop where
  stays : ∀ a, (w.table.mb a).inUse = true → (t'.mb a).inUse = true →
    ((t'.mb a).consisent = false ↔ (w.table.mb a).consisent = false ∨ Modifies w env call out a)
  created : ∀ a, (w.table.mb a).inUse = false → (t'.mb a).inUse = true →
    Creates env call out → (t'.mb a).consisent = false
  taken : ∀ a, (w.table.mb a).inUse = false → (t'.mb a).inUse = true →
    ¬ Creates env call out → (t'.mb a).consisent = (w.table.mb a).consisent

/-- No bucket is taken. -/
theorem Marks.of_inUse (hin : ∀ a, (t'.mb a).inUse = true → (w.table.mb a).inUse = true)
    (hstays : ∀ a, (w.table.mb a).inUse = true → (t'.mb a).inUse = true →
      ((t'.mb a).consisent = false ↔
        (w.table.mb a).consisent = false ∨ Modifies w env call out a)) :
    Marks w env call out t' := by
  refine ⟨hstays, fun a hfree huse => ?_, fun a hfree huse => ?_⟩
  · rw [hin a huse] at hfree
    cases hfree
  · rw [hin a huse] at hfree
    cases hfree

theorem Made.marks {p q : Path} {h : Nat} {m : Int} {dirty : Bool}
    (hm : Made w.table rows p h m q dirty t') (hdirty : dirty = true ↔ Creates env call out)
    (hmod : ∀ a, (w.table.mb a).inUse = true → ¬ Modifies w env call out a) :
    Marks w env call out t' := by
  obtain ⟨t₁, hc, he⟩ := hm.made
  have hother : ∀ a ≠ m, (t'.mb a).inUse = (w.table.mb a).inUse ∧
      (t'.mb a).consisent = (w.table.mb a).consisent :=
    fun a ha => by rw [he.other a ha, (hc.same a ha).inUse, (hc.same a ha).consisent]; simp
  have hself : ∀ a, (w.table.mb a).inUse = false → (t'.mb a).inUse = true → a = m := by
    intro a hfree huse
    by_contra ha
    rw [(hother a ha).1, hfree] at huse
    cases huse
  have hnew : (t'.mb m).consisent = ((w.table.mb m).consisent && !dirty) := by
    rw [he.consisent, hc.new.consisent]
  refine ⟨fun a huse _ => ?_, fun a hfree huse hcreate => ?_, fun a hfree huse hno => ?_⟩
  · have ha : a ≠ m := by
      rintro rfl
      rw [hc.fresh] at huse
      cases huse
    rw [(hother a ha).2]
    exact (or_iff_left (hmod a huse)).symm
  · rw [hself a hfree huse, hnew, hdirty.mpr hcreate]
    simp
  · have hclean : dirty = false := by
      rw [← Bool.not_eq_true, hdirty]
      exact hno
    rw [hself a hfree huse, hnew, hclean]
    simp

theorem TableEffect.marks (heff : TableEffect w rows env call out t' rows') :
    Marks w env call out t' := by
  cases heff with
  | keep hmod => exact .of_inUse (fun _ h => h) (fun a huse _ => (or_iff_left (hmod a huse)).symm)
  | @touch m dirty _ he hmod =>
      refine .of_inUse (fun a h => he.inUse_eq a ▸ h) (fun a huse _ => ?_)
      rw [hmod a huse]
      by_cases ha : a = m
      · subst ha
        rw [he.consisent]
        cases (w.table.mb a).consisent <;> simp
      · rw [he.other a ha]
        simp [ha]
  | make _ hm _ hdirty hmod => exact hm.marks hdirty hmod
  | @release _ _ _ m _ _ hcall _ _ _ hr =>
      subst hcall
      have hne : ∀ a, (t'.mb a).inUse = true → a ≠ m := by
        rintro a huse rfl
        rw [hr.gone] at huse
        cases huse
      refine .of_inUse (fun a h => (hr.same a (hne a h)).inUse ▸ h) (fun a _ huse => ?_)
      rw [(hr.same a (hne a huse)).consisent]
      exact (or_iff_left id).symm
  | @rename _ _ _ q ho hn m t₁ _ _ _ _ _ _ hokold _ _ hfind hr he hmod =>
      have hgone : ∀ a, (t'.mb a).inUse = true → a ≠ m →
          findPath w.table q (rows hn) ≠ some a := by
        intro a huse ha hlost
        rw [he.other a ha, hr.gone a hlost] at huse
        cases huse
      refine .of_inUse (fun a huse => ?_) (fun a huse huse' => ?_)
      · by_cases ha : a = m
        · subst ha
          rw [he.inUse, hr.moved.inUse] at huse
          exact huse
        · have hsame := (hr.same a ha (hgone a huse ha)).inUse
          rw [he.other a ha, hsame] at huse
          exact huse
      · rw [hmod a huse]
        by_cases ha : a = m
        · subst ha
          rw [he.consisent]
          simp
        · rw [he.other a ha, (hr.same a ha (hgone a huse' ha)).consisent]
          simp [ha]
  | stuck ho hn hmod =>
      exact .of_inUse (fun _ h => h) (fun a huse _ => (or_iff_left (hmod a huse)).symm)

/-- A call takes one bucket at most. -/
theorem TableEffect.taken_unique (heff : TableEffect w rows env call out t' rows') {a b : Int}
    (ha : (w.table.mb a).inUse = false ∧ (t'.mb a).inUse = true)
    (hb : (w.table.mb b).inUse = false ∧ (t'.mb b).inUse = true) : a = b := by
  have hno : (∀ a, (t'.mb a).inUse = true → (w.table.mb a).inUse = true) → a = b := by
    intro hin
    have hfree := ha.1
    rw [hin a ha.2] at hfree
    cases hfree
  cases heff with
  | keep => exact hno (fun _ h => h)
  | touch he => exact hno (fun a h => he.inUse_eq a ▸ h)
  | @make _ _ _ m _ _ _ hm =>
      obtain ⟨t₁, hc, he⟩ := hm.made
      have hself : ∀ a, (w.table.mb a).inUse = false ∧ (t'.mb a).inUse = true → a = m := by
        rintro a ⟨hfree, huse⟩
        by_contra ham
        rw [he.other a ham, (hc.same a ham).inUse, hfree] at huse
        cases huse
      rw [hself a ha, hself b hb]
  | @release _ _ _ m _ _ _ _ _ _ hr =>
      refine hno (fun a h => ?_)
      have ham : a ≠ m := by
        rintro rfl
        rw [hr.gone] at h
        cases h
      exact (hr.same a ham).inUse ▸ h
  | @rename _ _ _ q ho hn m t₁ _ _ _ _ _ _ _ _ _ _ hr he =>
      refine hno (fun a h => ?_)
      rw [he.inUse_eq] at h
      by_cases ham : a = m
      · rw [ham, hr.moved.inUse] at h
        rw [ham]
        exact h
      · have hlost : findPath w.table q (rows hn) ≠ some a := by
          intro hlost
          rw [hr.gone a hlost] at h
          cases h
        exact (hr.same a ham hlost).inUse ▸ h
  | stuck ho hn => exact hno (fun _ h => h)

/-! The files that a run has modified. -/

/-- The state after a list of events. -/
def afterEvents (s : Sys) (es : List Event) : Sys :=
  es.foldl (fun s e => (exec defaultBuild s e).2) s

/-- The call takes bucket `m` for a new file. -/
def Takes (s s' : Sys) (m : Int) : Prop :=
  (s.table.mb m).inUse = false ∧ (s'.table.mb m).inUse = true

/-- The files modified after an event, from those modified before it: a new file
counts as modified when it was created and not uploaded. -/
def ModifiedNext (s : Sys) (e : Event) (mod : Int → Prop) (m : Int) : Prop :=
  (Takes s (exec defaultBuild s e).2 m ∧ Creates e.env e.call (exec defaultBuild s e).1) ∨
    (¬ Takes s (exec defaultBuild s e).2 m ∧
      (mod m ∨ Modifies (s.view e.pid) e.env e.call (exec defaultBuild s e).1 m))

/-- The files created, truncated, written or renamed since they were uploaded. -/
def Modified : Sys → (Int → Prop) → List Event → Int → Prop
  | _, mod, [] => mod
  | s, mod, e :: es => Modified (exec defaultBuild s e).2 (ModifiedNext s e mod) es

/-- The call returns or ends its process, and a bucket that it takes for an upload
(or for a creation that a full store cuts short) has its flag set. -/
def TakesClean (s : Sys) (e : Event) (out : Out) : Prop :=
  ReturnsOrExits out ∧ ∀ m, Takes s (exec defaultBuild s e).2 m → ¬ Creates e.env e.call out →
    (s.table.mb m).consisent = true

/-- The flag of a bucket in use is cleared exactly when its file was modified. -/
def FlagsExact (s : Sys) (mod : Int → Prop) : Prop :=
  (∃ rows, TableWf s.table rows) ∧
    ∀ m, (s.table.mb m).inUse = true → ((s.table.mb m).consisent = false ↔ mod m)

theorem FlagsExact.step {mod : Int → Prop} (hinv : FlagsExact s mod)
    (hallow : TakesClean s e (exec defaultBuild s e).1) :
    FlagsExact (exec defaultBuild s e).2 (ModifiedNext s e mod) := by
  obtain ⟨⟨rows, wf⟩, hflag⟩ := hinv
  obtain ⟨hout, hclean⟩ := hallow
  obtain ⟨rows', heff⟩ := exec_table wf (Prod.eta (exec defaultBuild s e)).symm hout
  have hmarks := heff.marks
  refine ⟨⟨rows', heff.tableWf wf⟩, fun m huse => ?_⟩
  cases hold : (s.table.mb m).inUse with
  | true =>
      have hno : ¬ Takes s (exec defaultBuild s e).2 m := by
        rintro ⟨hfree, _⟩
        rw [hold] at hfree
        cases hfree
      rw [hmarks.stays m hold huse]
      change ((s.table.mb m).consisent = false ∨ _) ↔ _
      rw [hflag m hold]
      simp only [ModifiedNext, hno, false_and, not_false_eq_true, true_and, false_or]
  | false =>
      have htake : Takes s (exec defaultBuild s e).2 m := ⟨hold, huse⟩
      simp only [ModifiedNext, htake, true_and, not_true_eq_false, false_and, or_false]
      by_cases hcreate : Creates e.env e.call (exec defaultBuild s e).1
      · exact iff_of_true (hmarks.created m hold huse hcreate) hcreate
      · refine iff_of_false ?_ hcreate
        rw [hmarks.taken m hold huse hcreate]
        change ¬ (s.table.mb m).consisent = false
        rw [hclean m htake hcreate]
        simp

theorem FlagsExact.after {mod : Int → Prop} (hinv : FlagsExact s mod)
    (hallow : Along defaultBuild TakesClean s es) :
    FlagsExact (afterEvents s es) (Modified s mod es) := by
  induction es generalizing s mod with
  | nil => exact hinv
  | cons e es ih => exact ih (hinv.step hallow.1) hallow.2

theorem initSys_flagsExact : FlagsExact initSys (fun _ => False) :=
  ⟨⟨_, initSys_wf.store.table⟩, fun _ huse => absurd huse Bool.false_ne_true⟩

/-- After a run whose uploads take buckets with the flag set, `flush_write` calls
`write_to_disk` once for each file in use that was modified, and for no other. -/
theorem flush_writes_modified (hallow : Along defaultBuild TakesClean initSys es) (pid : Nat)
    (env : Env)
    (hcover : ∀ m, ((afterEvents initSys es).table.mb m).inUse = true →
      Modified initSys (fun _ => False) es m → ChainCovers ((afterEvents initSys es).view pid) m) :
    ∃ calls, flushWrite env ((afterEvents initSys es).view pid) =
        .ok calls ((afterEvents initSys es).view pid) ∧
      (calls.map Prod.fst).Nodup ∧
      ∀ m, m ∈ calls.map Prod.fst ↔ ((afterEvents initSys es).table.mb m).inUse = true ∧
        Modified initSys (fun _ => False) es m := by
  obtain ⟨⟨rows, wf⟩, hflag⟩ := initSys_flagsExact.after hallow
  generalize afterEvents initSys es = s at hflag hcover wf ⊢
  have hends := flushWrite_ends env (s.view pid)
  cases hrun : flushWrite env (s.view pid) with
  | error u w' =>
      rw [hrun] at hends
      obtain ⟨m, ⟨huse, hdirty⟩, w'', herr⟩ := hends
      obtain ⟨bytes, hok⟩ := writeToDisk_returns env m
        (hcover m huse ((hflag m huse).mp hdirty))
      rw [herr] at hok
      cases hok
  | ok calls w' =>
      rw [hrun] at hends
      obtain ⟨rfl, hnodup, hmem⟩ := hends
      refine ⟨calls, rfl, hnodup, fun m => (hmem m).trans ⟨?_, ?_⟩⟩
      · rintro ⟨_, _, huse, hdirty⟩
        exact ⟨huse, (hflag m huse).mp hdirty⟩
      · rintro ⟨huse, hmod⟩
        obtain ⟨h, hh, hmem⟩ := (wf.inUse_iff m).mp huse
        have hbound := wf.bound h hh m hmem
        exact ⟨hbound.1, hbound.2, huse, (hflag m huse).mpr hmod⟩

/-- One process creates `/a`. -/
def createA : Event := ⟨0, emptyDisk, .open pathA 66 0⟩

theorem flush_writes_modified_created :
    ∃ calls, flushWrite emptyDisk ((afterEvents initSys [createA]).view 0) =
        .ok calls ((afterEvents initSys [createA]).view 0) ∧ (0 : Int) ∈ calls.map Prod.fst := by
  have hret : (exec defaultBuild initSys createA).1.isRet = true := by decide +kernel
  have hout := (Out.isRet_spec hret).1
  have hcreates : Creates emptyDisk (.open pathA 66 0) (exec defaultBuild initSys createA).1 :=
    ⟨rfl, Or.inr rfl, (Out.isRet_spec hret).2 _⟩
  have huse : ((afterEvents initSys [createA]).table.mb 0).inUse = true := by decide +kernel
  have hallow : Along defaultBuild TakesClean initSys [createA] :=
    ⟨⟨hout, fun _ _ hno => absurd hcreates hno⟩, trivial⟩
  obtain ⟨rows, heff⟩ := exec_table (e := createA) initSys_wf.store.table
    (Prod.eta (exec defaultBuild initSys createA)).symm hout
  obtain ⟨calls, hrun, _, hmem⟩ := flush_writes_modified hallow 0 emptyDisk (fun m hm _ => by
    obtain rfl : m = 0 := heff.taken_unique ⟨rfl, hm⟩ ⟨rfl, huse⟩
    decide +kernel)
  exact ⟨calls, hrun, (hmem 0).mpr ⟨huse, Or.inl ⟨⟨rfl, huse⟩, hcreates⟩⟩⟩

/-- A bucket is used for a new file, freed, and taken for a file of the disk. -/
def recycle : List Event :=
  [createA, ⟨0, emptyDisk, .unlink pathA⟩, ⟨0, diskA, .open pathA 0 0⟩]

/-- The file of the disk is written back although it was only uploaded. -/
theorem flush_writes_uploaded : ¬ ∀ es : List Event,
    Along defaultBuild (fun _ _ out => ReturnsOrExits out) initSys es → ∀ (pid : Nat) (env : Env),
    ∃ calls w', flushWrite env ((afterEvents initSys es).view pid) = .ok calls w' ∧
      (calls.map Prod.fst).Nodup ∧
      ∀ m, m ∈ calls.map Prod.fst ↔ ((afterEvents initSys es).table.mb m).inUse = true ∧
        Modified initSys (fun _ => False) es m := by
  intro hall
  have hrets : Along defaultBuild (fun _ _ out => ReturnsOrExits out) initSys recycle :=
    along_of_returns (by decide +kernel) (fun _ _ _ _ hret => (Out.isRet_spec hret).1)
  obtain ⟨calls, w', hrun, _, hmem⟩ := hall recycle hrets 0 emptyDisk
  have hends := flushWrite_ends emptyDisk ((afterEvents initSys recycle).view 0)
  rw [hrun] at hends
  have hdirty : Dirty ((afterEvents initSys recycle).view 0) 0 := ⟨by decide +kernel, by decide +kernel⟩
  have hin : (0 : Int) ∈ calls.map Prod.fst :=
    (hends.2.2 0).mpr ⟨by decide, by decide, hdirty⟩
  rcases ((hmem 0).mp hin).2 with ⟨_, hcreat, _⟩ | ⟨hno, _⟩
  · cases hcreat
  · exact hno ⟨by decide +kernel, by decide +kernel⟩

end Spacefish
