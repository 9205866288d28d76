import Spacefish.TableMap

/-!
Runs of the table operations, one at a time, from the table of `init_mount`.
In every table they reach, the rows are well formed and each operation does to
the map what its specification says and nothing more.
-/

namespace Spacefish

open LinkedArray Program

variable {t t' : MetaShm} {rows rows' : Nat → List Int} {h : Nat} {p old new : Path} {m : Int}

def GetSpec (t : MetaShm) (p : Path) : Prop := getMbucket p t = .ok (pathMap t p) t

def CreateSpec (t : MetaShm) (rand : Nat) (p : Path) : Prop :=
  ∃ r t', createMbucket rand p t = .ok r t' ∧
    (r = none ↔ pathMap t p ≠ none ∨ TableFull t) ∧
    (r = none → t' = t) ∧
    ∀ m, r = some m →
      (t.mb m).inUse = false ∧
      pathMap t' = Function.update (pathMap t) p (some m) ∧
      SameButLink (t'.mb m) { t.mb m with inUse := true, path := p } ∧
      ∀ a ≠ m, SameButLink (t'.mb a) (t.mb a)

def ReleaseSpec (t : MetaShm) (p : Path) : Prop :=
  ∃ r t', releaseMetaBucket p t = .ok r t' ∧
    (r = -1 ↔ pathMap t p = none) ∧
    (r = -1 → t' = t) ∧
    ∀ m, pathMap t p = some m →
      r = 0 ∧
      pathMap t' = Function.update (pathMap t) p none ∧
      t'.mb m = (t.mb m).released ∧
      ∀ a ≠ m, SameButLink (t'.mb a) (t.mb a)

def ChpathSpec (t : MetaShm) (old new : Path) (m : Int) : Prop :=
  ∃ t', mbChpath old new t = .ok 0 t' ∧
    pathMap t' = Function.update (Function.update (pathMap t) old none) new (some m) ∧
    SameButLink (t'.mb m) { t.mb m with path := new } ∧
    (∀ a, pathMap t new = some a → t'.mb a = (t.mb a).released) ∧
    ∀ a ≠ m, pathMap t new ≠ some a → SameButLink (t'.mb a) (t.mb a)

/-- One operation on the table, as the callers may issue it. -/
inductive TableStep : MetaShm → MetaShm → Prop where
  | get {t t' p r} (hp : GoodPath p) (hrun : getMbucket p t = .ok r t') : TableStep t t'
  | create {t t' rand p r} (hp : GoodPath p) (hrun : createMbucket rand p t = .ok r t') :
      TableStep t t'
  | release {t t' p r} (hp : GoodPath p) (hrun : releaseMetaBucket p t = .ok r t') :
      TableStep t t'
  | chpath {t t' old new r} (hold : GoodPath old) (hnew : GoodPath new)
      (hin : pathMap t old ≠ none) (hrows : hash old ≠ hash new)
      (hrun : mbChpath old new t = .ok r t') : TableStep t t'

/-- A table with all rows unlocked whose rows represent a map. -/
structure MapWf (t : MetaShm) (rows : Nat → List Int) : Prop where
  wf : TableWf t rows
  named : Named t rows
  idle : ∀ h, RowIdle t h

/-! The map after each operation. -/

theorem pathMap_congr (hwf : TableWf t rows) (hnamed : Named t rows) {q : Path} {r : Option Int}
    (hiff : ∀ a, r = some a ↔ (t.mb a).inUse = true ∧ (t.mb a).path = q) : pathMap t q = r := by
  apply Option.ext
  intro a
  rw [pathMap_iff hwf hnamed, hiff]

theorem createMbucket_spec (hmap : MapWf t rows) (hp : GoodPath p)
    (rand : Nat) :
    CreateSpec t rand p ∧ ∀ r t', createMbucket rand p t = .ok r t' →
      ∃ rows', MapWf t' rows' := by
  obtain ⟨wf, named, idle⟩ := hmap
  obtain ⟨h, hok⟩ := hash_ok hp
  have hfind := findPath_eq_pathMap wf named hok hp.1
  rcases wf.strictCreateMbucket_eq rand hok (idle h) with ⟨hrun, hwhy⟩ | ⟨m, t', hrun, hnone, hc⟩
  · have hcreate : createMbucket rand p t = .ok none t := by
      rw [createMbucket, bind_of_ok hrun]
      rfl
    refine ⟨⟨none, t, hcreate, ?_, fun _ => rfl, fun m hm => by cases hm⟩, ?_⟩
    · rw [hfind, Option.isSome_iff_ne_none] at hwhy
      exact ⟨fun _ => hwhy, fun _ => rfl⟩
    · intro r t' hrun'
      rw [hcreate] at hrun'
      cases hrun'
      exact ⟨rows, wf, named, idle⟩
  · have hcreate : createMbucket rand p t =
        .ok (some m) (t'.setMb m (fun b => { b with path := p })) := by
      rw [createMbucket, bind_of_ok hrun]
      simp only [inPathBuffer, if_pos hp.1, run_pure_bind, run_modify_bind, run_pure]
    have habsent : ∀ a, (t.mb a).inUse = true → (t.mb a).path ≠ p := by
      intro a ha hpath
      rw [hfind, (pathMap_iff wf named).mpr ⟨ha, hpath⟩] at hnone
      cases hnone
    obtain ⟨wf', named'⟩ := hc.named wf named hok hp.1 habsent
    refine ⟨⟨some m, _, hcreate, ?_, fun hr => (by cases hr), ?_⟩, ?_⟩
    · refine ⟨fun hr => (by cases hr), ?_⟩
      rintro (hin | hfull)
      · exact absurd (hfind ▸ hnone) hin
      · have := hfull m hc.bound.1 hc.bound.2
        rw [hc.fresh] at this
        cases this
    · intro m' hm'
      obtain rfl : m = m' := Option.some.inj hm'
      refine ⟨hc.fresh, ?_, ?_, fun a ha => ?_⟩
      · funext q
        refine pathMap_congr wf' named' (fun a => ?_)
        by_cases ham : a = m
        · subst ham
          have hold : pathMap t q ≠ some a := fun hq => by
            have := ((pathMap_iff wf named).mp hq).1
            rw [hc.fresh] at this
            cases this
          by_cases hq : q = p
          · subst hq
            simp [hc.new.inUse]
          · simp [hq, hold, Ne.symm hq]
        · rw [setMb_mb_of_ne _ ham, (hc.same a ham).inUse, (hc.same a ham).path,
            ← pathMap_iff wf named]
          by_cases hq : q = p
          · subst hq
            rw [← hfind, hnone]
            simp [Ne.symm ham]
          · rw [Function.update_of_ne hq]
      · rw [setMb_mb_self]
        have hs := hc.new
        unfold SameButLink at hs ⊢
        rw [hs]
      · rw [setMb_mb_of_ne _ ha]
        exact hc.same a ha
    · intro r t'' hrun'
      rw [hcreate] at hrun'
      cases hrun'
      exact ⟨_, wf', named', fun h' => (hc.locks h').trans (idle h')⟩

theorem releaseMetaBucket_spec (hmap : MapWf t rows) (hp : GoodPath p) :
    ReleaseSpec t p ∧ ∀ r t', releaseMetaBucket p t = .ok r t' →
      ∃ rows', MapWf t' rows' := by
  obtain ⟨wf, named, idle⟩ := hmap
  obtain ⟨h, hok⟩ := hash_ok hp
  have hfind := findPath_eq_pathMap wf named hok hp.1
  rcases wf.releaseMetaBucket_eq hok (idle h) with ⟨hnone, hrun⟩ | ⟨m, t', rows', hsome, hrun, hr⟩
  · rw [hfind] at hnone
    refine ⟨⟨-1, t, hrun, by simp [hnone], fun _ => rfl, fun m hm => ?_⟩, ?_⟩
    · rw [hnone] at hm
      cases hm
    · intro r t' hrun'
      rw [hrun] at hrun'
      cases hrun'
      exact ⟨rows, wf, named, idle⟩
  · rw [hfind] at hsome
    have hm := (pathMap_iff wf named).mp hsome
    have hgone : (t'.mb m).inUse = false := by
      rw [hr.gone]
      rfl
    have named' := hr.named named
    refine ⟨⟨0, t', hrun, by simp [hsome], fun hr => (by cases hr), ?_⟩, ?_⟩
    · intro m' hm'
      obtain rfl : m = m' := Option.some.inj (hsome.symm.trans hm')
      refine ⟨rfl, ?_, hr.gone, hr.same⟩
      funext q
      refine pathMap_congr hr.wf named' (fun a => ?_)
      by_cases ham : a = m
      · subst ham
        rw [hgone]
        by_cases hq : q = p
        · simp [hq]
        · have hold : pathMap t q ≠ some a := fun hq' =>
            hq (((pathMap_iff wf named).mp hq').2.symm.trans hm.2)
          simp [hq, hold]
      · rw [(hr.same a ham).inUse, (hr.same a ham).path, ← pathMap_iff wf named]
        by_cases hq : q = p
        · subst hq
          simp [hsome, Ne.symm ham]
        · rw [Function.update_of_ne hq]
    · intro r t'' hrun'
      rw [hrun] at hrun'
      cases hrun'
      exact ⟨rows', hr.wf, named', fun h' => (hr.locks h').trans (idle h')⟩

/-- A rename keeps the paths in order and moves one name of the map. -/
theorem Renamed.named_pathMap {hn : Nat} (hr : Renamed t t' rows rows' hn m (pathMap t new) new)
    (wf : TableWf t rows) (named : Named t rows) (hhn : hash new = .ok hn)
    (hshort : new.length < pathMax) (hin : pathMap t old = some m) :
    Named t' rows' ∧
      pathMap t' = Function.update (Function.update (pathMap t) old none) new (some m) := by
  have hm := (pathMap_iff wf named).mp hin
  have named' := hr.named named hhn hshort
    (fun a ha hpath => (pathMap_iff wf named).mpr ⟨ha, hpath⟩)
  have hpath : (t'.mb m).path = new := by
    rw [hr.moved.path]
    exact List.take_of_length_le (Nat.le_of_lt hshort)
  refine ⟨named', ?_⟩
  funext q
  refine pathMap_congr hr.wf named' (fun a => ?_)
  by_cases ham : a = m
  · subst ham
    rw [hr.moved.inUse, hpath]
    by_cases hq : q = new
    · subst hq
      simp [hm.1]
    · rw [Function.update_of_ne hq]
      by_cases hq' : q = old
      · subst hq'
        simp [Ne.symm hq]
      · have hq'' : pathMap t q ≠ some a := fun h =>
          hq' (((pathMap_iff wf named).mp h).2.symm.trans hm.2)
        simp [hq', hq'', Ne.symm hq]
  · by_cases hao : pathMap t new = some a
    · rw [hr.gone a hao]
      have hpa := ((pathMap_iff wf named).mp hao).2
      by_cases hq : q = new
      · subst hq
        simp [MetaBucket.released, Ne.symm ham]
      · have hq'' : pathMap t q ≠ some a := fun h =>
          hq (((pathMap_iff wf named).mp h).2.symm.trans hpa)
        rw [Function.update_of_ne hq]
        by_cases hq' : q = old
        · simp [hq', MetaBucket.released]
        · simp [hq', hq'', MetaBucket.released]
    · have hs := hr.same a ham hao
      rw [hs.inUse, hs.path, ← pathMap_iff wf named]
      by_cases hq : q = new
      · subst hq
        simp [hao, Ne.symm ham]
      · rw [Function.update_of_ne hq]
        by_cases hq' : q = old
        · subst hq'
          simp [hin, Ne.symm ham]
        · rw [Function.update_of_ne hq']

theorem mbChpath_spec (hmap : MapWf t rows) (hold : GoodPath old)
    (hnew : GoodPath new) (hin : pathMap t old = some m) (hrows : hash old ≠ hash new) :
    ChpathSpec t old new m ∧ ∀ r t', mbChpath old new t = .ok r t' →
      ∃ rows', MapWf t' rows' := by
  obtain ⟨wf, named, idle⟩ := hmap
  obtain ⟨ho, hho⟩ := hash_ok hold
  obtain ⟨hn, hhn⟩ := hash_ok hnew
  have hne : ho ≠ hn := by
    rintro rfl
    exact hrows (hho.trans hhn.symm)
  have hdiff : samePath old new = false := by
    rw [Bool.eq_false_iff, ne_eq, samePath_iff hold.1 hnew.1]
    rintro rfl
    exact hrows rfl
  have hfind := findPath_eq_pathMap wf named hho hold.1
  have hfind' := findPath_eq_pathMap wf named hhn hnew.1
  obtain ⟨t', rows', hrun, hr⟩ := wf.mbChpath_eq hho hhn hne (idle ho) (idle hn) hdiff
    (hfind.trans hin)
  rw [hfind'] at hr
  obtain ⟨named', hmap⟩ := hr.named_pathMap wf named hhn hnew.1 hin
  refine ⟨⟨t', hrun, hmap, ?_, hr.gone, hr.same⟩, ?_⟩
  · have hs := hr.moved
    rw [List.take_of_length_le (Nat.le_of_lt hnew.1)] at hs
    exact hs
  · intro r t'' hrun'
    rw [hrun] at hrun'
    cases hrun'
    exact ⟨rows', hr.wf, named', fun h' => (hr.locks h').trans (idle h')⟩

theorem initTable_wf : TableWf initTable (fun _ => []) := by
  refine ⟨⟨fun h _ => rfl, by simp, by simp⟩, ?_, ?_, fun _ => Or.inl rfl, fun _ => rfl⟩
  · simp [initTable, initMbucket]
  · exact fun _ _ => ⟨rfl, rfl⟩

theorem initTable_named : Named initTable (fun _ => []) := by
  refine ⟨by simp, ?_, ?_⟩ <;> simp [initTable, initMbucket]

theorem TableStep.keeps (hstep : TableStep t t') (hmap : MapWf t rows) :
    ∃ rows', MapWf t' rows' := by
  cases hstep with
  | get hp hrun =>
      obtain ⟨h, hok⟩ := hash_ok hp
      rw [hmap.wf.getMbucket_eq hok (hmap.idle h)] at hrun
      cases hrun
      exact ⟨rows, hmap⟩
  | create hp hrun => exact (createMbucket_spec hmap hp _).2 _ _ hrun
  | release hp hrun => exact (releaseMetaBucket_spec hmap hp).2 _ _ hrun
  | chpath hold hnew hin hrows hrun =>
      obtain ⟨m, hm⟩ := Option.ne_none_iff_exists'.mp hin
      exact (mbChpath_spec hmap hold hnew hm hrows).2 _ _ hrun

theorem tableRun_wf (hrun : Relation.ReflTransGen TableStep initTable t) :
    ∃ rows, MapWf t rows := by
  induction hrun with
  | refl => exact ⟨_, initTable_wf, initTable_named, fun _ => rfl⟩
  | tail _ hstep ih =>
      obtain ⟨rows, hmap⟩ := ih
      exact hstep.keeps hmap

/-- The table refines a finite map: after any sequence of operations the rows
are finite, acyclic and disjoint lists of exactly the buckets in use, filed
under the hash of their paths, and lookup, creation, release and rename are
the operations of the map. -/
theorem table_refines_map {t : MetaShm} (hrun : Relation.ReflTransGen TableStep initTable t) :
    (∃ rows : Nat → List Int,
      (∀ h < hashTableSize, Linked t.next (-1) (t.row h).firstIx (rows h) ∧ (rows h).Nodup) ∧
      (∀ m, (t.mb m).inUse = true ↔ ∃! h, h < hashTableSize ∧ m ∈ rows h) ∧
      (∀ h < hashTableSize, ∀ m ∈ rows h, hash (t.mb m).path = .ok h)) ∧
    (∀ m m', (t.mb m).inUse = true → (t.mb m').inUse = true →
      (t.mb m).path = (t.mb m').path → m = m') ∧
    (∀ m, (t.mb m).inUse = false → (t.mb m).nextIx = -1) ∧
    (∀ p m, pathMap t p = some m ↔ (t.mb m).inUse = true ∧ (t.mb m).path = p) ∧
    (∀ p, GoodPath p → GetSpec t p) ∧
    (∀ rand p, GoodPath p → CreateSpec t rand p) ∧
    (∀ p, GoodPath p → ReleaseSpec t p) ∧
    (∀ old new m, GoodPath old → GoodPath new → pathMap t old = some m →
      hash old ≠ hash new → ChpathSpec t old new m) := by
  obtain ⟨rows, hmap⟩ := tableRun_wf hrun
  have ⟨wf, named, idle⟩ := hmap
  refine ⟨⟨rows, fun h hh => ⟨wf.linked h hh, (wf.linked h hh).nodup⟩, ?_, named.hashed⟩,
    named.unique, fun m hm => (wf.free m hm).1, fun p m => pathMap_iff wf named, ?_,
    fun rand p hp => (createMbucket_spec hmap hp rand).1,
    fun p hp => (releaseMetaBucket_spec hmap hp).1,
    fun old new m hold hnew hin hrows => (mbChpath_spec hmap hold hnew hin hrows).1⟩
  · intro m
    rw [wf.inUse_iff]
    constructor
    · rintro ⟨h, hh, hm⟩
      exact ⟨h, ⟨hh, hm⟩, fun h' ⟨hh', hm'⟩ => wf.apart h' hh' h hh m hm' hm⟩
    · rintro ⟨h, ⟨hh, hm⟩, _⟩
      exact ⟨h, hh, hm⟩
  · intro p hp
    obtain ⟨h, hok⟩ := hash_ok hp
    rw [GetSpec, wf.getMbucket_eq hok (idle h), findPath_eq_pathMap wf named hok hp.1]

/-- The path `/a`. -/
def pathA : Path := [47, 97]

/-- The path `/b`. -/
def pathB : Path := [47, 98]

theorem table_refines_map_pathA :
    ∃ t, Relation.ReflTransGen TableStep initTable t ∧ GetSpec t pathA := by
  have hgood : GoodPath pathA := by decide +kernel
  obtain ⟨r, t, hrun, _⟩ := (table_refines_map .refl).2.2.2.2.2.1 0 pathA hgood
  have hstep : TableStep initTable t := .create hgood hrun
  exact ⟨t, .single hstep, (table_refines_map (.single hstep)).2.2.2.2.1 pathA hgood⟩

end Spacefish
