import Spacefish.OpenTruncate

/-!
Calls that fail on the way to a file. `upload_file` links a meta bucket into its
row before it has read the file, and `open` resolves the file before it looks for
a descriptor: what was done up to then stays.
-/

namespace Spacefish

open LinkedArray Program Buffer

variable {s s' : Sys} {w w' w₁ : World} {rows : Nat → List Int} {ch : Int → List Nat} {env : Env}
  {bld : Build} {p pathname name : Path} {flags mode pid h : Nat} {m a : Int} {r : Ret} {e : Errno}

/-! `upload_file` -/

/-- The metadata table and the marks of the data buckets are as they were. -/
structure TableSame (w w' : World) : Prop where
  rows : ∀ h, (w'.table.row h).firstIx = (w.table.row h).firstIx
  links : ∀ m, (w'.table.mb m).nextIx = (w.table.mb m).nextIx
  inUse : ∀ m, (w'.table.mb m).inUse = (w.table.mb m).inUse
  paths : ∀ m, (w'.table.mb m).path = (w.table.mb m).path
  data : ∀ b, (w'.data.bucket b).inUse = (w.data.bucket b).inUse

/-- `upload_file` gets so far as to link a meta bucket: the file is on the disk and
can be opened, and the table has no file of this name and a bucket left. -/
def LinksBucket (env : Env) (t : MetaShm) (name : Path) : Prop :=
  (∃ st, env.realStat name = .ok st) ∧ 0 ≤ env.realOpen name 0 ∧ ¬ HasPath t name ∧ ¬ TableFull t

theorem Created.notFull {t t' : MetaShm} (hc : Created t t' rows h m) : ¬ TableFull t := by
  intro hfull
  have hused := hfull m hc.bound.1 hc.bound.2
  rw [hc.fresh] at hused
  cases hused

/-- What a failed `upload_file` leaves. -/
theorem uploadFile_null (bld : Build) (env : Env) (wf : TableWf w.table rows) (name : Path) :
    Ends (uploadFile bld env name w)
      (fun r w' => (∃ e, r = .error e) →
        (w' = w ∧ ¬ LinksBucket env w.table name) ∨
          (LinksBucket env w.table name ∧ w'.data = w.data ∧ w'.fdTable = w.fdTable ∧
            ∃ h m, Created w.table w'.table rows h m))
      (fun _ _ => True) := by
  unfold uploadFile
  cases hstat : env.realStat name with
  | error e =>
      refine fun _ => Or.inl ⟨rfl, ?_⟩
      rintro ⟨⟨st, hst⟩, _⟩
      rw [hstat] at hst
      cases hst
  | ok st =>
      dsimp only
      rw [run_ite]
      split
      next hopen => exact fun _ => Or.inl ⟨rfl, fun hl => absurd hl.2.1 (by omega)⟩
      next hopen =>
        rw [ends_bind, onMeta, ends_zoom]
        refine (strictCreateMbucket_ends wf env.mrand name).mono ?_ (fun _ _ _ => trivial)
        rintro r t₁ ⟨h, hok, ⟨rfl, rfl, hwhy⟩ | ⟨m, rfl, hnone, hc⟩⟩
        · refine fun _ => Or.inl ⟨rfl, ?_⟩
          rintro ⟨_, _, hhas, hfull⟩
          rcases hwhy with hsome | hall
          · exact hhas ((wf.hasPath_iff hok).mpr hsome)
          · exact hfull hall
        · have hlinks : LinksBucket env w.table name :=
            ⟨⟨st, hstat⟩, by omega, (wf.not_hasPath_iff hok).mpr hnone, hc.notFull⟩
          dsimp only
          rw [run_ite]
          split
          · exact fun _ => Or.inr ⟨hlinks, rfl, rfl, h, m, hc⟩
          · simp only [ends_bind]
            refine Ends.of_forall _ (fun _ _ => Ends.of_forall _ (fun _ _ => Ends.of_forall _
              (fun _ _ => ?_)))
            rintro ⟨e, he⟩
            cases he

theorem Created.tableDiffers (hc : Created w.table w'.table rows h m) : ¬ TableSame w w' := by
  intro hsame
  have hin := hsame.inUse m
  rw [hc.fresh, hc.new.inUse] at hin
  cases hin

/-- A failed `upload_file` leaves the table and the marks of the data buckets as they
were, and so everything else, if and only if it has not linked a meta bucket. -/
theorem failed_upload_intact_iff (wf : TableWf w.table rows)
    (hrun : uploadFile bld env name w = .ok (.error e) w') :
    (TableSame w w' ↔ ¬ LinksBucket env w.table name) ∧
      (¬ LinksBucket env w.table name → w' = w) := by
  have hends := uploadFile_null bld env wf name
  rw [hrun] at hends
  rcases hends ⟨e, rfl⟩ with ⟨rfl, hno⟩ | ⟨hlinks, _, _, h, m, hc⟩
  · exact ⟨iff_of_true ⟨fun _ => rfl, fun _ => rfl, fun _ => rfl, fun _ => rfl, fun _ => rfl⟩ hno,
      fun _ => rfl⟩
  · exact ⟨iff_of_false hc.tableDiffers (not_not_intro hlinks), fun hno => absurd hlinks hno⟩

/-- A disk with a directory `/a`: it can be opened and not be read. -/
def dirA : Env :=
  { emptyDisk with
    realStat := fun p => if p = pathA then .ok { zeroStat with stSize := 3 } else .error .enoent
    realOpen := fun p _ => if p = pathA then 3 else -1 }

/-- An upload that the system counts as failed. -/
theorem uploadFile_of_exec (bld : Build) (s : Sys) (pid : Nat) (env : Env) (name : Path)
    (hret : (exec bld s ⟨pid, env, .upload name⟩).1.isRet = true)
    (hnum : (exec bld s ⟨pid, env, .upload name⟩).1.num = -1) : ∃ err w',
    uploadFile bld env name (s.view pid) = .ok (.error err) w' ∧
      (exec bld s ⟨pid, env, .upload name⟩).2 = s.put pid w' := by
  cases hrun : uploadFile bld env name (s.view pid) with
  | ok r w' =>
      rw [exec, callOp, bind_of_ok hrun] at hnum ⊢
      cases r with
      | ok m => cases hnum
      | error err => exact ⟨err, w', rfl, rfl⟩
  | error h w' =>
      rw [exec, callOp, bind_of_error hrun] at hret
      cases hret

/-- The upload of a path that has a file of the store, which is open. -/
theorem failed_upload_intact_taken : ∃ err w',
    uploadFile defaultBuild dirA pathA (threeBytes.view 0) = .ok (.error err) w' ∧
      TableSame (threeBytes.view 0) w' ∧ w' = threeBytes.view 0 := by
  obtain ⟨rows, ch, hinv⟩ := run_sysWf threeBytes_reached
  obtain ⟨err, w', hrun, _⟩ := uploadFile_of_exec defaultBuild threeBytes 0 dirA pathA
    (by decide +kernel) (by decide +kernel)
  have hno : ¬ LinksBucket dirA threeBytes.table pathA := fun h => h.2.2.1 threeBytes_inTable
  obtain ⟨hsame, hstays⟩ :=
    failed_upload_intact_iff (w := threeBytes.view 0) hinv.store.table hrun
  exact ⟨err, w', hrun, hsame.mpr hno, hstays hno⟩

/-- Without such a file the upload fails and leaves a meta bucket without a path in use. -/
theorem failed_upload_leaves_bucket :
    ¬ ∀ (bld : Build) (env : Env) (w w' : World) (rows : Nat → List Int) (name : Path) (e : Errno),
      TableWf w.table rows → uploadFile bld env name w = .ok (.error e) w' → TableSame w w' := by
  intro hall
  obtain ⟨err, w', hrun, hput⟩ := uploadFile_of_exec defaultBuild initSys 0 dirA pathA
    (by decide +kernel) (by decide +kernel)
  have hused : ((exec defaultBuild initSys ⟨0, dirA, .upload pathA⟩).2.table.mb 0).inUse = true := by
    decide +kernel
  have hsame := hall defaultBuild dirA (initSys.view 0) w' _ pathA err initSys_wf.store.table hrun
  have hin := hsame.inUse 0
  rw [hput] at hused
  rw [show (w'.table.mb 0).inUse = true from hused] at hin
  cases hin

/-! `open` -/

/-- The paths of the meta buckets in use, in the order of the buckets. -/
def tablePaths (t : MetaShm) : List Path :=
  (((List.range metaBuckets).map Int.ofNat).filter (fun m => (t.mb m).inUse)).map
    (fun m => (t.mb m).path)

/-- The paths of the table, the content and size of every file, and the cursor of
every file with an open descriptor are as they were. -/
structure Unchanged (s s' : Sys) : Prop where
  paths : tablePaths s'.table = tablePaths s.table
  content : ∀ m, (s.table.mb m).inUse = true →
    content s'.data (fileChain s' m) = content s.data (fileChain s m)
  size : ∀ m, (s.table.mb m).inUse = true → (s'.table.mb m).s.stSize = (s.table.mb m).s.stSize
  cursor : ∀ m, Held s m → (s'.table.mb m).lastDbucket = (s.table.mb m).lastDbucket ∧
    (s'.table.mb m).lastDbOffset = (s.table.mb m).lastDbOffset

/-- The flags lead to `create_new_file` when the path is not in the table. -/
def CreatesNew (env : Env) (pathname : Path) (flags : Nat) : Prop :=
  hasFlag flags oCreat = true ∧
    (oTruncCheck flags = true ∨ ∃ e, env.realStat pathname = .error e)

/-- `open` makes a meta bucket for a path `p` that is not in the table, as far as the
table has room: it creates the file, or uploads one that it can open. -/
def MakesFile (env : Env) (pathname p : Path) (flags : Nat) : Prop :=
  CreatesNew env pathname flags ∨
    (¬ CreatesNew env pathname flags ∧ ¬ (hasFlag flags oCreat = true ∧ hasFlag flags oExcl = true) ∧
      (∃ st, env.realStat p = .ok st) ∧ 0 ≤ env.realOpen p 0)

/-- The flags refuse a file that exists. -/
def Refuses (flags : Nat) : Prop :=
  hasFlag flags oCreat = true ∧ hasFlag flags oExcl = true ∧ oTruncCheck flags = false

/-- An `open` that fails has not got as far as to change anything: the name is too
long; the file is in the table and refused, or it would be left as it is; or the file
is not in the table and none is made. -/
def FailsClean (env : Env) (s : Sys) (pathname : Path) (flags : Nat) : Prop :=
  pathMax < pathname.length ∨ ∃ p, absPath env pathname = .ok p ∧
    match lookup s.table p with
    | some m => Refuses flags ∨
        ((truncates flags = true → EmptyFile s m) ∧ (Held s m → AtStart s m))
    | none => TableFull s.table ∨ ¬ MakesFile env pathname p flags

/-- How `open` ends the search for its file when it has made none, or has made one. -/
def ResolveEnd (env : Env) (pathname p : Path) (flags : Nat) (rows : Nat → List Int) (w : World)
    (r : Except Errno Int) (w' : World) : Prop :=
  match r with
  | .error _ =>
      (w' = w ∧ ∀ h, hash p = .ok h → match findPath w.table p (rows h) with
        | some _ => Refuses flags
        | none => TableFull w.table ∨ ¬ MakesFile env pathname p flags) ∨
      (¬ HasPath w.table p ∧ MakesFile env pathname p flags ∧
        ∃ h m, Created w.table w'.table rows h m)
  | .ok _ => (¬ HasPath w.table p → MakesFile env pathname p flags) ∧
      (HasPath w.table p → ¬ Refuses flags)

theorem diskContent_some {buf : List Byte} (hdisk : diskContent env p = some buf) :
    (∃ st, env.realStat p = .ok st) ∧ 0 ≤ env.realOpen p 0 := by
  unfold diskContent at hdisk
  cases hstat : env.realStat p with
  | error e =>
      rw [hstat] at hdisk
      cases hdisk
  | ok st =>
      rw [hstat] at hdisk
      dsimp only at hdisk
      split at hdisk
      · cases hdisk
      · next hopen => exact ⟨⟨st, rfl⟩, by omega⟩

theorem openUpload_resolveEnd (hbld : bld.getFreeDbucketIx = bucketIxAllocAllRandom)
    (wf : StoreWf (w.store rows ch)) (hok : hash p = .ok h)
    (hnone : findPath w.table p (rows h) = none) (hno : ¬ CreatesNew env pathname flags)
    (hexcl : ¬ (hasFlag flags oCreat = true ∧ hasFlag flags oExcl = true)) :
    Ends (uploadFile bld env p w) (ResolveEnd env pathname p flags rows w) (fun _ _ => True) := by
  have hwf : TableWf w.table rows := wf.table
  have hhas : ¬ HasPath w.table p := (hwf.not_hasPath_iff hok).mpr hnone
  have hmakes : MakesFile env pathname p flags ↔
      (∃ st, env.realStat p = .ok st) ∧ 0 ≤ env.realOpen p 0 :=
    ⟨fun h => (h.resolve_left hno).2.2, fun h => Or.inr ⟨hno, hexcl, h⟩⟩
  refine ((uploadFile_ends hbld wf p).and (uploadFile_null bld env hwf p)).mono ?_
    (fun _ _ _ => trivial)
  rintro r w' ⟨hends, hnull⟩
  cases r with
  | ok m =>
      rcases hends with ⟨_, he, _⟩ | ⟨_, ⟨_, he⟩, _⟩ | ⟨buf, _, _, _, _, _, hdisk, _⟩
      · cases he
      · cases he
      · exact ⟨fun _ => hmakes.mpr (diskContent_some hdisk), fun h => absurd h hhas⟩
  | error e =>
      rcases hnull ⟨e, rfl⟩ with ⟨rfl, hlinks⟩ | ⟨hlinks, _, _, hc⟩
      · refine Or.inl ⟨rfl, fun h' hok' => ?_⟩
        obtain rfl : h = h' := Except.ok.inj (hok.symm.trans hok')
        rw [hnone]
        by_cases hfull : TableFull w'.table
        · exact Or.inl hfull
        · refine Or.inr (fun hm => hlinks ?_)
          obtain ⟨hst, hopen⟩ := hmakes.mp hm
          exact ⟨hst, hopen, hhas, hfull⟩
      · exact Or.inr ⟨hhas, hmakes.mpr ⟨hlinks.1, hlinks.2.1⟩, hc⟩

theorem openCreate_resolveEnd (hbld : bld.getFreeDbucketIx = bucketIxAllocAllRandom)
    (wf : StoreWf (w.store rows ch)) (hok : hash p = .ok h)
    (hnone : findPath w.table p (rows h) = none) (hcreates : CreatesNew env pathname flags) :
    Ends (createNewFile bld env p mode w) (ResolveEnd env pathname p flags rows w)
      (fun _ _ => True) := by
  have hwf : TableWf w.table rows := wf.table
  refine (createNewFile_ends hbld wf p mode).mono ?_ (fun _ _ _ => trivial)
  rintro r w' (⟨rfl, rfl, h', hok', hwhy⟩ | ⟨_, m, _, _, rfl, _⟩)
  · refine Or.inl ⟨rfl, fun h'' hok'' => ?_⟩
    obtain rfl : h = h' := Except.ok.inj (hok.symm.trans hok')
    obtain rfl : h = h'' := Except.ok.inj (hok.symm.trans hok'')
    rw [hnone] at hwhy ⊢
    exact Or.inl (hwhy.resolve_left (by simp))
  · refine ⟨fun _ => Or.inl hcreates, fun hhas => ?_⟩
    rw [hwf.hasPath_iff hok, hnone] at hhas
    cases hhas

theorem openResolve_resolveEnd (hbld : bld.getFreeDbucketIx = bucketIxAllocAllRandom)
    (wf : StoreWf (w.store rows ch)) (pathname p : Path) (flags mode : Nat) :
    Ends (openResolve bld env pathname p flags mode w) (ResolveEnd env pathname p flags rows w)
      (fun _ _ => True) := by
  have hwf : TableWf w.table rows := wf.table
  have hfound : ∀ {h : Nat} {m : Int} (w' : World), hash p = .ok h →
      findPath w.table p (rows h) = some m → ¬ Refuses flags →
      ResolveEnd env pathname p flags rows w (.ok m) w' := by
    intro h m w' hok hfind hno
    refine ⟨fun hhas => ?_, fun _ => hno⟩
    rw [hwf.hasPath_iff hok, hfind] at hhas
    exact absurd rfl hhas
  unfold openResolve
  rw [run_ite]
  cases hcreat : hasFlag flags oCreat with
  | false =>
      have hno : ¬ CreatesNew env pathname flags := by
        rintro ⟨hyes, _⟩
        rw [hcreat] at hyes
        cases hyes
      have hrefuses : ¬ Refuses flags := by
        rintro ⟨hyes, _⟩
        rw [hcreat] at hyes
        cases hyes
      rw [if_pos (by simp)]
      refine lookup_ends hwf (fun _ _ _ _ => trivial) (fun h hok _ => ?_)
      cases hfind : findPath w.table p (rows h) with
      | some m => exact hfound w hok hfind hrefuses
      | none => exact openUpload_resolveEnd hbld wf hok hfind hno (by simp [hcreat])
  | true =>
      rw [if_neg (by simp), run_ite]
      cases htrunc : oTruncCheck flags with
      | true =>
          rw [if_pos rfl]
          refine lookup_ends hwf (fun _ _ _ _ => trivial) (fun h hok _ => ?_)
          cases hfind : findPath w.table p (rows h) with
          | some m =>
              have hrefuses : ¬ Refuses flags := by
                rintro ⟨_, _, hno⟩
                rw [htrunc] at hno
                cases hno
              dsimp only
              simp only [ends_bind]
              exact Ends.of_forall _ (fun _ _ => Ends.of_forall _ (fun _ _ => Ends.of_forall _
                (fun _ _ => Ends.of_forall _ (fun _ w' => hfound w' hok hfind hrefuses))))
          | none => exact openCreate_resolveEnd hbld wf hok hfind ⟨hcreat, Or.inl htrunc⟩
      | false =>
          rw [if_neg (by simp)]
          refine lookup_ends hwf (fun _ _ _ _ => trivial) (fun h hok _ => ?_)
          cases hfind : findPath w.table p (rows h) with
          | some m =>
              dsimp only
              rw [run_ite]
              split
              · next hexcl =>
                refine Or.inl ⟨rfl, fun h' hok' => ?_⟩
                obtain rfl : h = h' := Except.ok.inj (hok.symm.trans hok')
                rw [hfind]
                exact ⟨hcreat, hexcl, htrunc⟩
              · next hexcl => exact hfound w hok hfind (fun h => hexcl h.2.1)
          | none =>
              dsimp only
              cases hstat : env.realStat pathname with
              | ok st =>
                  have hno : ¬ CreatesNew env pathname flags := by
                    rintro ⟨_, htr | ⟨e, he⟩⟩
                    · simp [htrunc] at htr
                    · rw [hstat] at he
                      cases he
                  dsimp only
                  rw [run_ite]
                  split
                  · next hexcl =>
                    refine Or.inl ⟨rfl, fun h' hok' => ?_⟩
                    obtain rfl : h = h' := Except.ok.inj (hok.symm.trans hok')
                    rw [hfind]
                    refine Or.inr (fun hm => ?_)
                    exact (hm.resolve_left hno).2.1 ⟨hcreat, hexcl⟩
                  · next hexcl =>
                    exact openUpload_resolveEnd hbld wf hok hfind hno (fun h => hexcl h.2)
              | error e =>
                  exact openCreate_resolveEnd hbld wf hok hfind ⟨hcreat, Or.inr ⟨e, hstat⟩⟩

/-- What an `open` that returns -1 has done. -/
inductive OpenFails (env : Env) (pathname : Path) (flags : Nat) (rows : Nat → List Int)
    (ch : Int → List Nat) (w : World) : World → Prop where
  | tooLong (hlen : pathMax < pathname.length) : OpenFails env pathname flags rows ch w w
  | unresolved {p : Path} {e : Errno} {w' : World} (hlen : pathname.length ≤ pathMax)
      (hpath : absPath env pathname = .ok p)
      (hend : ResolveEnd env pathname p flags rows w (.error e) w') :
      OpenFails env pathname flags rows ch w w'
  | noSlot {p : Path} {m : Int} {w₁ w' : World} (hlen : pathname.length ≤ pathMax)
      (hpath : absPath env pathname = .ok p)
      (hres : Resolved env pathname p flags rows ch w m w₁)
      (hend : ResolveEnd env pathname p flags rows w (.ok m) w₁)
      (he : Edited w₁.table w'.table m rewound) (hdata : w'.data = w₁.data) :
      OpenFails env pathname flags rows ch w w'

theorem sysOpen_fails (wf : StoreWf (w.store rows ch)) (pathname : Path) (flags mode : Nat)
    (hexcl : exclusivePath pathname = false) :
    Ends (sysOpen defaultBuild env pathname flags mode w)
      (fun r w' => r.ret = -1 → OpenFails env pathname flags rows ch w w') (fun _ _ => True) := by
  rw [sysOpen, run_ite, if_neg (by simp [hexcl]), run_ite]
  split
  · next hlen => exact fun _ => .tooLong hlen
  · next hlen =>
    rcases absPath_cases env pathname with ⟨p, hpath, hrun⟩ | ⟨e, _, _, hrun⟩
    · rw [bind_of_ok (hrun w), ends_bind]
      refine ((openResolve_ends rfl rfl wf pathname p flags mode).and
        (openResolve_resolveEnd rfl wf pathname p flags mode)).mono ?_ (fun _ _ _ => trivial)
      rintro r w₁ ⟨hends, hend⟩
      cases r with
      | error e => exact fun _ => .unresolved (by omega) hpath hend
      | ok m =>
          have hres : Resolved env pathname p flags rows ch w m w₁ := by
            rcases hends with ⟨⟨_, he⟩, _⟩ | ⟨m', hm, hres⟩
            · cases he
            · obtain rfl := Except.ok.inj hm
              exact hres
          dsimp only
          rw [openPosition, bind_assoc, run_get_bind]
          split
          · obtain ⟨e, he, _⟩ := appendLoop_error walkFuel (w₁.table.mb m).firstDbucket w₁.data
            rw [bind_of_error (onData_of_error he)]
            trivial
          · rw [run_setMb]
            have he : Edited w₁.table (w₁.table.setMb m (fun b =>
                { b with lastDbucket := b.firstDbucket, lastDbOffset := 0 })) m rewound :=
              Edited.setMb rfl
            refine (openSlot_ends m).mono ?_ (fun _ _ _ => trivial)
            rintro r w' (⟨rfl, rfl, _⟩ | ⟨i, rfl, _⟩) hret
            · exact .noSlot (by omega) hpath hres hend he rfl
            · dsimp only at hret
              omega
    · rw [bind_of_error (hrun w)]
      trivial

/-! The parts of `Unchanged`. -/

theorem Unchanged.of_view (htab : w'.table = s.table) (hdata : w'.data = s.data) :
    Unchanged s (s.put pid w') := by
  obtain ⟨t, d, f⟩ := w'
  obtain rfl : t = s.table := htab
  obtain rfl : d = s.data := hdata
  exact ⟨rfl, fun _ _ => rfl, fun _ _ => rfl, fun _ _ => ⟨rfl, rfl⟩⟩

theorem tablePaths_congr {t t' : MetaShm} (hin : ∀ a, (t'.mb a).inUse = (t.mb a).inUse)
    (hpath : ∀ a, (t'.mb a).path = (t.mb a).path) : tablePaths t' = tablePaths t := by
  unfold tablePaths
  simp only [hin, hpath]

/-- One more bucket in use makes the list of paths longer. -/
theorem tablePaths_ne {t t' : MetaShm} (hfresh : (t.mb m).inUse = false)
    (hbound : 0 ≤ m ∧ m < metaBuckets) (hused : (t'.mb m).inUse = true)
    (hsame : ∀ a ≠ m, (t'.mb a).inUse = (t.mb a).inUse) : tablePaths t' ≠ tablePaths t := by
  intro heq
  have hlen := congrArg List.length heq
  unfold tablePaths at hlen
  rw [List.length_map, List.length_map] at hlen
  generalize hl : (List.range metaBuckets).map Int.ofNat = l at hlen
  have hm : m ∈ l := by
    rw [← hl]
    refine List.mem_map.mpr ⟨m.toNat, List.mem_range.mpr (by omega), ?_⟩
    exact Int.toNat_of_nonneg hbound.1
  have hsub : (l.filter (fun a => (t.mb a).inUse)).Sublist (l.filter (fun a => (t'.mb a).inUse)) := by
    refine List.monotone_filter_right l (fun a ha => ?_)
    by_cases ham : a = m
    · subst ham
      exact hused
    · exact (hsame a ham).trans ha
  have hmem : m ∈ l.filter (fun a => (t'.mb a).inUse) := List.mem_filter.mpr ⟨hm, hused⟩
  rw [← hsub.eq_of_length hlen.symm] at hmem
  have hno := (List.mem_filter.mp hmem).2
  rw [hfresh] at hno
  cases hno

theorem Created.changed (hc : Created s.table w'.table rows h m) : ¬ Unchanged s (s.put pid w') :=
  fun hu => tablePaths_ne hc.fresh hc.bound hc.new.inUse (fun a ha => (hc.same a ha).inUse) hu.paths

theorem NewFile.changed {f : FileCore → FileCore}
    (hn : NewFile (s.view pid) rows p h m f w₁) (hf : Stays f)
    (he : Edited w₁.table w'.table m rewound) : ¬ Unchanged s (s.put pid w') := by
  obtain ⟨t₁, hc, he₁⟩ := hn.edited
  have hin : ∀ a, (w'.table.mb a).inUse = (t₁.mb a).inUse := fun a =>
    (he.inUse Seeks.rewound.toStays a).trans (he₁.inUse hf a)
  exact fun hu => tablePaths_ne hc.fresh hc.bound ((hin m).trans hc.new.inUse)
    (fun a ha => (hin a).trans (hc.same a ha).inUse) hu.paths

theorem SameFile.content_eq (hs : SameFile s s' a) (wf : LinkWf (s.store rows ch))
    (huse : (s.table.mb a).inUse = true) :
    content s'.data (fileChain s' a) = content s.data (fileChain s a) := by
  rw [hs.chain_wf wf huse]
  exact content_congr hs.data

theorem EmptyFile.content (hempty : EmptyFile s m) :
    content s.data (fileChain s m) = [] := by
  rw [← List.length_eq_zero_iff, content_length, total_eq_zero]
  exact hempty.bytes

/-- A file that `open` has taken, with its cursor put to the start, while it found no
descriptor for it. -/
theorem taken_unchanged_iff {f : FileCore → FileCore} (wf : LinkWf (s.store rows ch))
    (huse : (s.table.mb m).inUse = true) (he : Edited s.table w'.table m f) (hf : Stays f)
    (hpath : ∀ c, (f c).path = c.path) (hlast : ∀ c, (f c).last = c.first) (hoff : ∀ c, (f c).off = 0)
    (hother : ∀ a ≠ m, (s.table.mb a).inUse = true → SameFile s (s.put pid w') a) :
    Unchanged s (s.put pid w') ↔
      (content w'.data (fileChain (s.put pid w') m) = content s.data (fileChain s m) ∧
        (w'.table.mb m).s.stSize = (s.table.mb m).s.stSize) ∧ (Held s m → AtStart s m) := by
  have hl : (w'.table.mb m).lastDbucket = (s.table.mb m).firstDbucket :=
    (congrArg FileCore.last he.self).trans (hlast _)
  have ho : (w'.table.mb m).lastDbOffset = 0 := (congrArg FileCore.off he.self).trans (hoff _)
  constructor
  · intro hu
    refine ⟨⟨hu.content m huse, hu.size m huse⟩, fun hheld => ?_⟩
    obtain ⟨hcur, hpos⟩ := hu.cursor m hheld
    exact ⟨hcur.symm.trans hl, hpos.symm.trans ho⟩
  · rintro ⟨⟨hcont, hsize⟩, hstart⟩
    have hp : ∀ a, (w'.table.mb a).path = (s.table.mb a).path := by
      intro a
      by_cases ha : a = m
      · subst ha
        exact (congrArg FileCore.path he.self).trans (hpath _)
      · exact congrArg FileCore.path (he.other a ha)
    refine ⟨tablePaths_congr (he.inUse hf) hp, fun a ha => ?_, fun a _ => ?_, fun a hheld => ?_⟩
    · by_cases ham : a = m
      · subst ham
        exact hcont
      · exact (hother a ham ha).content_eq wf ha
    · by_cases ham : a = m
      · subst ham
        exact hsize
      · exact congrArg FileCore.size (he.other a ham)
    · by_cases ham : a = m
      · subst ham
        obtain ⟨hcur, hpos⟩ := hstart hheld
        exact ⟨hl.trans hcur.symm, ho.trans hpos.symm⟩
      · exact ⟨congrArg FileCore.last (he.other a ham), congrArg FileCore.off (he.other a ham)⟩

/-- The file whose cursor was put to the start keeps its content and its size. -/
theorem rewound_keeps (he : Edited s.table w'.table m rewound) (hdata : w'.data = s.data) :
    content w'.data (fileChain (s.put pid w') m) = content s.data (fileChain s m) ∧
      (w'.table.mb m).s.stSize = (s.table.mb m).s.stSize := by
  refine ⟨?_, congrArg FileCore.size he.self⟩
  unfold fileChain
  change content w'.data (chainFrom w'.data walkFuel (w'.table.mb m).firstDbucket) = _
  rw [hdata, show (w'.table.mb m).firstDbucket = (s.table.mb m).firstDbucket from
    congrArg FileCore.first he.self]

/-- A file that was emptied keeps its content and its size when it was empty before. -/
theorem emptied_keeps_iff (hempty : EmptyFile (s.put pid w') m) :
    (content w'.data (fileChain (s.put pid w') m) = content s.data (fileChain s m) ∧
      (w'.table.mb m).s.stSize = (s.table.mb m).s.stSize) ↔ EmptyFile s m := by
  rw [show content w'.data (fileChain (s.put pid w') m) = [] from hempty.content,
    show (w'.table.mb m).s.stSize = 0 from hempty.size]
  constructor
  · rintro ⟨hcont, hsize⟩
    refine ⟨hsize.symm, ?_⟩
    rw [← total_eq_zero, ← content_length, ← hcont]
    rfl
  · exact fun hold => ⟨hold.content.symm, hold.size.symm⟩

/-- `FailsClean` of a name that is not too long, by what its row says. -/
theorem failsClean_iff (hlen : pathname.length ≤ pathMax) (hpath : absPath env pathname = .ok p)
    (hlookup : lookup s.table p = findPath s.table p (rows h)) :
    FailsClean env s pathname flags ↔ match findPath s.table p (rows h) with
      | some m => Refuses flags ∨
          ((truncates flags = true → EmptyFile s m) ∧ (Held s m → AtStart s m))
      | none => TableFull s.table ∨ ¬ MakesFile env pathname p flags := by
  rw [← hlookup]
  constructor
  · rintro (hlong | ⟨q, hq, hclean⟩)
    · omega
    · obtain rfl : p = q := Except.ok.inj (hpath.symm.trans hq)
      exact hclean
  · exact fun h => Or.inr ⟨p, hpath, h⟩

/-- An `open` that fails leaves the paths of the table, the content and size of the
files and the cursors of the open ones alone if and only if it failed before it
changed anything. -/
theorem failed_open_unchanged_iff (wf : StoreWf ((s.view pid).store rows ch))
    (hexcl : exclusivePath pathname = false)
    (hexec : exec defaultBuild s ⟨pid, env, .open pathname flags mode⟩ = (.ret r, s'))
    (hret : r.ret = -1) : Unchanged s s' ↔ FailsClean env s pathname flags := by
  have wf' : LinkWf (s.store rows ch) := wf.toLinkWf
  have hwf : TableWf s.table rows := wf.table
  have hends := @sysOpen_fails (s.view pid) rows ch env wf pathname flags mode hexcl
  rcases exec_ends (e := ⟨pid, env, .open pathname flags mode⟩) hends hexec with
    ⟨r', w', hr, rfl, hfails⟩ | ⟨e, w', hhalt, _, _⟩
  swap
  · cases hhalt
  obtain rfl := Out.ret.inj hr
  cases hfails hret with
  | tooLong hlen => exact iff_of_true (.of_view rfl rfl) (Or.inl hlen)
  | @unresolved p _ _ hlen hpath hend =>
      obtain ⟨_, q, h, hq, hok, _⟩ := exec_open_looksUp hexec hwf hexcl hlen
      obtain rfl : p = q := Except.ok.inj (hpath.symm.trans hq)
      rw [failsClean_iff hlen hpath (exec_open_lookup hexec hwf hexcl hlen hpath hok)]
      rcases hend with ⟨rfl, hwhy⟩ | ⟨hhas, hmakes, _, _, hc⟩
      · refine iff_of_true (.of_view rfl rfl) ?_
        have hwhy := hwhy h hok
        change match findPath s.table p (rows h) with
          | some _ => Refuses flags
          | none => TableFull s.table ∨ ¬ MakesFile env pathname p flags at hwhy
        cases hfind : findPath s.table p (rows h) with
        | none =>
            rw [hfind] at hwhy
            exact hwhy
        | some m =>
            rw [hfind] at hwhy
            exact Or.inl hwhy
      · refine iff_of_false hc.changed ?_
        rw [show findPath s.table p (rows h) = none from (hwf.not_hasPath_iff hok).mp hhas]
        rintro (hfull | hno)
        · exact hc.notFull hfull
        · exact hno hmakes
  | @noSlot p m _ _ hlen hpath hres hend he hdata =>
      have hother : ∀ a ≠ m, (s.table.mb a).inUse = true → SameFile s (s.put pid w') a :=
        fun a ha huse => hres.sameFile wf he hdata ha huse
      cases hres with
      | @found h _ hok hfind hflag =>
          have huse : (s.table.mb m).inUse = true := hwf.findPath_inUse hok hfind
          have hfind' : findPath s.table p (rows h) = some m := hfind
          have hrefuses : ¬ Refuses flags :=
            hend.2 ((hwf.hasPath_iff hok).mpr (by rw [hfind']; rfl))
          have hsame : content w'.data (fileChain (s.put pid w') m) =
              content s.data (fileChain s m) ∧
              (w'.table.mb m).s.stSize = (s.table.mb m).s.stSize := rewound_keeps he hdata
          rw [failsClean_iff hlen hpath (exec_open_lookup hexec hwf hexcl hlen hpath hok), hfind',
            taken_unchanged_iff wf' huse he Seeks.rewound.toStays (fun _ => rfl) (fun _ => rfl)
              (fun _ => rfl) hother]
          simp [hsame, hrefuses, hflag]
      | @truncated h _ t' hok hfind hflag hch he₁ =>
          have huse : (s.table.mb m).inUse = true := hwf.findPath_inUse hok hfind
          have hfind' : findPath s.table p (rows h) = some m := hfind
          have hrefuses : ¬ Refuses flags :=
            hend.2 ((hwf.hasPath_iff hok).mpr (by rw [hfind']; rfl))
          have hempty : EmptyFile (s.put pid w') m := truncated_empty wf huse he₁ he hdata
          rw [failsClean_iff hlen hpath (exec_open_lookup hexec hwf hexcl hlen hpath hok), hfind',
            taken_unchanged_iff wf' huse (he₁.trans he) ⟨fun _ => rfl, fun _ => rfl, fun _ => rfl⟩
              (fun _ => rfl) (fun _ => rfl) (fun _ => rfl) hother, emptied_keeps_iff hempty]
          simp [hrefuses, hflag]
      | @made buf h _ ix new out _ hstart hfill =>
          have hok : hash p = .ok h := hfill.file.hashed
          obtain ⟨t₁, hc, _⟩ := hfill.file.edited
          have hnone : findPath s.table p (rows h) = none := hfill.file.absent
          rw [failsClean_iff hlen hpath (exec_open_lookup hexec hwf hexcl hlen hpath hok), hnone]
          refine iff_of_false (hfill.file.changed (filledCore_stays _ _ _) he) ?_
          rintro (hfull | hno)
          · exact hc.notFull hfull
          · refine hno (hend.1 ?_)
            exact (hwf.not_hasPath_iff hok).mpr hnone

/-- `O_RDWR | O_CREAT | O_EXCL` on a file of three bytes that is open. -/
theorem failed_open_unchanged_refused : ∃ r s',
    exec defaultBuild threeBytes ⟨1, emptyDisk, .open pathA 194 0⟩ = (.ret r, s') ∧ r.ret = -1 ∧
      Unchanged threeBytes s' := by
  obtain ⟨rows, ch, hinv⟩ := run_sysWf threeBytes_reached
  have hnum : (exec defaultBuild threeBytes ⟨1, emptyDisk, .open pathA 194 0⟩).1.num = -1 := by
    decide +kernel
  have hisRet : (exec defaultBuild threeBytes ⟨1, emptyDisk, .open pathA 194 0⟩).1.isRet = true := by
    decide +kernel
  obtain ⟨r, hr⟩ := Out.ret_of_isRet hisRet
  have hret : r.ret = -1 := by
    rw [hr] at hnum
    exact hnum
  have hexec : exec defaultBuild threeBytes ⟨1, emptyDisk, .open pathA 194 0⟩ =
      (.ret r, (exec defaultBuild threeBytes ⟨1, emptyDisk, .open pathA 194 0⟩).2) := by
    rw [← hr]
  have wf : StoreWf ((threeBytes.view 1).store rows ch) := hinv.store
  have hclean : FailsClean emptyDisk threeBytes pathA 194 := by
    refine Or.inr ⟨pathA, by decide +kernel, ?_⟩
    rw [show lookup threeBytes.table pathA = some 0 by decide +kernel]
    exact Or.inl ⟨by decide, by decide, by decide⟩
  exact ⟨r, _, hexec, hret,
    (failed_open_unchanged_iff wf (by decide +kernel) hexec hret).mpr hclean⟩

/-- An `open` of a directory fails and leaves a meta bucket without a path in use. -/
theorem failed_open_leaves_bucket :
    ¬ ∀ (s s' : Sys) (pid : Nat) (env : Env) (pathname : Path) (flags mode : Nat)
      (rows : Nat → List Int) (ch : Int → List Nat) (r : Ret),
      StoreWf ((s.view pid).store rows ch) → exclusivePath pathname = false →
      hasFlag flags oAppend = false →
      exec defaultBuild s ⟨pid, env, .open pathname flags mode⟩ = (.ret r, s') → r.ret = -1 →
      Unchanged s s' := by
  intro hall
  have hexec : exec defaultBuild initSys ⟨0, dirA, .open pathA 0 0⟩ =
      (.ret { ret := -1, err := .enoent },
        (exec defaultBuild initSys ⟨0, dirA, .open pathA 0 0⟩).2) := rfl
  have hused : ((exec defaultBuild initSys ⟨0, dirA, .open pathA 0 0⟩).2.table.mb 0).inUse =
      true := by decide +kernel
  generalize (exec defaultBuild initSys ⟨0, dirA, .open pathA 0 0⟩).2 = s' at *
  have wf : StoreWf ((initSys.view 0).store (fun _ => []) (fun _ => [])) := initSys_wf.store
  have hu := hall initSys s' 0 dirA pathA 0 0 _ _ _ wf (by decide +kernel) (by decide) hexec rfl
  have hmem : (s'.table.mb 0).path ∈ tablePaths s'.table := by
    refine List.mem_map.mpr ⟨0, List.mem_filter.mpr ⟨?_, hused⟩, rfl⟩
    exact List.mem_map.mpr ⟨0, List.mem_range.mpr (by decide), rfl⟩
  rw [hu.paths] at hmem
  have hnil : tablePaths initSys.table = [] := by
    rw [tablePaths, List.map_eq_nil_iff, List.filter_eq_nil_iff]
    exact fun a _ => Bool.false_ne_true
  rw [hnil] at hmem
  cases hmem

end Spacefish
