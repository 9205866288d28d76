import Spacefish.Representation
import Spacefish.RowPaths

/-!
Names that were removed. `unlink` and `rename` edit the table alone, while `open`
and `stat` look at the disk for a path the table does not have; a removed path is
unknown afterwards when the disk does not have it either.
-/

namespace Spacefish

open LinkedArray Program

/-- The call returns or ends its process, its uploads are complete, and the data
buckets are not exhausted. -/
def Whole (e : Event) (out : Out) : Prop :=
  ¬ ShortReads e.env e.call ∧ ReturnsOrExits out ∧ out ≠ .halt (.exit .dataBucketOverUse)

/-- The kernel does not know the path, under any name for it. -/
structure OffDisk (env : Env) (p : Path) : Prop where
  path : env.realStat p = .error .enoent
  name : ∀ name : Path, name.length ≤ pathMax → absPath env name = .ok p →
    env.realStat name = .error .enoent ∧
      ∀ flags, hasFlag flags oCreat = false → env.realOpen name flags = -1

/-- The event removes the path `p`: an `unlink` that succeeds, or a `rename` that
moves a file of the store to another path. -/
def Removes (s : Sys) (e : Event) (out : Out) (p : Path) : Prop :=
  out.num = 0 ∧
    match e.call with
    | .unlink name => absPath e.env name = .ok p
    | .rename old new => absPath e.env old = .ok p ∧ absPath e.env new ≠ .ok p ∧
        (lookup s.table p).isSome
    | _ => False

/-- The event creates the path `p` again: a `rename` of another path onto it that succeeds,
or an `open` with `O_CREAT` that does not fail before it has made the file (it returns a
descriptor, finds none free, or ends its process behind the creation). -/
def Recreates (e : Event) (out : Out) (p : Path) : Prop :=
  match e.call with
  | .open name flags _ => hasFlag flags oCreat = true ∧ exclusivePath name = false ∧
      absPath e.env name = .ok p ∧ ∀ r, out = .ret r → r.ret = -1 → r.err = .emfile
  | .rename old new => absPath e.env new = .ok p ∧ absPath e.env old ≠ .ok p ∧ out.num = 0
  | _ => False

variable {w : World} {rows rows' : Nat → List Int} {env : Env} {call : Call} {out : Out}
  {t t' : MetaShm} {p q : Path} {m : Int} {h : Nat} {s s' : Sys} {e : Event}

/-- The path `p` of row `h` is in no bucket of its row. -/
structure Unnamed (t : MetaShm) (rows : Nat → List Int) (p : Path) (h : Nat) : Prop where
  wf : TableWf t rows
  hashed : hash p = .ok h
  short : p.length ≤ pathMax
  absent : findPath t p (rows h) = none

theorem TableEffect.unnamed (heff : TableEffect w rows env call out t' rows')
    (hun : Unnamed w.table rows p h) (hshort : ¬ ShortReads env call)
    (hover : out ≠ .halt (.exit .dataBucketOverUse)) (hoff : env.realStat p = .error .enoent)
    (hopen : ∀ name flags mode, call = .open name flags mode → hasFlag flags oCreat = true →
      absPath env name ≠ .ok p)
    (hrename : ∀ old new, call = .rename old new → absPath env new = .ok p →
      absPath env old ≠ .ok p → out.num ≠ 0) : Unnamed t' rows' p h := by
  refine ⟨heff.tableWf hun.wf, hun.hashed, hun.short, findPath_eq_none.mpr ?_⟩
  have hnone := findPath_eq_none.mp hun.absent
  have hh := hash_lt hun.hashed
  cases heff with
  | keep => exact hnone
  | touch he => exact fun a ha => by rw [he.path_eq, hnone a ha]
  | @make p' _ h' m _ _ hbrings hm hq =>
      obtain ⟨t₁, hc, he⟩ := hm.made
      intro a ha
      by_cases ham : a = m
      · subst ham
        rw [he.path]
        rcases hq with ⟨rfl, hlen⟩ | hno' | hno'
        · cases hsame : samePath p _ with
          | false => rfl
          | true =>
              obtain rfl := samePath_eq hun.short (Nat.le_of_lt hlen) hsame
              cases call with
              | «open» name flags mode =>
                  obtain ⟨hle, hpath, hcreat | ⟨st, hst⟩⟩ := hbrings
                  · exact absurd hpath (hopen name flags mode rfl hcreat)
                  · rw [hoff] at hst
                    cases hst
              | upload name =>
                  obtain ⟨_, st, hst⟩ := hbrings
                  rw [hoff] at hst
                  cases hst
              | _ => exact hbrings.elim
        · exact absurd hno' hshort
        · exact absurd hno' hover
      · rw [he.other a ham, (hc.same a ham).path]
        rcases mem_created.mp ha with ⟨rfl, ha' | ha'⟩ | ⟨_, ha'⟩
        · exact hnone a ha'
        · exact absurd ha' ham
        · exact hnone a ha'
  | release _ _ _ _ hr =>
      intro a ha
      obtain ⟨ham, ha⟩ := (hr.mem_iff h hh a).mp ha
      rw [(hr.same a ham).path]
      exact hnone a ha
  | rename hcall hlen hold hnew hokold hoknew hne hfind hr he hmod =>
      intro a ha
      rw [he.path_eq]
      rcases (hr.mem_iff h hh a).mp ha with ⟨rfl, rfl⟩ | ⟨ham, hao, ha⟩
      · rw [hr.moved.path]
        cases hsame : samePath p _ with
        | false => rfl
        | true =>
            have hq := absPath_length hnew hlen.2
            rw [List.take_of_length_le hq] at hsame
            obtain rfl := samePath_eq hun.short hq hsame
            have huse := hun.wf.findPath_inUse hokold hfind
            subst hcall
            refine absurd ((hmod _ huse).mpr rfl).2.1 (hrename _ _ rfl hnew ?_)
            rw [hold]
            rintro ⟨⟩
            exact hne (Except.ok.inj (hokold.symm.trans hoknew))
      · rw [(hr.same a ham hao).path]
        exact hnone a ha
  | stuck ho hn => exact hnone

/-- An `open` with `O_CREAT` of a file that the disk does not have has made it when it has
resolved it. -/
theorem openResolve_error {name : Path} {flags : Nat} (mode : Nat) (wf : TableWf w.table rows)
    (hcreat : hasFlag flags oCreat = true) {u : Errno} (hstat : env.realStat name = .error u) :
    Ends (openResolve defaultBuild env name p flags mode w)
      (fun r w' => (∃ e, r = .error e) → w'.table = w.table) (fun _ _ => True) := by
  have hcreate : Ends (createNewFile defaultBuild env p mode w)
      (fun r w' => (∃ e, r = .error e) → w'.table = w.table) (fun _ _ => True) := by
    refine (createNewFile_table wf p mode).mono ?_ (fun _ _ _ => trivial)
    rintro r w' (⟨_, htab⟩ | ⟨_, _, rfl, _⟩)
    · exact fun _ => htab
    · rintro ⟨e, he⟩
      cases he
  rw [openResolve, run_ite, if_neg (by simp [hcreat]), run_ite]
  split
  · refine lookup_ends wf (fun _ _ _ _ => trivial) (fun h hok hlook => ?_)
    cases findPath w.table p (rows h) with
    | none => exact hcreate
    | some m =>
        refine .seq (fun _ _ => .seq (fun _ _ => .seq (fun _ _ => .seq (fun _ _ => ?_))))
        rintro ⟨e, he⟩
        cases he
  · refine lookup_ends wf (fun _ _ _ _ => trivial) (fun h hok hlook => ?_)
    cases findPath w.table p (rows h) with
    | none =>
        dsimp only
        rw [hstat]
        exact hcreate
    | some m =>
        dsimp only
        rw [run_ite]
        split <;> exact fun _ => rfl

/-- An `open` with `O_CREAT` of a file that the disk does not have leaves the table alone when
it fails and not for lack of a descriptor. -/
theorem sysOpen_noCreate {name : Path} {flags : Nat} (mode : Nat) (wf : TableWf w.table rows)
    (hcreat : hasFlag flags oCreat = true) (hpath : absPath env name = .ok p)
    (hstat : name.length ≤ pathMax → env.realStat name = .error .enoent) :
    Ends (sysOpen defaultBuild env name flags mode w)
      (fun r w' => exclusivePath name = true ∨ (r.ret = -1 ∧ r.err ≠ .emfile) →
        w'.table = w.table)
      (fun e _ => exclusivePath name = true → e = .undefined) := by
  rw [sysOpen, run_ite]
  cases hexcl : exclusivePath name with
  | true =>
      rw [if_pos rfl]
      exact (openExclusive_ends name flags).mono (fun _ _ h _ => h.1) (fun _ _ h _ => h)
  | false =>
      have hrest : Ends (sysOpen defaultBuild env name flags mode w)
          (fun r w' => r.ret = -1 ∧ r.err ≠ .emfile → w'.table = w.table) (fun _ _ => True) := by
        rw [sysOpen, run_ite, if_neg (by simp [hexcl]), run_ite]
        by_cases hlen : name.length > pathMax
        · rw [if_pos hlen]
          exact fun _ => rfl
        · rw [if_neg hlen, bind_of_ok (absPath_run hpath w), ends_bind]
          refine (openResolve_error mode wf hcreat (hstat (by omega))).mono ?_ (fun _ _ h => h)
          intro r w₁ hr
          cases r with
          | error e => exact fun _ => hr ⟨e, rfl⟩
          | ok m =>
              refine .seq (fun _ w₂ => ?_)
              refine (openSlot_ends m).mono ?_ (fun _ _ _ => trivial)
              rintro r w' (⟨rfl, _⟩ | ⟨i, rfl, _⟩)
              · exact fun h => absurd rfl h.2
              · exact fun h => absurd h.1 (by dsimp only; omega)
      rw [sysOpen, run_ite, hexcl] at hrest
      refine hrest.mono (fun r w' hr hor => hr (hor.resolve_left (by simp))) ?_
      exact fun _ _ _ h => by cases h

/-- A path without a bucket stays so over any event that does not create it. -/
theorem Unnamed.step (hun : Unnamed s.table rows p h) (hwhole : Whole e out)
    (hoff : OffDisk e.env p) (hno : ¬ Recreates e out p)
    (hexec : exec defaultBuild s e = (out, s')) : ∃ rows', Unnamed s'.table rows' p h := by
  obtain ⟨hshort, hout, hover⟩ := hwhole
  by_cases hopens : ∃ name flags mode, e.call = .open name flags mode ∧
      hasFlag flags oCreat = true ∧ absPath e.env name = .ok p
  · obtain ⟨name, flags, mode, hcall, hcreat, hpath⟩ := hopens
    have hends := sysOpen_noCreate (w := s.view e.pid) mode hun.wf hcreat hpath
      (fun hlen => (hoff.name name hlen hpath).1)
    have hsame : s'.table = s.table := by
      rcases exec_ends (by rw [hcall]; exact hends) hexec with
        ⟨r, w', rfl, rfl, hr⟩ | ⟨u, w', rfl, rfl, hu⟩
      · refine hr (or_iff_not_imp_left.mpr (fun hexcl => ?_))
        by_contra hfail
        refine hno ?_
        rw [Recreates, hcall]
        refine ⟨hcreat, by simpa using hexcl, hpath, fun r' hr' hret => ?_⟩
        obtain rfl := Out.ret.inj hr'
        exact by_contra fun herr => hfail ⟨hret, herr⟩
      · refine absurd ?_ hno
        rw [Recreates, hcall]
        refine ⟨hcreat, ?_, hpath, fun r' hr' => by cases hr'⟩
        by_contra hexcl
        obtain rfl := hu (by simpa using hexcl)
        exact hout
    exact ⟨rows, hsame ▸ hun⟩
  · obtain ⟨rows', heff⟩ := exec_table hun.wf hexec hout
    refine ⟨rows', heff.unnamed hun hshort hover hoff.path ?_ ?_⟩
    · exact fun name flags mode hcall hcreat hpath =>
        hopens ⟨name, flags, mode, hcall, hcreat, hpath⟩
    · intro old new hcall hnew hold hzero
      refine hno ?_
      rw [Recreates, hcall]
      exact ⟨hnew, hold, hzero⟩

/-! The removal. -/

theorem sysUnlink_zero (env : Env) (wf : TableWf w.table rows) (name : Path) :
    Ends (sysUnlink env name w)
      (fun r w' => r.ret = 0 → name.length ≤ pathMax ∧ ∃ p h m rows', absPath env name = .ok p ∧
        hash p = .ok h ∧ findPath w.table p (rows h) = some m ∧
        Released w.table w'.table rows rows' m)
      (fun _ _ => True) := by
  unfold sysUnlink
  rw [run_ite]
  split
  · exact fun h => absurd h (by decide)
  · next hlen =>
    rcases absPath_cases env name with ⟨p, hpath, hrun⟩ | ⟨e, he, _, hrun⟩
    · rw [bind_of_ok (hrun w), ends_bind, onMeta, ends_zoom]
      refine (releaseMetaBucket_ends wf p).mono ?_ (fun _ _ _ => trivial)
      rintro r t' ⟨h, hok, ⟨rfl, rfl, _⟩ | ⟨m, rows', rfl, hfind, hr⟩⟩
      · exact fun h => absurd h (by decide)
      · exact fun _ => ⟨by omega, p, h, m, rows', hpath, hok, hfind, hr⟩
    · rw [bind_of_error (hrun w)]
      exact trivial

theorem Removes.unnamed (wf : TableWf s.table rows)
    (hd : RowsDistinct s.table rows) (hexec : exec defaultBuild s e = (out, s'))
    (hout : ReturnsOrExits out) (hrem : Removes s e out p) :
    ∃ rows' h, Unnamed s'.table rows' p h := by
  -- whatever else is left in the row of `p` carries another path
  have honly : ∀ {h m}, hash p = .ok h → findPath s.table p (rows h) = some m →
      ∀ a ∈ rows h, a ≠ m → samePath p (s.table.mb a).path = false := by
    intro h m hok hfind a ha ham
    cases hsame : samePath p (s.table.mb a).path with
    | false => rfl
    | true =>
        have := hd.findPath_eq (hash_lt hok) ha hsame
        rw [hfind] at this
        exact absurd (Option.some.inj this).symm ham
  obtain ⟨rows₁, heff⟩ := exec_table wf hexec hout
  obtain ⟨hzero, hwhy⟩ := hrem
  cases hcall : e.call with
  | unlink name =>
      rw [hcall] at hwhy
      have hends := sysUnlink_zero (w := s.view e.pid) e.env wf name
      rcases exec_ends (by rw [hcall]; exact hends) hexec with
        ⟨r, w', rfl, rfl, hunlinked⟩ | ⟨u, w', rfl, _⟩
      · obtain ⟨hlen, p', h, m, rows', hpath, hok, hfind, hr⟩ := hunlinked hzero
        rw [hwhy] at hpath
        obtain rfl := Except.ok.inj hpath
        refine ⟨rows', h, hr.wf, hok, absPath_length hwhy hlen, findPath_eq_none.mpr ?_⟩
        intro a ha
        obtain ⟨ham, ha⟩ := (hr.mem_iff h (hash_lt hok) a).mp ha
        rw [show (s.put e.pid w').table = w'.table from rfl, (hr.same a ham).path]
        exact honly hok hfind a ha ham
      · cases hzero
  | rename old new =>
      rw [hcall] at hwhy heff
      obtain ⟨hold, hnew, hsome⟩ := hwhy
      obtain ⟨m, hlook⟩ := Option.isSome_iff_exists.mp hsome
      have hne : old ≠ new := by
        rintro rfl
        exact hnew hold
      have hmod : Modifies (s.view e.pid) e.env (.rename old new) out m :=
        ⟨hne, hzero, p, hold, hlook⟩
      obtain ⟨_, hm, hokm, hfoundm⟩ := getMbucket_of_lookup wf hlook
      have huse : (s.table.mb m).inUse = true := wf.findPath_inUse hokm hfoundm
      generalize s'.table = t' at heff ⊢
      cases heff with
      | keep hno => exact absurd hmod (hno m huse)
      | touch _ _ hstay => exact absurd ((hstay old new rfl).symm.trans hold) hnew
      | make hbrings => exact hbrings.elim
      | release hno => cases hno
      | stuck _ _ hno => exact absurd hmod (hno m huse)
      | @rename _ _ p' q ho hn m' t₁ _ _ hcall' hlen hold' hnew' hokold hoknew hrow hfind hr he =>
          cases hcall'
          rw [hold] at hold'
          obtain rfl := Except.ok.inj hold'
          refine ⟨rows₁, ho, he.tableWf hr.wf, hokold, absPath_length hold hlen.1,
            findPath_eq_none.mpr ?_⟩
          intro a ha
          rw [he.path_eq]
          rcases (hr.mem_iff ho (hash_lt hokold) a).mp ha with ⟨_, heq⟩ | ⟨ham, hao, ha⟩
          · exact absurd heq hrow
          · rw [(hr.same a ham hao).path]
            exact honly hokold hfind a ha ham
  | _ =>
      rw [hcall] at hwhy
      exact hwhy.elim

/-! Afterwards. -/

theorem Unnamed.lookup_none (hun : Unnamed w.table rows p h) (hidle : RowIdle w.table h) :
    onMeta (getMbucket p) w = .ok none w := by
  have hget : getMbucket p w.table = .ok none w.table := by
    rw [hun.wf.getMbucket_eq hun.hashed hidle, hun.absent]
  exact onMeta_of_ok hget

theorem Unnamed.sysOpen_fails {name : Path} {flags : Nat} (mode : Nat)
    (hun : Unnamed w.table rows p h) (hidle : RowIdle w.table h) (hoff : OffDisk env p)
    (hlen : name.length ≤ pathMax) (hpath : absPath env name = .ok p)
    (hcreat : hasFlag flags oCreat = false)
    (herr : exclusivePath name = true → env.realErrno = .enoent) :
    sysOpen defaultBuild env name flags mode w = .ok { ret := -1, err := .enoent } w := by
  rw [sysOpen, run_ite]
  cases hexcl : exclusivePath name with
  | true =>
      have hopen := (hoff.name name hlen hpath).2 flags hcreat
      rw [if_pos rfl, hopen, herr hexcl]
      rfl
  | false =>
      have hup : uploadFile defaultBuild env p w = .ok (.error .enoent) w := by
        rw [uploadFile, hoff.path]
        rfl
      rw [if_neg (by simp), run_ite, if_neg (by omega), bind_of_ok (absPath_run hpath w),
        openResolve, if_pos (by simp [hcreat]), bind_assoc,
        bind_of_ok (hun.lookup_none hidle)]
      dsimp only
      rw [bind_of_ok hup]
      rfl

theorem Unnamed.sysXstat_fails {name : Path} (hun : Unnamed w.table rows p h)
    (hidle : RowIdle w.table h) (hoff : OffDisk env p) (hlen : name.length ≤ pathMax)
    (hpath : absPath env name = .ok p) :
    sysXstat env name w = .ok { ret := -1, err := .enoent } w := by
  rw [sysXstat, statPath, run_ite, if_neg (by omega), bind_of_ok (absPath_run hpath w),
    bind_of_ok (hun.lookup_none hidle)]
  dsimp only
  rw [(hoff.name name hlen hpath).1]
  rfl

theorem run_rowsDistinct {s : Sys} (hrun : Run defaultBuild (fun _ e out => Whole e out) initSys s) :
    ∃ rows, TableWf s.table rows ∧ RowsDistinct s.table rows := by
  refine hrun.invariant (P := fun s => ∃ rows, TableWf s.table rows ∧ RowsDistinct s.table rows)
    ⟨fun _ => [], initSys_wf.store.table, fun _ _ _ ha => absurd ha (by simp)⟩ ?_
  rintro s e out s' ⟨rows, wf, hd⟩ ⟨hshort, hout, hover⟩ hexec
  obtain ⟨rows', heff⟩ := exec_table wf hexec hout
  exact ⟨rows', heff.tableWf wf, heff.rowsDistinct wf hshort hover hd⟩

/-- A path that was removed and is not on the disk stays unknown until a call
creates it again. -/
theorem removed_stays_removed {s₀ s₁ s : Sys} {e₀ : Event} {out₀ : Out} {p : Path}
    (hrun : Run defaultBuild (fun _ e out => Whole e out) initSys s₀) (hwhole : Whole e₀ out₀)
    (hexec : exec defaultBuild s₀ e₀ = (out₀, s₁)) (hremove : Removes s₀ e₀ out₀ p)
    (hrest : Run defaultBuild
      (fun _ e out => Whole e out ∧ OffDisk e.env p ∧ ¬ Recreates e out p) s₁ s)
    (hidle : ∀ h, hash p = .ok h → RowIdle s.table h) {env : Env} (hoff : OffDisk env p)
    (pid : Nat) {name : Path} (hlen : name.length ≤ pathMax)
    (hpath : absPath env name = .ok p) :
    (∀ flags mode, hasFlag flags oCreat = false →
      (exclusivePath name = true → env.realErrno = .enoent) →
      (exec defaultBuild s ⟨pid, env, .open name flags mode⟩).1 =
        .ret { ret := -1, err := .enoent }) ∧
    (exec defaultBuild s ⟨pid, env, .xstat name⟩).1 = .ret { ret := -1, err := .enoent } := by
  obtain ⟨rows₀, wf₀, hd₀⟩ := run_rowsDistinct hrun
  have hun₁ := hremove.unnamed wf₀ hd₀ hexec hwhole.2.1
  obtain ⟨rows, h, hun⟩ := hrest.invariant (P := fun s => ∃ rows h, Unnamed s.table rows p h) hun₁ (by
    rintro s e out s' ⟨rows, h, hun⟩ ⟨hwhole, hoff, hno⟩ hexec
    obtain ⟨rows', hun'⟩ := hun.step hwhole hoff hno hexec
    exact ⟨rows', h, hun'⟩)
  have hrow := hidle h hun.hashed
  have hview : Unnamed (s.view pid).table rows p h := hun
  refine ⟨fun flags mode hcreat herr => ?_, ?_⟩
  · simp only [exec, callOp]
    rw [hview.sysOpen_fails mode hrow hoff hlen hpath hcreat herr]
  · simp only [exec, callOp]
    rw [hview.sysXstat_fails hrow hoff hlen hpath]

/-- The path `/a` on an empty disk: it is created, removed, renamed to itself and looked for. -/
theorem removed_stays_removed_pathA :
    (exec defaultBuild (afterCalls [.open pathA 66 0, .unlink pathA, .rename pathA pathA])
      ⟨0, emptyDisk, .xstat pathA⟩).1 = .ret { ret := -1, err := .enoent } := by
  have hallow : ∀ c : Call, ∀ out : Out, out.isRet = true → Whole ⟨0, emptyDisk, c⟩ out :=
    fun c out hret => ⟨emptyDisk_complete c, (Out.isRet_spec hret).1, (Out.isRet_spec hret).2 _⟩
  have hrun : Run defaultBuild (fun _ e out => Whole e out) initSys
      (afterCalls [.open pathA 66 0]) :=
    run_of_allReturn (by decide +kernel) (fun c _ _ out hret => hallow c out hret)
  have hoff : OffDisk emptyDisk pathA := ⟨rfl, fun _ _ _ => ⟨rfl, fun _ _ => rfl⟩⟩
  have hexec : exec defaultBuild (afterCalls [.open pathA 66 0]) ⟨0, emptyDisk, .unlink pathA⟩ =
      ((exec defaultBuild (afterCalls [.open pathA 66 0]) ⟨0, emptyDisk, .unlink pathA⟩).1,
        afterCalls [.open pathA 66 0, .unlink pathA]) := rfl
  have hrest : Step defaultBuild
      (fun _ e out => Whole e out ∧ OffDisk e.env pathA ∧ ¬ Recreates e out pathA)
      (afterCalls [.open pathA 66 0, .unlink pathA])
      (afterCalls [.open pathA 66 0, .unlink pathA, .rename pathA pathA]) :=
    ⟨⟨0, emptyDisk, .rename pathA pathA⟩, _, rfl, hallow _ _ (by decide +kernel), hoff,
      fun h => h.2.1 rfl⟩
  have hidle : ∀ h, hash pathA = .ok h →
      RowIdle (afterCalls [.open pathA 66 0, .unlink pathA, .rename pathA pathA]).table h := by
    rintro h ⟨⟩
    unfold RowIdle
    decide +kernel
  exact (removed_stays_removed hrun (hallow _ _ (by decide +kernel)) hexec
    ⟨by decide +kernel, rfl⟩ (.single hrest) hidle hoff 0 (by decide +kernel) rfl).2

/-- A disk with an empty file `/a`. -/
def diskA : Env :=
  { emptyDisk with
    realStat := fun p => if p = pathA then .ok zeroStat else .error .enoent
    realOpen := fun p _ => if p = pathA then 3 else -1
    realRead := fun _ _ => (0, [])
    realRead_le := fun _ _ => by decide
    realRead_length := fun _ _ => rfl }

theorem diskA_complete (c : Call) : ¬ ShortReads diskA c := by
  have hread : ∀ p, ¬ ShortRead diskA p := by
    rintro p ⟨st, hst, _, hne⟩
    by_cases hp : p = pathA
    · subst hp
      obtain rfl : zeroStat = st := Except.ok.inj hst
      exact hne rfl
    · have hno : diskA.realStat p = .error .enoent := if_neg hp
      rw [hno] at hst
      cases hst
  cases c with
  | «open» name flags mode =>
      rintro ⟨p, _, hshort⟩
      exact hread p hshort
  | upload name => exact hread name
  | _ => exact id

/-- The file `/a` of the disk in the store, and removed from it. -/
def uploadedA : Sys := (exec defaultBuild initSys ⟨0, diskA, .open pathA 0 0⟩).2

def unlinkedA : Sys := (exec defaultBuild uploadedA ⟨0, diskA, .unlink pathA⟩).2

/-- A file of the disk that was removed is found there again. -/
theorem removed_name_returns : ¬ ∀ (env : Env) (s₀ s₁ s : Sys) (e₀ : Event) (out₀ : Out) (p : Path),
    Run defaultBuild (fun _ e out => e.env = env ∧ Whole e out) initSys s₀ →
    e₀.env = env → Whole e₀ out₀ → exec defaultBuild s₀ e₀ = (out₀, s₁) →
    Removes s₀ e₀ out₀ p →
    Run defaultBuild (fun _ e out => e.env = env ∧ Whole e out ∧ ¬ Recreates e out p) s₁ s →
    (∀ h, hash p = .ok h → RowIdle s.table h) →
    ∀ (pid flags : Nat) (name : Path), name.length ≤ pathMax → absPath env name = .ok p →
      hasFlag flags oCreat = false → exclusivePath name = false →
      (exec defaultBuild s ⟨pid, env, .open name flags 0⟩).1 =
        .ret { ret := -1, err := .enoent } := by
  intro hall
  have hallow : ∀ c : Call, ∀ out : Out, out.isRet = true → Whole ⟨0, diskA, c⟩ out :=
    fun c out hret => ⟨diskA_complete c, (Out.isRet_spec hret).1, (Out.isRet_spec hret).2 _⟩
  have hup : Step defaultBuild (fun _ e out => e.env = diskA ∧ Whole e out) initSys uploadedA :=
    ⟨⟨0, diskA, .open pathA 0 0⟩, _, rfl, rfl, hallow _ _ (by decide +kernel)⟩
  have hidle : ∀ h, hash pathA = .ok h → RowIdle unlinkedA.table h := by
    rintro h ⟨⟩
    unfold RowIdle
    decide +kernel
  have hexec : exec defaultBuild uploadedA ⟨0, diskA, .unlink pathA⟩ =
      ((exec defaultBuild uploadedA ⟨0, diskA, .unlink pathA⟩).1, unlinkedA) := rfl
  have hopen := hall diskA uploadedA unlinkedA unlinkedA ⟨0, diskA, .unlink pathA⟩ _ pathA
    (.single hup) rfl (hallow _ _ (by decide +kernel)) hexec ⟨by decide +kernel, rfl⟩ .refl hidle
    0 0 pathA (by decide +kernel) rfl rfl rfl
  have hnum : (exec defaultBuild unlinkedA ⟨0, diskA, .open pathA 0 0⟩).1.num = 1025 := by
    decide +kernel
  rw [hopen] at hnum
  exact absurd hnum (by decide)

end Spacefish
