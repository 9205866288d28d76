import Spacefish.TableCalls

/-!
What making a file and `open` do to the metadata table.
-/

namespace Spacefish

open LinkedArray Program

variable {w : World} {rows : Nat → List Int} {env : Env} {pathname p q : Path}
  {flags mode h : Nat} {m : Int} {t' : MetaShm}

/-! Making a file. -/

theorem bucketIxAllocAllRandom_stop (rand : Nat) (d : DataShm) :
    Ends (bucketIxAllocAllRandom rand d) (fun _ _ => True)
      (fun e _ => e = .exit .dataBucketOverUse) := by
  rw [bucketIxAllocAllRandom, run_get_bind, run_ite]
  split
  · exact rfl
  · split
    · exact trivial
    · exact rfl

theorem uploadRounds_table (b : Build) (env : Env) (buf : List Byte) (n i prev : Nat)
    (huse : (w.table.mb m).inUse = true) :
    Ends (uploadRounds b env m buf n i prev w)
      (fun _ w' => Touched w.table w'.table m (w.table.mb m).path false)
      (fun _ w' => Touched w.table w'.table m (w.table.mb m).path false) := by
  induction n generalizing i prev w with
  | zero => exact .refl _ _
  | succ n ih =>
      rw [uploadRounds]
      refine (onData_frames _).then (fun ix w₁ htab => ?_) (fun e w₁ htab => htab ▸ .refl _ _)
      have hrest : ∀ w₂ : World, Touched w.table w₂.table m (w.table.mb m).path false →
          Ends ((do
              let _ ← onData (getDbucketPtr ix)
              onData (modify (·.set ix (fun db =>
                { db with buf := Buffer.memcpy db.buf 0
                            ((buf.drop (i * dbucketBufSize)).take dbucketBufSize)
                          bytes := dbucketBufSize })))
              uploadRounds b env m buf n (i + 1) ix : Op World Nat) w₂)
            (fun _ w' => Touched w.table w'.table m (w.table.mb m).path false)
            (fun _ w' => Touched w.table w'.table m (w.table.mb m).path false) := by
        intro w₂ he
        refine (onData_frames _).then (fun _ w₃ h₃ => ?_) (fun e w₃ h₃ => h₃ ▸ he)
        refine (onData_frames _).then (fun _ w₄ h₄ => ?_) (fun e w₄ h₄ => by rw [h₄, h₃]; exact he)
        have he₄ : Touched w.table w₄.table m (w.table.mb m).path false := by
          rw [h₄, h₃]
          exact he
        refine (ih _ _ (he₄.inUse.trans huse)).mono ?_ ?_
        · intro _ w' h'
          rw [he₄.path] at h'
          exact he₄.trans h'
        · intro _ w' h'
          rw [he₄.path] at h'
          exact he₄.trans h'
      by_cases hi : i = 0
      · rw [if_pos hi, run_setMb]
        refine hrest _ ?_
        dsimp only
        rw [htab]
        exact .setMb rfl rfl rfl (fun hfree => by rw [huse] at hfree; cases hfree)
          (Bool.and_true _).symm
      · rw [if_neg hi]
        refine (onData_frames _).then (fun _ w₂ h₂ => hrest w₂ ?_) (fun e w₂ h₂ => ?_)
        · rw [h₂, htab]
          exact .refl _ _
        · rw [h₂, htab]
          exact .refl _ _

theorem uploadFirst_table (b : Build) (rounds : Int) (huse : (w.table.mb m).inUse = true) :
    Ends (uploadFirst b env m rounds w)
      (fun _ w' => Touched w.table w'.table m (w.table.mb m).path false)
      (fun _ w' => Touched w.table w'.table m (w.table.mb m).path false) := by
  unfold uploadFirst
  rw [run_ite]
  split
  · refine (onData_frames _).then (fun ix w₁ h₁ => ?_) (fun e w₁ h₁ => h₁ ▸ .refl _ _)
    refine (onData_frames _).then (fun _ w₂ h₂ => ?_) (fun e w₂ h₂ => h₁ ▸ h₂ ▸ .refl _ _)
    refine (onData_frames _).then (fun _ w₃ h₃ => ?_) (fun e w₃ h₃ => h₁ ▸ h₂ ▸ h₃ ▸ .refl _ _)
    rw [run_setMb, ends_pure]
    dsimp only
    rw [h₃, h₂, h₁]
    exact .setMb rfl rfl rfl (fun hfree => by rw [huse] at hfree; cases hfree)
      (Bool.and_true _).symm
  · exact .refl _ _

theorem uploadTail_frames (b : Build) (buf : List Byte) (rounds : Int) (off last : Nat) :
    Frames World.table (uploadTail b env buf rounds off last) := by
  unfold uploadTail
  refine .ite (Keeps.pure _).frames (.ite (Keeps.throw _).frames
    (Keeps.get.frames.bind (fun w => .ite (onData_frames _) ?_)))
  exact (onData_frames _).bind (fun _ => (onData_frames _).bind (fun _ =>
    (onData_frames _).bind (fun _ => onData_frames _)))

theorem uploadData_table (b : Build) (env : Env) (buf : List Byte) (size : Nat)
    (huse : (w.table.mb m).inUse = true) :
    Ends (uploadData b env m buf size w)
      (fun _ w' => Touched w.table w'.table m (w.table.mb m).path false)
      (fun _ w' => Touched w.table w'.table m (w.table.mb m).path false) := by
  unfold uploadData
  rw [ends_bind]
  refine (uploadFirst_table b _ huse).mono (fun first w₁ he₁ => ?_) (fun _ _ he => he)
  have hrounds := uploadRounds_table (w := w₁) b env buf
    (toInt (size / dbucketBufSize : Nat)).toNat 0 first (he₁.inUse.trans huse)
  rw [he₁.path] at hrounds
  rw [ends_bind]
  refine hrounds.mono (fun last w₂ he₂ => ?_) (fun _ _ he₂ => he₁.trans he₂)
  have he := he₁.trans he₂
  refine (uploadTail_frames b _ _ _ _ w₂).mono (fun _ w₃ h₃ => ?_) (fun _ w₃ h₃ => ?_)
  · rw [h₃]
    exact he
  · rw [h₃]
    exact he

/-- `upload_file` takes a bucket once the file is open on the disk; the path is
stored unless the read is short. -/
theorem uploadFile_table (wf : TableWf w.table rows) (p : Path) :
    Ends (uploadFile defaultBuild env p w)
      (fun r w' => ((∃ e, r = .error e) ∧ w'.table = w.table) ∨
        (∃ st, env.realStat p = .ok st) ∧
          (((∃ e, r = .error e) ∧ ShortRead env p ∧
              ∃ h m q, Made w.table rows p h m q false w'.table) ∨
            ∃ h m, r = .ok m ∧ p.length < pathMax ∧ Made w.table rows p h m p false w'.table))
      (fun e w' => e = .hang ∨ e = .undefined ∨ w'.table = w.table ∨
        (∃ st, env.realStat p = .ok st) ∧ p.length < pathMax ∧
          ∃ h m, Made w.table rows p h m p false w'.table) := by
  unfold uploadFile
  cases hstat : env.realStat p with
  | error e => exact Or.inl ⟨⟨e, rfl⟩, rfl⟩
  | ok st =>
      dsimp only
      rw [run_ite]
      by_cases hopen : env.realOpen p 0 < 0
      · rw [if_pos hopen]
        exact Or.inl ⟨⟨_, rfl⟩, rfl⟩
      · rw [if_neg hopen, ends_bind, onMeta, ends_zoom]
        refine (strictCreateMbucket_ends wf env.mrand p).mono ?_ ?_
        · rintro r t₁ ⟨h, hok, ⟨rfl, rfl, _⟩ | ⟨m, rfl, hnone, hc⟩⟩
          · exact Or.inl ⟨⟨_, rfl⟩, rfl⟩
          · have huse : (t₁.mb m).inUse = true := by rw [hc.new.inUse]
            dsimp only
            rw [run_ite]
            by_cases hread : (env.realRead (env.realOpen p 0) st.stSize).1 ≠ st.stSize
            · rw [if_pos hread]
              exact Or.inr ⟨⟨st, rfl⟩, Or.inl ⟨⟨_, rfl⟩, ⟨st, hstat, by omega, hread⟩, h, m, _, hok,
                hnone, t₁, hc, .refl _ _⟩⟩
            · rw [if_neg hread]
              by_cases hp : p.length < pathMax
              · rw [strcpyPath_eq hp, run_setMb, ends_bind]
                dsimp only
                rw [setMb_setMb]
                have he : Touched t₁ (t₁.setMb m (fun b => { b with path := p, s := st })) m p
                    false :=
                  .setMb rfl rfl rfl (fun _ => rfl) (Bool.and_true _).symm
                have hdata := uploadData_table
                  (w := { w with table := t₁.setMb m (fun b => { b with path := p, s := st }) })
                  defaultBuild env
                  (env.realRead (env.realOpen p 0) st.stSize).2 st.stSize (he.inUse.trans huse)
                dsimp only at hdata
                rw [he.path] at hdata
                refine hdata.mono (fun _ w' he' => ?_) (fun e w' he' => ?_)
                · exact Or.inr ⟨⟨st, rfl⟩, Or.inr ⟨h, m, rfl, hp, hok, hnone, t₁, hc, he.trans he'⟩⟩
                · exact Or.inr (Or.inr (Or.inr ⟨⟨st, rfl⟩, hp, h, m, hok, hnone, t₁, hc,
                    he.trans he'⟩))
              · rw [strcpyPath_undef hp]
                exact Or.inr (Or.inl rfl)
        · rintro e t₁ (⟨rfl, _⟩ | ⟨rfl, rfl, _⟩)
          · exact Or.inl rfl
          · exact Or.inr (Or.inr (Or.inl rfl))

theorem createNewFile_table (wf : TableWf w.table rows) (p : Path) (mode : Nat) :
    Ends (createNewFile defaultBuild env p mode w)
      (fun r w' => ((∃ e, r = .error e) ∧ w'.table = w.table) ∨
        ∃ h m, r = .ok m ∧ p.length < pathMax ∧ Made w.table rows p h m p true w'.table)
      (fun e w' => e = .hang ∨ e = .undefined ∨ w'.table = w.table ∨
        (e = .exit .dataBucketOverUse ∧ ∃ h m q, Made w.table rows p h m q false w'.table)) := by
  unfold createNewFile
  rw [ends_bind, onMeta, ends_zoom]
  refine (strictCreateMbucket_ends wf env.mrand p).mono ?_ ?_
  · rintro r t₁ ⟨h, hok, ⟨rfl, rfl, _⟩ | ⟨m, rfl, hnone, hc⟩⟩
    · exact Or.inl ⟨⟨_, rfl⟩, rfl⟩
    · have huse : (t₁.mb m).inUse = true := by rw [hc.new.inUse]
      change Ends ((onData (bucketIxAllocAllRandom (env.rand 0)) >>= _) { w with table := t₁ }) _ _
      rw [ends_bind, onData, ends_zoom]
      refine (bucketIxAllocAllRandom_stop (env.rand 0) w.data).mono (fun ix d _ => ?_) ?_
      · rw [run_setMb]
        by_cases hp : p.length < pathMax
        · rw [strcpyPath_eq hp, run_setMb, mbModify, run_setMb, ends_pure]
          dsimp only
          rw [setMb_setMb, setMb_setMb, setMb_setMb]
          refine Or.inr ⟨h, m, rfl, hp, hok, hnone, t₁, hc, ?_⟩
          exact .setMb rfl rfl rfl (fun hfree => by rw [huse] at hfree; cases hfree)
            (Bool.and_false _).symm
        · rw [strcpyPath_undef hp]
          exact Or.inr (Or.inl rfl)
      · rintro e d rfl
        exact Or.inr (Or.inr (Or.inr ⟨rfl, h, m, _, hok, hnone, t₁, hc, .refl _ _⟩))
  · rintro e t₁ (⟨rfl, _⟩ | ⟨rfl, rfl, _⟩)
    · exact Or.inl rfl
    · exact Or.inr (Or.inr (Or.inl rfl))

/-! `open`. -/

theorem lookup_of_run {t : MetaShm} {r : Option Int} (hrun : getMbucket p t = .ok r t') :
    lookup t p = r := by
  rw [lookup, hrun]

/-- What follows a lookup starts from the same table. -/
theorem lookup_ends {α : Type} {k : Option Int → Op World α} {Q : α → World → Prop}
    {E : Halt → World → Prop} (wf : TableWf w.table rows)
    (hE : ∀ e t', RowStop w.table p e t' → lookup w.table p = none → E e { w with table := t' })
    (hk : ∀ h, hash p = .ok h → lookup w.table p = findPath w.table p (rows h) →
      Ends (k (findPath w.table p (rows h)) w) Q E) :
    Ends ((onMeta (getMbucket p) >>= k) w) Q E := by
  have hends := getMbucket_ends wf p
  rw [ends_bind, onMeta, ends_zoom]
  cases hrun : getMbucket p w.table with
  | ok r t' =>
      rw [hrun] at hends
      obtain ⟨rfl, h, hok, rfl⟩ := hends
      exact hk h hok (lookup_of_run hrun)
  | error e t' =>
      rw [hrun] at hends
      exact hE e t' hends (by rw [lookup, hrun])

/-- The file `m` is there, and `open` may still move its cursor. -/
def OpenReady (w : World) (rows : Nat → List Int) (env : Env) (call : Call) (m : Int)
    (t' : MetaShm) : Prop :=
  ∀ out t'', out ≠ .halt (.exit .dataBucketOverUse) →
    Touched t' t'' m (t'.mb m).path false → LeavesTable w rows env call out t''

/-- What the first half of `open` leaves. -/
def OpenTable (w : World) (rows : Nat → List Int) (env : Env) (call : Call)
    (r : Except Errno Int) (w' : World) : Prop :=
  match r with
  | .error _ => ∀ r, LeavesTable w rows env call (.ret r) w'.table
  | .ok m => OpenReady w rows env call m w'.table

theorem openFound_table (hflag : truncates flags = false) :
    OpenReady w rows env (.open pathname flags mode) m w.table := by
  intro out t'' _ he
  refine .touch m false he (fun a _ => ⟨?_, fun h => absurd h.2 (by simp)⟩) (fun _ _ h => by cases h)
  rintro ⟨htrunc, _⟩
  rw [hflag] at htrunc
  cases htrunc

theorem notLeads (flags mode : Nat) (hpath : absPath env pathname = .ok p) (hnone : lookup w.table p = none)
    (out : Out) (a : Int) : ¬ Modifies w env (.open pathname flags mode) out a := by
  rintro ⟨_, ⟨_, _, p', hpath', hfind⟩, _⟩
  rw [hpath] at hpath'
  obtain rfl := Except.ok.inj hpath'
  rw [hnone] at hfind
  cases hfind

theorem openUpload_table (wf : TableWf w.table rows) (hlen : pathname.length ≤ pathMax)
    (hpath : absPath env pathname = .ok p)
    (hnone : lookup w.table p = none)
    (hdisk : hasFlag flags oCreat = true →
      oTruncCheck flags = false ∧ ∃ st, env.realStat pathname = .ok st) :
    Ends (uploadFile defaultBuild env p w)
      (OpenTable w rows env (.open pathname flags mode))
      (fun e w' => LeavesTable w rows env (.open pathname flags mode) (.halt e) w'.table) := by
  have hmod := notLeads flags mode hpath hnone
  have hcreate : ∀ out, ¬ Creates env (.open pathname flags mode) out := by
    rintro out ⟨hcreat, hwhy, _⟩
    obtain ⟨htrunc, st, hst⟩ := hdisk hcreat
    simp [htrunc, hst, Except.toOption] at hwhy
  refine (uploadFile_table wf p).mono ?_ ?_
  · rintro r w' (⟨⟨e, rfl⟩, htab⟩ | ⟨hst, ⟨⟨e, rfl⟩, hshort, h, m, q, hm⟩ | ⟨h, m, rfl, hshort, hm⟩⟩)
    · exact fun r => .keep htab (fun a _ => hmod _ a)
    · exact fun r => Or.inr (Or.inr ⟨_, .make ⟨hlen, hpath, Or.inr hst⟩ hm
        (Or.inr (Or.inl ⟨p, hpath, hshort⟩)) (iff_of_false (by simp) (hcreate _))
        (fun a _ => hmod _ a)⟩)
    · intro out t'' _ he
      obtain ⟨t₁, hc, he₁⟩ := hm.made
      have hm' : Made w.table rows p h m p false t'' :=
        ⟨hm.hashed, hm.absent, t₁, hc, he₁.path ▸ he₁.trans he⟩
      exact Or.inr (Or.inr ⟨_, .make ⟨hlen, hpath, Or.inr hst⟩ hm' (Or.inl ⟨rfl, hshort⟩)
        (iff_of_false (by simp) (hcreate _)) (fun a _ => hmod _ a)⟩)
  · rintro e w' (rfl | rfl | htab | ⟨hst, hshort, h, m, hm⟩)
    · exact Or.inl rfl
    · exact Or.inr (Or.inl rfl)
    · exact .keep htab (fun a _ => hmod _ a)
    · exact Or.inr (Or.inr ⟨_, .make ⟨hlen, hpath, Or.inr hst⟩ hm (Or.inl ⟨rfl, hshort⟩)
        (iff_of_false (by simp) (hcreate _)) (fun a _ => hmod _ a)⟩)

theorem openCreate_table (wf : TableWf w.table rows) (hlen : pathname.length ≤ pathMax)
    (hpath : absPath env pathname = .ok p)
    (hnone : lookup w.table p = none) (hcreat : hasFlag flags oCreat = true)
    (hwhy : oTruncCheck flags = true ∨ (env.realStat pathname).toOption = none) :
    Ends (createNewFile defaultBuild env p mode w)
      (OpenTable w rows env (.open pathname flags mode))
      (fun e w' => LeavesTable w rows env (.open pathname flags mode) (.halt e) w'.table) := by
  have hmod := notLeads flags mode hpath hnone
  refine (createNewFile_table wf p mode).mono ?_ ?_
  · rintro r w' (⟨⟨e, rfl⟩, htab⟩ | ⟨h, m, rfl, hshort, hm⟩)
    · exact fun r => .keep htab (fun a _ => hmod _ a)
    · intro out t'' hover he
      obtain ⟨t₁, hc, he₁⟩ := hm.made
      have hm' : Made w.table rows p h m p true t'' :=
        ⟨hm.hashed, hm.absent, t₁, hc, he₁.path ▸ he₁.trans he⟩
      exact Or.inr (Or.inr ⟨_, .make ⟨hlen, hpath, Or.inl hcreat⟩ hm' (Or.inl ⟨rfl, hshort⟩)
        (iff_of_true rfl ⟨hcreat, hwhy, hover⟩) (fun a _ => hmod _ a)⟩)
  · rintro e w' (rfl | rfl | htab | ⟨rfl, h, m, q, hm⟩)
    · exact Or.inl rfl
    · exact Or.inr (Or.inl rfl)
    · exact .keep htab (fun a _ => hmod _ a)
    · exact Or.inr (Or.inr ⟨_, .make ⟨hlen, hpath, Or.inl hcreat⟩ hm (Or.inr (Or.inr rfl))
        (iff_of_false (by simp) (fun h => h.2.2 rfl)) (fun a _ => hmod _ a)⟩)

theorem openTrunc_table (hexcl : exclusivePath pathname = false)
    (hlen : pathname.length ≤ pathMax) (hpath : absPath env pathname = .ok p)
    (hfind : lookup w.table p = some m) (hflag : truncates flags = true) :
    Ends ((do
        onData (truncChain defaultBuild (w.table.mb m).firstDbucket)
        setMb m (fun b =>
          { b with s := stamp env { b.s with stSize := 0, stBlocks := 1 } (stMod ||| stChg) })
        mbModify m
        return .ok m : Op World (Except Errno Int)) w)
      (OpenTable w rows env (.open pathname flags mode))
      (fun e w' => LeavesTable w rows env (.open pathname flags mode) (.halt e) w'.table) := by
  have honly : ∀ out a, Modifies w env (.open pathname flags mode) out a → a = m := by
    rintro out a ⟨_, ⟨_, _, p', hpath', hfind'⟩, _⟩
    rw [hpath] at hpath'
    obtain rfl := Except.ok.inj hpath'
    exact Option.some.inj (hfind'.symm.trans hfind)
  cases hrun : truncChain defaultBuild (w.table.mb m).firstDbucket w.data with
  | error e d =>
      rw [bind_of_error (onData_of_error hrun)]
      refine .keep rfl (fun a _ h => ?_)
      obtain rfl := honly _ a h
      obtain ⟨_, _, d', hd'⟩ := h
      rw [hrun] at hd'
      cases hd'
  | ok u d =>
      rw [bind_of_ok (onData_of_ok hrun), run_setMb, mbModify, run_setMb, ends_pure]
      dsimp only
      rw [setMb_setMb]
      have he : Touched w.table (w.table.setMb m (fun b => { b with
          s := stamp env { b.s with stSize := 0, stBlocks := 1 } (stMod ||| stChg)
          consisent := false })) m (w.table.mb m).path true :=
        .setMb rfl rfl rfl (fun _ => rfl) (Bool.and_false _).symm
      intro out t'' _ he'
      dsimp only at he'
      rw [he.path] at he'
      refine .touch m true (he.trans he') (fun a _ => ⟨fun h => ⟨honly out a h, rfl⟩, ?_⟩)
        (fun _ _ h => by cases h)
      rintro ⟨rfl, _⟩
      exact ⟨hflag, ⟨hexcl, hlen, p, hpath, hfind⟩, d, hrun⟩

theorem openResolve_table (wf : TableWf w.table rows) (hexcl : exclusivePath pathname = false)
    (hlen : pathname.length ≤ pathMax) (hpath : absPath env pathname = .ok p) (flags mode : Nat) :
    Ends (openResolve defaultBuild env pathname p flags mode w)
      (OpenTable w rows env (.open pathname flags mode))
      (fun e w' => LeavesTable w rows env (.open pathname flags mode) (.halt e) w'.table) := by
  have hstop : ∀ e t', RowStop w.table p e t' → lookup w.table p = none →
      LeavesTable w rows env (.open pathname flags mode) (.halt e) t' := by
    rintro e t' (⟨rfl, _⟩ | ⟨rfl, rfl, _⟩) hnone
    · exact Or.inl rfl
    · exact .keep rfl (fun a _ => notLeads _ _ hpath hnone _ a)
  unfold openResolve
  rw [run_ite]
  cases hcreat : hasFlag flags oCreat with
  | false =>
      rw [if_pos (by simp)]
      have hno : truncates flags = false := by simp [truncates, hcreat]
      refine lookup_ends wf hstop (fun h hok hlook => ?_)
      cases hfind : findPath w.table p (rows h) with
      | some m => exact openFound_table hno
      | none => exact openUpload_table wf hlen hpath (hlook.trans hfind) (by simp [hcreat])
  | true =>
      rw [if_neg (by simp), run_ite]
      cases htrunc : oTruncCheck flags with
      | true =>
          rw [if_pos rfl]
          refine lookup_ends wf hstop (fun h hok hlook => ?_)
          cases hfind : findPath w.table p (rows h) with
          | some m =>
              have hyes : truncates flags = true := by simp [truncates, hcreat, htrunc]
              exact openTrunc_table hexcl hlen hpath (hlook.trans hfind) hyes
          | none => exact openCreate_table wf hlen hpath (hlook.trans hfind) hcreat (Or.inl htrunc)
      | false =>
          rw [if_neg (by simp)]
          have hno : truncates flags = false := by simp [truncates, htrunc]
          refine lookup_ends wf hstop (fun h hok hlook => ?_)
          cases hfind : findPath w.table p (rows h) with
          | some m =>
              dsimp only
              rw [run_ite]
              split
              · exact fun r => .keep rfl (fun a _ h => absurd h.1 (by simp [hno]))
              · exact openFound_table hno
          | none =>
              dsimp only
              cases hstat : env.realStat pathname with
              | ok st =>
                  dsimp only
                  rw [run_ite]
                  split
                  · exact fun r => .keep rfl (fun a _ => notLeads _ _ hpath (hlook.trans hfind) _ a)
                  · exact openUpload_table wf hlen hpath (hlook.trans hfind)
                      (fun _ => ⟨htrunc, st, hstat⟩)
              | error e =>
                  exact openCreate_table wf hlen hpath (hlook.trans hfind) hcreat
                    (Or.inr (by simp [hstat, Except.toOption]))

theorem getEmptyFdLoop_frames (env : Env) (n i : Nat) :
    Frames World.table (getEmptyFdLoop env n i) := by
  intro w
  refine (getEmptyFdLoop_ends n i).mono ?_ ?_
  · rintro r w' (⟨_, rfl, _⟩ | ⟨j, _, _, _, _, _, rfl⟩)
    · rfl
    · rfl
  · rintro e w' ⟨_, rfl⟩
    rfl

theorem sysOpen_table (wf : TableWf w.table rows) (pathname : Path) (flags mode : Nat) :
    Ends (sysOpen defaultBuild env pathname flags mode w)
      (fun r w' => LeavesTable w rows env (.open pathname flags mode) (.ret r) w'.table)
      (fun e w' => LeavesTable w rows env (.open pathname flags mode) (.halt e) w'.table) := by
  unfold sysOpen
  rw [run_ite]
  cases hexcl : exclusivePath pathname with
  | true =>
      have hmod : ∀ out a, ¬ Modifies w env (.open pathname flags mode) out a := by
        rintro out a ⟨_, ⟨hno, _⟩, _⟩
        rw [hexcl] at hno
        cases hno
      rw [if_pos rfl]
      refine (openExclusive_ends pathname flags).mono ?_ ?_
      · rintro r w' ⟨htab, _⟩
        exact .keep htab (fun a _ => hmod _ a)
      · rintro e w' rfl
        exact Or.inr (Or.inl rfl)
  | false =>
      rw [if_neg (by simp), run_ite]
      by_cases hlen : pathname.length > pathMax
      · rw [if_pos hlen]
        refine .keep rfl ?_
        rintro a _ ⟨_, ⟨_, hle, _⟩, _⟩
        omega
      · rw [if_neg hlen]
        rcases absPath_cases env pathname with ⟨p, hpath, hrun⟩ | ⟨e, he, hpath, hrun⟩
        · rw [bind_of_ok (hrun w), ends_bind]
          refine (openResolve_table wf hexcl (by omega) hpath flags mode).mono ?_
            (fun _ _ he => he)
          intro r w₁ hr
          cases r with
          | error e => exact hr _
          | ok m =>
              have hready : OpenReady w rows env (.open pathname flags mode) m w₁.table := hr
              dsimp only
              rw [openPosition, bind_assoc, run_get_bind]
              split
              · obtain ⟨e, he, hwhy⟩ := appendLoop_error walkFuel (w₁.table.mb m).firstDbucket
                  w₁.data
                rw [bind_of_error (onData_of_error he)]
                rcases hwhy with rfl | rfl
                · exact Or.inl rfl
                · exact hready _ _ (by simp) (.refl _ _)
              · rw [run_setMb]
                have hpos : ∀ out, out ≠ .halt (.exit .dataBucketOverUse) →
                    LeavesTable w rows env (.open pathname flags mode) out
                      (w₁.table.setMb m (fun b =>
                        { b with lastDbucket := b.firstDbucket, lastDbOffset := 0 })) :=
                  fun out hout => hready out _ hout
                    (.setMb rfl rfl rfl (fun _ => rfl) (Bool.and_true _).symm)
                refine (openSlot_ends m).mono ?_ ?_
                · rintro r w' (⟨rfl, rfl, _⟩ | ⟨i, rfl, htab, _⟩)
                  · exact hpos _ (by simp)
                  · rw [htab]
                    exact hpos _ (by simp)
                · rintro e w' rfl
                  exact Or.inr (Or.inl rfl)
        · rw [bind_of_error (hrun w)]
          rcases he with rfl | rfl
          · exact Or.inr (Or.inl rfl)
          · refine .keep rfl ?_
            rintro a _ ⟨_, ⟨_, _, p', hpath', _⟩, _⟩
            rw [hpath] at hpath'
            cases hpath'

end Spacefish
