import Spacefish.TableOpen

/-!
What the other calls that name a file by its path do to the metadata table, and
the statement for all calls together.
-/

namespace Spacefish

open LinkedArray Program

variable {w : World} {rows : Nat → List Int} {env : Env} {call : Call} {p q : Path} {m : Int}

theorem sysUnlink_table (wf : TableWf w.table rows) (pathname : Path) :
    Ends (sysUnlink env pathname w)
      (fun r w' => LeavesTable w rows env (.unlink pathname) (.ret r) w'.table)
      (fun e w' => LeavesTable w rows env (.unlink pathname) (.halt e) w'.table) := by
  unfold sysUnlink
  rw [run_ite]
  split
  · exact .keep rfl (fun _ _ => id)
  · rcases absPath_cases env pathname with ⟨p, hpath, hrun⟩ | ⟨e, he, _, hrun⟩
    · rw [bind_of_ok (hrun w), ends_bind, onMeta, ends_zoom]
      refine (releaseMetaBucket_ends wf p).mono ?_ ?_
      · rintro r t' ⟨h, hok, ⟨rfl, rfl, _⟩ | ⟨m, rows', rfl, hfind, hr⟩⟩
        · exact .keep rfl (fun _ _ => id)
        · exact Or.inr (Or.inr ⟨rows', .release rfl hpath hok hfind hr⟩)
      · rintro e t' (⟨rfl, _⟩ | ⟨rfl, rfl, _⟩)
        · exact Or.inl rfl
        · exact .keep rfl (fun _ _ => id)
    · rw [bind_of_error (hrun w)]
      exact .keep rfl (fun _ _ => id)

theorem statPath_table (wf : TableWf w.table rows) (real : Path → Except Errno Stat) (path : Path) :
    Ends (statPath env real path w)
      (fun r w' => LeavesTable w rows env (.xstat path) (.ret r) w'.table)
      (fun e w' => LeavesTable w rows env (.xstat path) (.halt e) w'.table) := by
  unfold statPath
  rw [run_ite]
  split
  · exact .keep rfl (fun _ _ => id)
  · rcases absPath_cases env path with ⟨p, hpath, hrun⟩ | ⟨e, he, _, hrun⟩
    · rw [bind_of_ok (hrun w)]
      refine lookup_ends wf ?_ (fun h hok hlook => ?_)
      · rintro e t' (⟨rfl, _⟩ | ⟨rfl, rfl, _⟩) _
        · exact Or.inl rfl
        · exact .keep rfl (fun _ _ => id)
      · cases findPath w.table p (rows h) with
        | some a => exact .keep rfl (fun _ _ => id)
        | none =>
            dsimp only
            cases real path with
            | ok st => exact .keep rfl (fun _ _ => id)
            | error e => exact .keep rfl (fun _ _ => id)
    · rw [bind_of_error (hrun w)]
      exact .keep rfl (fun _ _ => id)

theorem upload_table (wf : TableWf w.table rows) (name : Path) :
    Ends (callOp defaultBuild env (.upload name) w)
      (fun r w' => LeavesTable w rows env (.upload name) (.ret r) w'.table)
      (fun e w' => LeavesTable w rows env (.upload name) (.halt e) w'.table) := by
  unfold callOp
  rw [ends_bind]
  have hmake : ∀ {out : Out} {h : Nat} {m : Int} {q : Path} {t' : MetaShm},
      (∃ st, env.realStat name = .ok st) → Made w.table rows name h m q false t' →
      ((q = name ∧ name.length < pathMax) ∨ ShortReads env (.upload name) ∨ out = .halt (.exit .dataBucketOverUse)) →
      LeavesTable w rows env (.upload name) out t' :=
    fun hst hm hq => Or.inr (Or.inr ⟨_, .make ⟨rfl, hst⟩ hm hq (iff_of_false (by simp) id)
      (fun _ _ => id)⟩)
  refine (uploadFile_table wf name).mono ?_ ?_
  · rintro r w' (⟨⟨e, rfl⟩, htab⟩ | ⟨hst, ⟨⟨e, rfl⟩, hshort, h, m, q, hm⟩ | ⟨h, m, rfl, hp, hm⟩⟩)
    · exact .keep htab (fun _ _ => id)
    · exact hmake hst hm (Or.inr (Or.inl hshort))
    · exact hmake hst hm (Or.inl ⟨rfl, hp⟩)
  · rintro e w' (rfl | rfl | htab | ⟨hst, hp, h, m, hm⟩)
    · exact Or.inl rfl
    · exact Or.inr (Or.inl rfl)
    · exact .keep htab (fun _ _ => id)
    · exact hmake hst hm (Or.inl ⟨rfl, hp⟩)

/-! `rename`. -/

theorem inPathBuffer_length {σ : Type} (p : Path) (s : σ) :
    Ends ((inPathBuffer p : Op σ Path) s) (fun q _ => q.length < pathMax) (fun _ _ => True) := by
  rw [inPathBuffer, run_ite]
  split
  · next hp => exact hp
  · exact trivial

/-- A path that was built fits its buffer. -/
theorem buildAbsPath_length {σ : Type} (env : Env) (p : Path) (s : σ) :
    Ends ((buildAbsPath env p : Op σ AbsPath) s)
      (fun r _ => ∀ q, r = .built q → q.length < pathMax) (fun _ _ => True) := by
  have hbuilt : ∀ (p : Path) (s : σ), Ends ((do
      let abs ← inPathBuffer p
      return .built abs : Op σ AbsPath) s)
      (fun r _ => ∀ q, r = .built q → q.length < pathMax) (fun _ _ => True) := by
    intro p s
    rw [ends_bind]
    refine (inPathBuffer_length p s).mono (fun abs s' habs => ?_) (fun _ _ h => h)
    rintro q ⟨⟩
    exact habs
  unfold buildAbsPath
  simp only [ends_ite]
  refine ⟨fun _ => nofun, fun _ => ⟨fun _ => nofun, fun _ => ⟨fun _ => ?_, fun _ =>
    ⟨fun _ => ⟨fun _ => nofun, fun _ => ?_⟩, fun _ => ⟨fun _ => ?_, fun _ => ⟨fun _ => ?_, fun _ =>
    ⟨fun _ => ?_, fun _ => nofun⟩⟩⟩⟩⟩⟩⟩
  · exact Ends.seq (fun _ _ => Ends.seq (fun _ _ => hbuilt _ _))
  · exact Ends.seq (fun _ _ => Ends.seq (fun _ _ => Ends.seq (fun _ _ => hbuilt _ _)))
  · exact Ends.seq (fun _ _ => Ends.seq (fun _ _ => hbuilt _ _))
  · exact Ends.seq (fun _ _ => hbuilt _ _)
  · exact Ends.seq (fun _ _ => hbuilt _ _)

theorem absPath_length {pathname : Path} (hpath : absPath env pathname = .ok p)
    (hlen : pathname.length ≤ pathMax) : p.length ≤ pathMax := by
  have hends := buildAbsPath_length env pathname
    (⟨initTable, initData, initFdTable⟩ : World)
  unfold absPath buildAbsPath1 at hpath
  cases hrun : (buildAbsPath env pathname : Op World AbsPath)
      ⟨initTable, initData, initFdTable⟩ with
  | error e w' =>
      rw [bind_of_error hrun] at hpath
      cases hpath
  | ok r w' =>
      rw [hrun] at hends
      rw [bind_of_ok hrun] at hpath
      cases r with
      | built abs =>
          obtain rfl : abs = p := Except.ok.inj hpath
          exact Nat.le_of_lt (hends abs rfl)
      | alreadyAbsolute =>
          obtain rfl : pathname = p := Except.ok.inj hpath
          exact hlen
      | failed =>
          obtain rfl : pathname = p := Except.ok.inj hpath
          exact hlen

theorem samePath_eq (hp : p.length ≤ pathMax) (hq : q.length ≤ pathMax)
    (hsame : samePath p q = true) : p = q := by
  rw [samePath, List.take_of_length_le hp, List.take_of_length_le hq] at hsame
  exact beq_iff_eq.mp hsame

/-- A path that fits its field is found only under itself. -/
theorem samePath_short (hq : q.length < pathMax) (hsame : samePath p q = true) : p = q := by
  have htake := beq_iff_eq.mp hsame
  rw [List.take_of_length_le (Nat.le_of_lt hq)] at htake
  have hlen := congrArg List.length htake
  rw [List.length_take] at hlen
  rw [List.take_of_length_le (by omega)] at htake
  exact htake

/-- A rename that moved no file of the store changes none. -/
theorem notRenamed {old new : Path} (hold : absPath env old = .ok p)
    (hnone : lookup w.table p = none) (out : Out) (a : Int) :
    ¬ Modifies w env (.rename old new) out a := by
  rintro ⟨_, _, p', hold', hfind⟩
  rw [hold] at hold'
  obtain rfl := Except.ok.inj hold'
  rw [hnone] at hfind
  cases hfind

theorem renamed_iff {old new : Path} {r : Ret} (hne : old ≠ new) (hold : absPath env old = .ok p)
    (hfind : lookup w.table p = some m) (hret : r.ret = 0) (a : Int) :
    Modifies w env (.rename old new) (.ret r) a ↔ a = m := by
  constructor
  · rintro ⟨_, _, p', hold', hfind'⟩
    rw [hold] at hold'
    obtain rfl := Except.ok.inj hold'
    exact Option.some.inj (hfind'.symm.trans hfind)
  · rintro rfl
    exact ⟨hne, hret, p, hold, hfind⟩

theorem sysRename_table (wf : TableWf w.table rows) (old new : Path) :
    Ends (sysRename env old new w)
      (fun r w' => LeavesTable w rows env (.rename old new) (.ret r) w'.table)
      (fun e w' => LeavesTable w rows env (.rename old new) (.halt e) w'.table) := by
  have hhalt : ∀ e a, ¬ Modifies w env (.rename old new) (.halt e) a :=
    fun e a h => absurd h.2.1 (by simp [Out.num])
  unfold sysRename
  rw [run_ite]
  by_cases hsame : old = new
  · rw [if_pos hsame]
    exact .keep rfl (fun a _ h => h.1 hsame)
  rw [if_neg hsame, run_ite]
  by_cases hlen : old.length > pathMax ∨ new.length > pathMax
  · rw [if_pos hlen]
    exact .keep rfl (fun a _ h => absurd h.2.1 (by simp [Out.num]))
  rw [if_neg hlen]
  rw [not_or, not_lt, not_lt] at hlen
  rcases absPath_cases env old with ⟨p, hold, hrunold⟩ | ⟨e, he, _, hrunold⟩
  · rcases absPath_cases env new with ⟨q, hnew, hrunnew⟩ | ⟨e, he, _, hrunnew⟩
    · rw [bind_of_ok (hrunold w), bind_of_ok (hrunnew w), ends_bind, onMeta, ends_zoom]
      refine (mbChpath_ends wf p q).mono ?_ ?_
      · rintro r t₁ (⟨rfl, rfl, hpq⟩ | ⟨ho, hn, hokold, hoknew, hne, hidle, hidle', hcase⟩)
        · -- both names are one path: the file stays where it is and is marked
          obtain rfl : p = q :=
            samePath_eq (absPath_length hold hlen.1) (absPath_length hnew hlen.2) hpq
          rw [run_ite, if_neg (by decide)]
          refine lookup_ends wf ?_ (fun h hok hlook => ?_)
          · rintro e t' (⟨rfl, _⟩ | ⟨rfl, rfl, _⟩) _
            · exact Or.inl rfl
            · exact .keep rfl (fun a _ => hhalt _ a)
          · cases hfind : findPath w.table p (rows h) with
            | none => exact Or.inr (Or.inl rfl)
            | some m =>
                dsimp only
                rw [mbModify, run_setMb, ends_pure]
                dsimp only
                refine .touch m true (.setMb rfl rfl rfl (fun _ => rfl) (Bool.and_false _).symm) ?_
                  ?_
                · intro a _
                  rw [renamed_iff hsame hold (hlook.trans hfind) rfl]
                  simp
                · rintro old new ⟨⟩
                  rw [hold, hnew]
        · have hlook : lookup w.table p = findPath w.table p (rows ho) :=
            lookup_of_run (wf.getMbucket_eq hokold hidle)
          rcases hcase with ⟨rfl, hnone, rfl⟩ | ⟨m, rows', rfl, hfind, hr⟩
          · have hst : ∀ out, LeavesTable w rows env (.rename old new) out
                (w.table.lockBoth ho hn) := fun out =>
              Or.inr (Or.inr ⟨rows, .stuck ho hn
                (fun a _ => notRenamed hold (hlook.trans hnone) out a)⟩)
            rw [run_ite, if_pos (by decide), run_ite]
            split
            · rw [ends_bind, onMeta, ends_zoom]
              refine (getMbucket_ends (wf.lockBoth ho hn) q).mono ?_ ?_
              · rintro r t' ⟨rfl, h, hok, rfl⟩
                cases findPath (w.table.lockBoth ho hn) q (rows h) with
                | none => exact hst _
                | some a => exact hst _
              · rintro e t' (⟨rfl, _⟩ | ⟨rfl, rfl, _⟩)
                · exact Or.inl rfl
                · exact hst _
            · exact hst _
          · have hidle₁ : RowIdle t₁ hn := (hr.locks hn).trans hidle'
            have hget : getMbucket q t₁ = .ok (some m) t₁ := by
              rw [hr.wf.getMbucket_eq hoknew hidle₁, hr.found]
            rw [run_ite, if_neg (by decide),
              bind_of_ok (onMeta_of_ok (w := { w with table := t₁ }) hget)]
            dsimp only
            rw [mbModify, run_setMb, ends_pure]
            have he : Touched t₁ (t₁.setMb m (fun b => { b with consisent := false })) m
                (t₁.mb m).path true :=
              .setMb rfl rfl rfl (fun _ => rfl) (Bool.and_false _).symm
            refine Or.inr (Or.inr ⟨rows', .rename rfl hlen hold hnew hokold hoknew hne hfind hr he ?_⟩)
            exact fun a _ => renamed_iff hsame hold (hlook.trans hfind) rfl a
      · rintro e t' (rfl | ⟨rfl, rfl⟩)
        · exact Or.inl rfl
        · exact .keep rfl (fun a _ => hhalt _ a)
    · rw [bind_of_ok (hrunold w), bind_of_error (hrunnew w)]
      exact .keep rfl (fun a _ => hhalt _ a)
  · rw [bind_of_error (hrunold w)]
    exact .keep rfl (fun a _ => hhalt _ a)

/-! All calls. -/

theorem sysFxstat_keeps (env : Env) (fd : Int) : Keeps (sysFxstat env fd) := by
  have hfd : Keeps (fddes fd) := Keeps.get.bind (fun _ => .ite (.pure _) (.throw _))
  refine hfd.bind (fun f => .ite ?_ (.ite (.pure _) ?_))
  · cases env.realFstat fd with
    | ok st => exact .pure _
    | error e => exact .pure _
  · exact Keeps.get.bind (fun _ => .ite (.pure _) (.pure _))

theorem sysFxstat_table (fd : Int) :
    Ends (sysFxstat env fd w)
      (fun r w' => LeavesTable w rows env (.fxstat fd) (.ret r) w'.table)
      (fun e w' => LeavesTable w rows env (.fxstat fd) (.halt e) w'.table) := by
  refine (sysFxstat_keeps env fd w).mono ?_ ?_
  · rintro r w' rfl
    exact .keep rfl (fun _ _ => id)
  · rintro e w' rfl
    exact .keep rfl (fun _ _ => id)

theorem callOp_table (wf : TableWf w.table rows) (env : Env) (call : Call) :
    Ends (callOp defaultBuild env call w)
      (fun r w' => LeavesTable w rows env call (.ret r) w'.table)
      (fun e w' => LeavesTable w rows env call (.halt e) w'.table) := by
  cases call with
  | «open» pathname flags mode => exact sysOpen_table wf pathname flags mode
  | close fd => exact sysClose_table fd
  | read fd count => exact sysRead_table fd count
  | write fd buf => exact sysWrite_table fd buf
  | pread fd count offset => exact sysPread_table fd count offset
  | pwrite fd buf offset => exact sysPwrite_table fd buf offset
  | unlink pathname => exact sysUnlink_table wf pathname
  | rename old new => exact sysRename_table wf old new
  | xstat path => exact statPath_table wf env.realStat path
  | fxstat fd => exact sysFxstat_table fd
  | upload name => exact upload_table wf name

/-- A call that returns or ends its process has one of the effects on the table. -/
theorem exec_table {s s' : Sys} {e : Event} {out : Out} (wf : TableWf s.table rows)
    (hexec : exec defaultBuild s e = (out, s')) (hout : ReturnsOrExits out) :
    ∃ rows', TableEffect (s.view e.pid) rows e.env e.call out s'.table rows' := by
  have hends := callOp_table (w := s.view e.pid) wf e.env e.call
  unfold exec at hexec
  cases hrun : callOp defaultBuild e.env e.call (s.view e.pid) with
  | ok r w' =>
      rw [hrun] at hexec hends
      obtain ⟨rfl, rfl⟩ := Prod.mk.inj hexec
      rcases hends with h | h | heff
      · cases h
      · cases h
      · exact heff
  | error u w' =>
      rw [hrun] at hexec hends
      obtain ⟨rfl, rfl⟩ := Prod.mk.inj hexec
      rcases hends with h | h | heff
      · cases h
        exact hout.elim
      · cases h
        exact hout.elim
      · exact heff

theorem run_tableWf {allow : Sys → Event → Out → Prop} {s : Sys}
    (hallow : ∀ s e out, allow s e out → ReturnsOrExits out)
    (hrun : Run defaultBuild allow initSys s) : ∃ rows, TableWf s.table rows := by
  refine hrun.invariant (P := fun s => ∃ rows, TableWf s.table rows) ⟨_, initSys_wf.store.table⟩ ?_
  rintro s e out s' ⟨rows, wf⟩ hok hexec
  obtain ⟨rows', heff⟩ := exec_table wf hexec (hallow s e out hok)
  exact ⟨rows', heff.tableWf wf⟩

end Spacefish
