import Spacefish.OpenCalls

/-!
The first half of `open`, from a well-formed store: the absolute path and the
branches that find, truncate, upload or create the file.
-/

namespace Spacefish

open LinkedArray Program Buffer

variable {w : World} {rows : Nat → List Int} {ch : Int → List Nat} {env : Env} {bld : Build}
  {p pathname : Path} {flags mode h : Nat} {m : Int}

/-! The absolute path. -/

/-- The ways the construction of a path may stop. -/
def PathStop (e : Halt) : Prop := e = .undefined ∨ e = .exit .getcwd

theorem inPathBuffer_answers {σ : Type} (p : Path) :
    Answers PathStop (inPathBuffer p : Op σ Path) :=
  .ite (.pure _) (.throw (Or.inl rfl))

theorem getcwd_answers {σ : Type} : Answers PathStop (getcwd env : Op σ Path) := by
  unfold getcwd
  cases env.cwd with
  | some p => exact .pure _
  | none => exact .throw (Or.inr rfl)

theorem beforeLastSlash_answers {σ : Type} (p : Path) :
    Answers PathStop (beforeLastSlash p : Op σ Path) :=
  .ite (.pure _) (.throw (Or.inl rfl))

theorem buildAbsPath_answers {σ : Type} (p : Path) :
    Answers PathStop (buildAbsPath env p : Op σ AbsPath) := by
  have hcwd : ∀ f : Path → Path, Answers PathStop (do
      let cwd ← getcwd env
      let abs ← inPathBuffer (f cwd)
      return .built abs : Op σ AbsPath) :=
    fun f => getcwd_answers.bind (fun _ => (inPathBuffer_answers _).bind (fun _ => .pure _))
  refine .ite (.pure _) (.ite (.pure _) (.ite ?_ (.ite (.ite (.pure _) ?_) (.ite ?_ (.ite
    (hcwd _) (.ite (hcwd _) (.pure _)))))))
  · exact getcwd_answers.bind (fun _ => (beforeLastSlash_answers _).bind
      (fun _ => (inPathBuffer_answers _).bind (fun _ => .pure _)))
  · exact (inPathBuffer_answers _).bind (fun _ => getcwd_answers.bind
      (fun _ => (beforeLastSlash_answers _).bind (fun _ => (inPathBuffer_answers _).bind
        (fun _ => .pure _))))
  · exact (inPathBuffer_answers _).bind (fun _ => hcwd _)

theorem buildAbsPath1_answers {σ : Type} (p : Path) :
    Answers PathStop (buildAbsPath1 env p : Op σ Path) := by
  refine (buildAbsPath_answers p).bind (fun r => ?_)
  cases r with
  | built abs => exact .pure _
  | alreadyAbsolute => exact .pure _
  | failed => exact .pure _

/-- The path that the calls work on for an argument `p`. -/
def absPath (env : Env) (p : Path) : Except Halt Path :=
  match (buildAbsPath1 env p : Op World Path) ⟨initTable, initData, initFdTable⟩ with
  | .ok q _ => .ok q
  | .error e _ => .error e

theorem absPath_cases (env : Env) (p : Path) :
    (∃ q, absPath env p = .ok q ∧ ∀ w : World, buildAbsPath1 env p w = .ok q w) ∨
      ∃ e, PathStop e ∧ absPath env p = .error e ∧
        ∀ w : World, buildAbsPath1 env p w = .error e w := by
  rcases buildAbsPath1_answers p with ⟨q, hq⟩ | ⟨e, he, hq⟩
  · exact Or.inl ⟨q, by rw [absPath, hq], hq⟩
  · exact Or.inr ⟨e, he, by rw [absPath, hq], hq⟩

/-- The process ends with `u`: the path cannot be built, or has no row. -/
def PathExit (env : Env) (path : Path) (u : UErr) : Prop :=
  absPath env path = .error (.exit u) ∨ ∃ p, absPath env path = .ok p ∧ hash p = .error u

theorem Died.of_pathStop {e : Halt} (he : PathStop e) : Died w rows e w := by
  rcases he with rfl | rfl
  · exact Or.inr (Or.inl rfl)
  · exact Or.inr (Or.inr (Or.inl ⟨_, by decide, rfl, rfl, rfl⟩))

/-! Resolving the file. -/

/-- What a file that is not in the store starts with: nothing when it is created,
the content of the disk when it is uploaded. -/
def startContent (env : Env) (pathname p : Path) (flags : Nat) : Option (List Byte) :=
  if hasFlag flags oCreat ∧ (oTruncCheck flags ∨ (env.realStat pathname).toOption = none) then
    some []
  else diskContent env p

/-- The flags truncate a file that is in the store. -/
def truncates (flags : Nat) : Bool := hasFlag flags oCreat && oTruncCheck flags

/-- The file `m` that `open` has found or made for the path `p`. -/
inductive Resolved (env : Env) (pathname p : Path) (flags : Nat) (rows : Nat → List Int)
    (ch : Int → List Nat) (w : World) : Int → World → Prop where
  | found {h : Nat} {m : Int} (hok : hash p = .ok h) (hfind : findPath w.table p (rows h) = some m)
      (hflag : truncates flags = false) : Resolved env pathname p flags rows ch w m w
  | truncated {h : Nat} {m : Int} {t' : MetaShm} (hok : hash p = .ok h)
      (hfind : findPath w.table p (rows h) = some m)
      (hflag : truncates flags = true) (hch : ch m ≠ [])
      (he : Edited w.table t' m (fun c => { c with size := 0 })) :
      Resolved env pathname p flags rows ch w m
        { w with table := t', data := w.data.clear (ch m) }
  | made {buf : List Byte} {h : Nat} {m : Int} {ix : Nat} {new : List Nat} {out : WriteOut}
      {w' : World} (hstart : startContent env pathname p flags = some buf)
      (hfill : Filled w rows p buf h m ix new (some out) w') :
      Resolved env pathname p flags rows ch w m w'

/-- How `open` ends when it has no file. -/
def Unresolved (env : Env) (p : Path) (flags : Nat) (rows : Nat → List Int) (w w' : World) :
    Prop :=
  (w' = w ∧ ∀ h, hash p = .ok h → (findPath w.table p (rows h)).isSome →
    hasFlag flags oCreat ∧ hasFlag flags oExcl ∧ truncates flags = false) ∨
  (ShortRead env p ∧ Bare w rows w')

theorem openResolve_found {α : Type} {k : Option Int → Op World α} {Q : α → World → Prop}
    {E : Halt → World → Prop} (wf : LinkWf (w.store rows ch))
    (hE : ∀ e w', Died w rows e w' → E e w')
    (hk : ∀ h, hash p = .ok h → Ends (k (findPath w.table p (rows h)) w) Q E) :
    Ends ((onMeta (getMbucket p) >>= k) w) Q E := by
  rw [ends_bind, onMeta, ends_zoom]
  refine (getMbucket_ends wf.table p).mono ?_ (fun e t' he => hE _ _ (Died.of_rowStop he))
  rintro r t' ⟨rfl, h, hok, rfl⟩
  exact hk h hok

theorem openUpload_ends (hbld : bld.getFreeDbucketIx = bucketIxAllocAllRandom)
    (wf : StoreWf (w.store rows ch)) (hok : hash p = .ok h)
    (hnone : findPath w.table p (rows h) = none)
    (hstart : startContent env pathname p flags = diskContent env p) :
    Ends (uploadFile bld env p w)
      (fun r w' => ((∃ e, r = .error e) ∧ Unresolved env p flags rows w w') ∨
        ∃ m, r = .ok m ∧ Resolved env pathname p flags rows ch w m w')
      (Died w rows) := by
  refine (uploadFile_ends hbld wf p).mono ?_ (fun _ _ he => he)
  rintro r w' (⟨e, rfl, rfl⟩ | ⟨hread, he, hbare⟩ | ⟨buf, h, m, ix, new, out, hdisk, rfl, hfill⟩)
  · refine Or.inl ⟨⟨e, rfl⟩, Or.inl ⟨rfl, fun h' hok' hsome => ?_⟩⟩
    obtain rfl : h = h' := by
      rw [hok] at hok'
      injection hok'
    rw [hnone] at hsome
    cases hsome
  · exact Or.inl ⟨he, Or.inr ⟨hread, hbare⟩⟩
  · exact Or.inr ⟨m, rfl, .made (hstart.trans hdisk) hfill⟩

theorem openCreate_ends (hbld : bld.getFreeDbucketIx = bucketIxAllocAllRandom)
    (wf : StoreWf (w.store rows ch)) (hok : hash p = .ok h)
    (hnone : findPath w.table p (rows h) = none)
    (hstart : startContent env pathname p flags = some []) :
    Ends (createNewFile bld env p mode w)
      (fun r w' => ((∃ e, r = .error e) ∧ Unresolved env p flags rows w w') ∨
        ∃ m, r = .ok m ∧ Resolved env pathname p flags rows ch w m w')
      (Died w rows) := by
  refine (createNewFile_ends hbld wf p mode).mono ?_ (fun _ _ he => he)
  rintro r w' (⟨rfl, rfl, _⟩ | ⟨h, m, ix, out, rfl, hfill⟩)
  · refine Or.inl ⟨⟨_, rfl⟩, Or.inl ⟨rfl, fun h' hok' hsome => ?_⟩⟩
    obtain rfl : h = h' := by
      rw [hok] at hok'
      injection hok'
    rw [hnone] at hsome
    cases hsome
  · exact Or.inr ⟨m, rfl, .made hstart hfill⟩

/-- The one error of `create_new_file`. -/
theorem createNewFile_enospc :
    Ends (createNewFile bld env p mode w) (fun r _ => ∀ e, r = .error e → e = .enospc)
      (fun _ _ => True) := by
  refine .seq (fun r w₁ => ?_)
  cases r with
  | none =>
      rintro e he
      cases he
      rfl
  | some m =>
      refine .seq (fun _ _ => .seq (fun _ _ => .seq (fun _ _ => ?_)))
      refine .seq (fun _ _ => .seq (fun _ _ => ?_))
      rintro e he
      cases he

/-- A bucket that a search finds is in use. -/
theorem TableWf.findPath_inUse {t : MetaShm} (wf : TableWf t rows) (hok : hash p = .ok h)
    (hfind : findPath t p (rows h) = some m) : (t.mb m).inUse = true :=
  (wf.inUse_iff m).mpr ⟨h, hash_lt hok, List.mem_of_find?_eq_some hfind⟩

theorem openTrunc_ends (pathname : Path) (hbld : bld.oTruncFree = false) (wf : LinkWf (w.store rows ch))
    (hok : hash p = .ok h) (hfind : findPath w.table p (rows h) = some m)
    (hflag : truncates flags = true) :
    Ends ((do
        onData (truncChain bld (w.table.mb m).firstDbucket)
        setMb m (fun b =>
          { b with s := stamp env { b.s with stSize := 0, stBlocks := 1 } (stMod ||| stChg) })
        mbModify m
        return .ok m : Op World (Except Errno Int)) w)
      (fun r w' => r = .ok m ∧ Resolved env pathname p flags rows ch w m w')
      (Died w rows) := by
  have huse := wf.table.findPath_inUse hok hfind
  have hsteps : w.data.dbucketSteps = totalStepsAllowed := wf.links.steps
  have hlinked : Linked w.data.next noIx (w.table.mb m).firstDbucket (ch m) := wf.linked m huse
  cases hch : ch m with
  | nil =>
      rw [hch] at hlinked
      have hfirst : (w.table.mb m).firstDbucket = noIx := hlinked
      rw [hfirst, bind_of_error (onData_of_error (truncChain_noIx wf.links.steps_le))]
      exact Or.inr (Or.inr (Or.inl ⟨_, by decide, rfl, rfl, rfl⟩))
  | cons b l =>
      rw [hch] at hlinked
      obtain ⟨hb, hrest⟩ := hlinked
      have hrun : truncChain bld b w.data = .ok ⟨⟩ (w.data.clear (b :: l)) :=
        truncChain_eq hbld hsteps ⟨rfl, hrest⟩ (hch ▸ wf.owned m huse)
      rw [hb, bind_of_ok (onData_of_ok hrun), run_setMb, mbModify, run_setMb]
      refine ⟨rfl, ?_⟩
      dsimp only
      rw [setMb_setMb, ← hch]
      exact .truncated hok hfind hflag (by rw [hch]; simp) (Edited.setMb rfl)

theorem openResolve_ends (hbld : bld.getFreeDbucketIx = bucketIxAllocAllRandom)
    (hfree : bld.oTruncFree = false) (wf : StoreWf (w.store rows ch)) (pathname p : Path)
    (flags mode : Nat) :
    Ends (openResolve bld env pathname p flags mode w)
      (fun r w' => ((∃ e, r = .error e) ∧ Unresolved env p flags rows w w') ∨
        ∃ m, r = .ok m ∧ Resolved env pathname p flags rows ch w m w')
      (Died w rows) := by
  unfold openResolve
  rw [run_ite]
  cases hcreat : hasFlag flags oCreat with
  | false =>
      rw [if_pos (by simp)]
      have hno : truncates flags = false := by simp [truncates, hcreat]
      refine openResolve_found wf.toLinkWf (fun _ _ he => he) (fun h hok => ?_)
      cases hfind : findPath w.table p (rows h) with
      | some m => exact Or.inr ⟨m, rfl, .found hok hfind hno⟩
      | none => exact openUpload_ends hbld wf hok hfind (by simp [startContent, hcreat])
  | true =>
      rw [if_neg (by simp), run_ite]
      cases htrunc : oTruncCheck flags with
      | true =>
          rw [if_pos rfl]
          refine openResolve_found wf.toLinkWf (fun _ _ he => he) (fun h hok => ?_)
          cases hfind : findPath w.table p (rows h) with
          | some m =>
              have hyes : truncates flags = true := by simp [truncates, hcreat, htrunc]
              refine (openTrunc_ends pathname hfree wf.toLinkWf hok hfind
                hyes).mono ?_ (fun _ _ he => he)
              rintro r w' ⟨rfl, hres⟩
              exact Or.inr ⟨m, rfl, hres⟩
          | none =>
              exact openCreate_ends hbld wf hok hfind (by simp [startContent, hcreat, htrunc])
      | false =>
          rw [if_neg (by simp)]
          have hno : truncates flags = false := by simp [truncates, htrunc]
          refine openResolve_found wf.toLinkWf (fun _ _ he => he) (fun h hok => ?_)
          cases hfind : findPath w.table p (rows h) with
          | some m =>
              dsimp only
              rw [run_ite]
              split
              · next hexcl =>
                exact Or.inl ⟨⟨_, rfl⟩, Or.inl ⟨rfl, fun _ _ _ => ⟨hcreat, hexcl, hno⟩⟩⟩
              · exact Or.inr ⟨m, rfl, .found hok hfind hno⟩
          | none =>
              dsimp only
              cases hstat : env.realStat pathname with
              | ok st =>
                  dsimp only
                  rw [run_ite]
                  split
                  · next hexcl =>
                    exact Or.inl ⟨⟨_, rfl⟩, Or.inl ⟨rfl, fun _ _ _ => ⟨hcreat, hexcl, hno⟩⟩⟩
                  · exact openUpload_ends hbld wf hok hfind
                      (by simp [startContent, htrunc, hstat, Except.toOption])
              | error e =>
                  exact openCreate_ends hbld wf hok hfind
                    (by simp [startContent, hcreat, hstat, Except.toOption])

end Spacefish
