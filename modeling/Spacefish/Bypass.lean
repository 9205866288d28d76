import Spacefish.OpenFd
import Spacefish.PathKeys

/-!
The paths that `open` hands to the kernel. The test looks for `/dev/` and `/proc/`
anywhere in the argument, and the argument may be relative, so that it agrees with a
test of the absolute path only when no other directory has one of the two names and
the working directory is not below one of them.
-/

namespace Spacefish

open Program Separated

/-- The names in `exlist`. -/
def specialNames : List Path := [[100, 101, 118], [112, 114, 111, 99]]

/-- The path begins with `/dev/` or `/proc/`. -/
def BelowSpecial (p : Path) : Prop := ∃ d ∈ specialNames, 47 :: d ++ [47] <+: p

/-- The names in a path that stand between two slashes. -/
def innerNames (p : Path) : List Path := (p.splitOn 47).tail.dropLast

/-- One of the two names stands between two slashes. -/
def NamesSpecial (p : Path) : Prop := ∃ d ∈ specialNames, d ∈ innerNames p

/-- The first name between two slashes is one of them. -/
def TopSpecial (p : Path) : Prop := ∃ d ∈ specialNames, (innerNames p).head? = some d

instance (p : Path) : Decidable (BelowSpecial p) :=
  inferInstanceAs (Decidable (∃ d ∈ specialNames, 47 :: d ++ [47] <+: p))

instance (p : Path) : Decidable (NamesSpecial p) :=
  inferInstanceAs (Decidable (∃ d ∈ specialNames, d ∈ innerNames p))

instance (p : Path) : Decidable (TopSpecial p) :=
  inferInstanceAs (Decidable (∃ d ∈ specialNames, (innerNames p).head? = some d))

theorem special_noSlash {d : Path} (hd : d ∈ specialNames) : (47 : Byte) ∉ d := by
  have hall : ∀ d ∈ specialNames, (47 : Byte) ∉ d := by decide
  exact hall d hd

theorem special_ne_nil {d : Path} (hd : d ∈ specialNames) : d ≠ [] := by
  have hall : ∀ d ∈ specialNames, d ≠ [] := by decide
  exact hall d hd

variable {p q K x : Path} {names ds : List Path} {env : Env} {b : Build}

/-! The test, and its counterpart on the absolute path. -/

theorem hasInfix_iff (sub : Path) : hasInfix sub p = true ↔ sub <:+: p := by
  induction p with
  | nil =>
      rw [hasInfix, List.isEmpty_iff, List.infix_nil]
  | cons c p ih =>
      rw [hasInfix, Bool.or_eq_true, List.isPrefixOf_iff_prefix, ih, List.infix_cons_iff]

theorem exclusivePath_iff : exclusivePath p = true ↔ NamesSpecial p := by
  have hlist : exlist = specialNames.map (fun d => 47 :: d ++ [47]) := by decide
  rw [exclusivePath, hlist, List.any_map, List.any_eq_true]
  refine exists_congr (fun d => and_congr_right (fun hd => ?_))
  exact (hasInfix_iff _).trans (infix_iff (special_noSlash hd))

theorem TopSpecial.occurs (h : TopSpecial p) : NamesSpecial p := by
  obtain ⟨d, hd, hhead⟩ := h
  exact ⟨d, hd, List.mem_of_mem_head? hhead⟩

/-- An absolute path begins with the first name between two slashes. -/
theorem belowSpecial_absolute (x : Path) : BelowSpecial (47 :: x) ↔ TopSpecial (47 :: x) := by
  have hsplit : (47 :: x : Path).splitOn 47 = [] :: x.splitOn 47 :=
    List.splitOn_append_cons_self [] x
  refine exists_congr (fun d => and_congr_right (fun hd => ?_))
  rw [prefix_iff (special_noSlash hd), innerNames, hsplit, List.tail_cons]
  rcases x.splitOn 47 with _ | ⟨e, _ | ⟨f, es⟩⟩
  · simp
  · simp
  · simp

/-- A path in a directory below the root begins with the first name of the directory. -/
theorem belowSpecial_in (hds : ∀ d ∈ ds, (47 : Byte) ∉ d) (hne : ds ≠ []) (x : Path) :
    BelowSpecial (pathOf (ds ++ [x])) ↔ ∃ d ∈ specialNames, ds.head? = some d := by
  refine exists_congr (fun d => and_congr_right (fun hd => ?_))
  rw [prefix_iff (special_noSlash hd), pathOf, joined_concat, splitOn_joined hds]
  obtain ⟨e, es, rfl⟩ := List.exists_cons_of_ne_nil hne
  obtain ⟨f, fs, hf⟩ := List.exists_cons_of_ne_nil (List.splitOn_ne_nil (47 : Byte) x)
  rw [hf]
  cases es with
  | nil => simp
  | cons g es => simp

/-- A directory begins with its first name when there is a second. -/
theorem belowSpecial_dir (hds : ∀ d ∈ ds, (47 : Byte) ∉ d) :
    BelowSpecial (pathOf ds) ↔ ∃ d ∈ specialNames, ∃ e es, ds = d :: e :: es := by
  refine exists_congr (fun d => and_congr_right (fun hd => ?_))
  rw [prefix_iff (special_noSlash hd), pathOf]
  rcases List.eq_nil_or_concat ds with rfl | ⟨pre, f, rfl⟩
  · simp
  · rw [List.concat_eq_append, joined_concat, splitOn_joined (fun e he => hds e (by simp [he])),
      List.splitOn_eq_singleton (hds f (by simp))]
    simp

/-! What `open` does with the argument. -/

/-- The branch of `open` for paths that bypass the store. -/
def forwardOpen (env : Env) (pathname : Path) (flags : Nat) : Op World Ret := do
  let ret := env.realOpen pathname flags
  if ret > 0 then
    setFddes ret (fun f => { f with empty := false, exclusive := true })
  return { ret := ret, err := env.realErrno }

/-- `open` passes the path on to the kernel and marks the descriptor as exclusive. -/
def Forwards (b : Build) (p : Path) : Prop :=
  ∀ env flags mode w, sysOpen b env p flags mode w = forwardOpen env p flags w

/-- The outside with other answers to `real_open`. -/
def Env.answering (env : Env) (g : Path → Nat → Int) : Env := { env with realOpen := g }

/-- `open` of `p` calls `real_open` on `q` with the flags `f`: what that returns matters. -/
def OpensReal (b : Build) (env : Env) (p : Path) (flags mode : Nat) (q : Path) (f : Nat) : Prop :=
  ∃ g k : Path → Nat → Int, ∃ w : World,
    (∀ q' f', ¬ (q' = q ∧ f' = f) → g q' f' = k q' f') ∧
      sysOpen b (env.answering g) p flags mode w ≠ sysOpen b (env.answering k) p flags mode w

/-- An access mode that allows writing. -/
def WriteFlags (f : Nat) : Prop := hasFlag f oWronly = true ∨ hasFlag f oRdwr = true

theorem sysOpen_exclusive (hexcl : exclusivePath p = true) (flags mode : Nat) (w : World) :
    sysOpen b env p flags mode w = forwardOpen env p flags w := by
  rw [sysOpen, run_ite, if_pos hexcl]
  rfl

/-- Any other `open` fails or returns a descriptor of the store. -/
theorem sysOpen_user (hexcl : exclusivePath p = false) (flags mode : Nat) (w : World) :
    Ends (sysOpen b env p flags mode w) (fun r _ => r.ret = -1 ∨ firstUserFd ≤ r.ret)
      (fun _ _ => True) := by
  rw [sysOpen, run_ite, if_neg (by simp [hexcl]), run_ite]
  split
  · exact Or.inl rfl
  · refine .seq (fun fpath w => .seq (fun r w => ?_))
    cases r with
    | error e => exact Or.inl rfl
    | ok mb =>
        refine .seq (fun _ w => (openSlot_ends mb).mono ?_ (fun _ _ _ => trivial))
        rintro r w' (⟨rfl, _, _⟩ | ⟨i, rfl, _, _, hslot⟩)
        · exact Or.inl rfl
        · exact Or.inr (Int.ofNat_le.mpr hslot.low)

theorem forwards_iff : Forwards b p ↔ exclusivePath p = true := by
  constructor
  · intro h
    by_contra hexcl
    have huser : Ends (sysOpen b (emptyDisk.answering fun _ _ => 5) p 0 0 (initSys.view 0)) _ _ :=
      sysOpen_user (by simpa using hexcl) 0 0 (initSys.view 0)
    rw [h] at huser
    obtain ⟨w', hfive⟩ : ∃ w', forwardOpen (emptyDisk.answering fun _ _ => 5) p 0 (initSys.view 0) =
        .ok { ret := 5, err := .enoent } w' := ⟨_, rfl⟩
    rw [hfive] at huser
    rcases huser with hret | hret
    · exact absurd hret (by decide)
    · exact absurd hret (by decide)
  · exact fun hexcl env flags mode w => sysOpen_exclusive hexcl flags mode w

section

variable {g k : Path → Nat → Int}

theorem uploadRounds_answering (mb : Int) (buf : List Byte) (n i prev : Nat) :
    uploadRounds b (env.answering g) mb buf n i prev =
      uploadRounds b (env.answering k) mb buf n i prev := by
  induction n generalizing i prev with
  | zero => rfl
  | succ n ih =>
      simp only [uploadRounds, ih]
      rfl

theorem uploadData_answering (mb : Int) (buf : List Byte) (size : Nat) :
    uploadData b (env.answering g) mb buf size = uploadData b (env.answering k) mb buf size := by
  simp only [uploadData, uploadRounds_answering (g := g) (k := k)]
  rfl

variable (hread : ∀ q, g q 0 = k q 0)
include hread

/-- An upload opens the file for reading. -/
theorem uploadFile_answering (name : Path) :
    uploadFile b (env.answering g) name = uploadFile b (env.answering k) name := by
  have hopen : ∀ q, (env.answering g).realOpen q 0 = (env.answering k).realOpen q 0 := hread
  simp only [uploadFile, hopen, uploadData_answering (g := g) (k := k)]
  rfl

theorem openResolve_answering (p q : Path) (flags mode : Nat) :
    openResolve b (env.answering g) p q flags mode =
      openResolve b (env.answering k) p q flags mode := by
  simp only [openResolve, uploadFile_answering hread]
  rfl

end

theorem getEmptyFdLoop_answering {g k : Path → Nat → Int} (n i : Nat) :
    getEmptyFdLoop (env.answering g) n i = getEmptyFdLoop (env.answering k) n i := by
  induction n generalizing i with
  | zero => rfl
  | succ n ih =>
      simp only [getEmptyFdLoop, ih]
      rfl

/-- An `open` that is not forwarded opens no file of the kernel but for reading. -/
theorem not_opensReal (hexcl : exclusivePath p = false) {f : Nat} (hf : f ≠ 0) (flags mode : Nat)
    (q : Path) : ¬ OpensReal b env p flags mode q f := by
  rintro ⟨g, k, w, hsame, hne⟩
  have hread : ∀ q', g q' 0 = k q' 0 := fun q' => hsame q' 0 (fun h => hf h.2.symm)
  refine hne (congrFun ?_ w)
  simp only [sysOpen, openResolve_answering hread, hexcl, getEmptyFd,
    getEmptyFdLoop_answering (g := g) (k := k)]
  rfl

/-! The two tests compared. -/

/-- `build_abs_path` supports the form of `p`, and `q` is the absolute path that it assigns to it. -/
def AbsPathIs (env : Env) (p q : Path) : Prop :=
  (∀ w : World, buildAbsPath env p w = .ok (.built q) w) ∨
    q = p ∧ ∀ w : World, buildAbsPath env p w = .ok .alreadyAbsolute w

/-- The special names are found in `p` only where its absolute path begins with one. For
an absolute path, and for one that goes up to the root, any special name must be the
first one. For a path that starts from another directory the working directory decides. -/
def BypassSafe (names : List Path) (p : Path) : Prop :=
  if p.head? = some 47 ∨ ([46, 46, 47] <+: p ∧ names.length ≤ 1) then NamesSpecial p → TopSpecial p
  else if p = [46, 46] then ¬ ∃ d ∈ specialNames, ∃ e es, names.dropLast = d :: e :: es
  else (NamesSpecial p ↔ ∃ d ∈ specialNames, names.head? = some d)

theorem AbsPathIs.not_failed (h : AbsPathIs env p q)
    (hfail : ∀ w : World, buildAbsPath env p w = .ok .failed w) : False := by
  rcases h with h | ⟨_, h⟩
  · cases (hfail (initSys.view 0)).symm.trans (h (initSys.view 0))
  · cases (hfail (initSys.view 0)).symm.trans (h (initSys.view 0))

theorem AbsPathIs.short (h : AbsPathIs env p q) : p.length ≤ pathMax := by
  by_contra hlen
  exact h.not_failed (fun w => buildAbsPath_tooLong (Nat.not_le.mp hlen))

theorem AbsPathIs.built {t q' : Path} (h : AbsPathIs env p q)
    (hbuilt : ∀ w : World, buildAbsPath env p w = builtFrom t q' w) : q = q' := by
  have hw := hbuilt (initSys.view 0)
  rw [builtFrom] at hw
  rcases h with h | ⟨_, h⟩
  · rw [h] at hw
    split at hw
    · cases hw
      rfl
    · cases hw
  · rw [h] at hw
    split at hw
    · cases hw
    · cases hw

theorem AbsPathIs.absolute (h : AbsPathIs env (47 :: x) q) : q = 47 :: x := by
  have hbuild := fun w : World => @buildAbsPath_absolute World env x w h.short
  by_cases hdot : charAt x 0 = 46
  · exact (h.not_failed (fun w => (hbuild w).trans (if_pos hdot))).elim
  · rcases h with h | ⟨rfl, _⟩
    · cases (h (initSys.view 0)).symm.trans ((hbuild (initSys.view 0)).trans (if_neg hdot))
    · rfl

/-- The absolute path of a relative one begins with the first name of the directory. -/
theorem head_cwdNames {d : Path} (hd : d ≠ []) (names : List Path) :
    (cwdNames names).head? = some d ↔ names.head? = some d := by
  unfold cwdNames
  split
  · next h =>
      subst h
      simp [hd.symm]
  · rfl

theorem cwdNames_dropLast (names : List Path) : (cwdNames names).dropLast = names.dropLast := by
  unfold cwdNames
  split
  · next h =>
      subst h
      rfl
  · rfl

/-- Whether the two tests agree depends on the names alone. -/
theorem special_agree (hcwd : CwdIs env names) (hnul : (0 : Byte) ∉ p) (habs : AbsPathIs env p q) :
    (NamesSpecial p ↔ BelowSpecial q) ↔ BypassSafe names p := by
  have hslash : ∀ d ∈ cwdNames names, (47 : Byte) ∉ d := fun d hd => hcwd.no_slash hd
  have hstart : ∀ {x : Path}, BelowSpecial (pathOf (cwdNames names ++ [x])) ↔
      ∃ d ∈ specialNames, names.head? = some d := by
    intro x
    rw [belowSpecial_in hslash (cwdNames_ne_nil names)]
    exact exists_congr (fun d => and_congr_right (fun hd => head_cwdNames (special_ne_nil hd) names))
  have hparent : ∀ d ∈ names.dropLast, (47 : Byte) ∉ d :=
    fun d hd => (hcwd.proper d (List.mem_of_mem_dropLast hd)).2
  have hlen := habs.short
  cases pathForm p with
  | absolute x =>
      obtain rfl := habs.absolute
      have hfirst : (47 :: x : Path).head? = some 47 := rfl
      rw [belowSpecial_absolute, BypassSafe, if_pos (Or.inl hfirst)]
      exact ⟨Iff.mp, fun h => ⟨h, TopSpecial.occurs⟩⟩
  | dotDot =>
      obtain rfl := habs.built (fun w => buildAbsPath_dotDot hcwd)
      have hnone : ¬ NamesSpecial [46, 46] := by decide
      rw [cwdNames_dropLast, belowSpecial_dir hparent, BypassSafe, if_neg (by simp), if_pos rfl]
      exact iff_false_left hnone
  | parent x =>
      obtain rfl := habs.built (fun w => buildAbsPath_parent hcwd hlen)
      rw [cwdNames_dropLast, BypassSafe]
      by_cases hup : names.length ≤ 1
      · have hroot : names.dropLast = [] := by
          rw [← List.length_eq_zero_iff, List.length_dropLast]
          omega
        have hinner : innerNames (46 :: 46 :: 47 :: x) = innerNames (47 :: x) := by
          have hsplit : (46 :: 46 :: 47 :: x : Path).splitOn 47 = [46, 46] :: x.splitOn 47 :=
            List.splitOn_append_cons_self_of_not_mem (by decide : (47 : Byte) ∉ [46, 46]) x
          have hsplit' : (47 :: x : Path).splitOn 47 = [] :: x.splitOn 47 :=
            List.splitOn_append_cons_self [] x
          rw [innerNames, innerNames, hsplit, hsplit']
          rfl
        rw [hroot, if_pos (by simp [hup]), List.nil_append]
        change (_ ↔ BelowSpecial (47 :: x ++ [])) ↔ _
        rw [List.append_nil, belowSpecial_absolute, TopSpecial, TopSpecial, hinner]
        refine ⟨Iff.mp, fun h => ⟨h, ?_⟩⟩
        rintro ⟨d, hd, hhead⟩
        exact ⟨d, hd, hinner ▸ List.mem_of_mem_head? hhead⟩
      · have hdown : names.dropLast ≠ [] := by
          rw [← List.length_pos_iff, List.length_dropLast]
          omega
        have hhead : names.dropLast.head? = names.head? := by
          rcases names with _ | ⟨d, _ | ⟨e, es⟩⟩
          · rfl
          · exact absurd (Nat.le_refl 1) hup
          · rfl
        rw [belowSpecial_in hparent hdown, hhead, if_neg (by simp [hup]), if_neg (by simp)]
  | badDots c x hc =>
      have hc' : c ≠ 0 := by
        rintro rfl
        exact hnul (by simp)
      exact (habs.not_failed (fun w => buildAbsPath_badDots hlen hc hc')).elim
  | here x =>
      obtain rfl := habs.built (fun w => buildAbsPath_here hcwd hlen)
      rw [hstart, BypassSafe, if_neg (by simp), if_neg (by simp)]
  | plain p hfirst hdots hdot =>
      obtain rfl := habs.built (fun w => buildAbsPath_plain hcwd hlen hfirst hdots hdot)
      have hne : p ≠ [46, 46] := by
        rintro rfl
        exact hdots (List.prefix_refl _)
      have hparent : ¬ [46, 46, 47] <+: p :=
        fun h => hdots (List.IsPrefix.trans ⟨[47], rfl⟩ h)
      rw [hstart, BypassSafe, if_neg (by simp [hfirst, hparent]), if_neg hne]

/-- A path of a supported form is forwarded exactly when its absolute path begins with
`/dev/` or `/proc/`, and no other file is opened for writing by the kernel, if and only if
the names in it and in the working directory are safe. -/
theorem bypass_iff (b : Build) (hcwd : CwdIs env names) (hnul : (0 : Byte) ∉ p)
    (habs : AbsPathIs env p q) :
    ((Forwards b p ↔ BelowSpecial q) ∧
      ∀ flags mode q' f, WriteFlags f → OpensReal b env p flags mode q' f → BelowSpecial q) ↔
      BypassSafe names p := by
  rw [forwards_iff, exclusivePath_iff, special_agree hcwd hnul habs]
  refine ⟨And.left, fun hsafe => ⟨hsafe, fun flags mode q' f hwrite hreal => ?_⟩⟩
  have hne : f ≠ 0 := by
    rintro rfl
    rcases hwrite with h | h
    · exact absurd h (by decide)
    · exact absurd h (by decide)
  have hexcl : exclusivePath p = true := by
    by_contra hexcl
    exact not_opensReal (by simpa using hexcl) hne flags mode q' hreal
  exact ((special_agree hcwd hnul habs).mpr hsafe).mp (exclusivePath_iff.mp hexcl)

theorem absPathIs_absolute (hlen : (47 :: x : Path).length ≤ pathMax) (hdot : charAt x 0 ≠ 46) :
    AbsPathIs env (47 :: x) (47 :: x) :=
  Or.inr ⟨rfl, fun _ => (buildAbsPath_absolute hlen).trans (if_neg hdot)⟩

/-- `/dev/a` is forwarded from any directory. -/
theorem dev_forwarded :
    (Forwards defaultBuild [47, 100, 101, 118, 47, 97] ↔ BelowSpecial [47, 100, 101, 118, 47, 97]) ∧
      ∀ flags mode q' f, WriteFlags f →
        OpensReal defaultBuild inB [47, 100, 101, 118, 47, 97] flags mode q' f →
        BelowSpecial [47, 100, 101, 118, 47, 97] := by
  have hsafe : BypassSafe [[98]] [47, 100, 101, 118, 47, 97] := by
    rw [BypassSafe, if_pos (by decide)]
    decide
  exact (bypass_iff defaultBuild inB_cwd (by decide)
    (absPathIs_absolute (by decide) (by decide))).mpr hsafe

/-- The path `/a/dev/b` is forwarded, and it is not below `/dev`. -/
theorem inner_dev_forwarded :
    ¬ ∀ (b : Build) (env : Env) (names : List Path) (p q : Path), CwdIs env names →
      (0 : Byte) ∉ p → AbsPathIs env p q →
      (Forwards b p ↔ BelowSpecial q) ∧
        ∀ flags mode q' f, WriteFlags f → OpensReal b env p flags mode q' f → BelowSpecial q := by
  intro hall
  have habs : AbsPathIs inB [47, 97, 47, 100, 101, 118, 47, 98] [47, 97, 47, 100, 101, 118, 47, 98] :=
    absPathIs_absolute (by decide) (by decide)
  have hiff := (hall defaultBuild inB [[98]] _ _ inB_cwd (by decide) habs).1
  exact absurd (hiff.mp (forwards_iff.mpr (by decide))) (by decide)

end Spacefish
