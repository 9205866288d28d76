import Spacefish.PathForms
import Spacefish.Upload
import Spacefish.System

/-!
The keys of paths. The spellings of a file relative to the working directory have one
key, with two exceptions: in the root the slash is doubled, and a name that starts with
two dots is taken for a wrong format and becomes its own key. The length of the
argument is tested, and that of the key is not.
-/

namespace Spacefish

open Program Separated

/-- A name in a directory. -/
structure FileName (w : Path) : Prop where
  nonempty : w ≠ []
  noSlash : (47 : Byte) ∉ w
  noNul : (0 : Byte) ∉ w
  notDot : w ≠ [46]
  notDotDot : w ≠ [46, 46]

/-- The macro `BUILD_ABS_PATH_1` makes `q` of the path `p`. -/
def KeyIs (env : Env) (p q : Path) : Prop := ∀ w : World, buildAbsPath1 env p w = .ok q w

/-- The spellings of the name `w` in a working directory have the absolute path for key,
and `../w` has that of `w` in the parent. -/
structure OneKey (env : Env) (names : List Path) (w : Path) : Prop where
  plain : KeyIs env w (pathOf (names ++ [w]))
  here : KeyIs env (46 :: 47 :: w) (pathOf (names ++ [w]))
  absolute : KeyIs env (pathOf (names ++ [w])) (pathOf (names ++ [w]))
  parent : KeyIs env (46 :: 46 :: 47 :: w) (pathOf (names.dropLast ++ [w]))

variable {env : Env} {names : List Path} {p q w : Path}

theorem KeyIs.unique {q' : Path} (h : KeyIs env p q) (h' : KeyIs env p q') : q = q' :=
  (EStateM.Result.ok.inj ((h (initSys.view 0)).symm.trans (h' (initSys.view 0)))).1

/-- A key that was built is what was built, and fits the buffer. -/
theorem KeyIs.built {q' t : Path} (h : KeyIs env p q)
    (hbuilt : ∀ s : World, buildAbsPath env p s = builtFrom t q' s) : q = q' ∧ q.length < pathMax := by
  have hkey := (buildAbsPath1_built (hbuilt (initSys.view 0))).symm.trans (h (initSys.view 0))
  split at hkey
  · next hfit =>
      obtain rfl : q' = q := (EStateM.Result.ok.inj hkey).1
      exact ⟨rfl, hfit.2⟩
  · cases hkey

theorem pathOf_ne (hw : w.head? ≠ some 47) (names : List Path) (x : Path) :
    w ≠ pathOf (names ++ [x]) := by
  obtain ⟨y, hy⟩ : ∃ y, pathOf (names ++ [x]) = 47 :: y := exists_joined (by simp)
  rintro rfl
  exact hw (by rw [hy]; rfl)

theorem FileName.head (hw : FileName w) : w.head? ≠ some 47 := by
  intro h
  exact hw.noSlash (List.mem_of_mem_head? h)

theorem FileName.not_here (hw : FileName w) : ¬ [46, 47] <+: w := by
  rintro ⟨x, rfl⟩
  exact hw.noSlash (by simp)

/-- A name that starts with two dots, or is longer than `PATH_MAX`, is its own key. -/
theorem FileName.own_key (hw : FileName w) (h : [46, 46] <+: w ∨ pathMax < w.length) :
    KeyIs env w w := by
  intro s
  by_cases hlen : pathMax < w.length
  · exact buildAbsPath1_failed (buildAbsPath_tooLong hlen)
  · obtain ⟨x, rfl⟩ := h.resolve_right hlen
    cases x with
    | nil => exact absurd rfl hw.notDotDot
    | cons c x =>
        have hc : c ≠ 47 := by
          rintro rfl
          exact hw.noSlash (by simp)
        have hnul : c ≠ 0 := by
          rintro rfl
          exact hw.noNul (by simp)
        exact buildAbsPath1_failed (buildAbsPath_badDots (Nat.not_lt.mp hlen) hc hnul)

theorem KeyIs.of_built {t : Path} (h : ∀ s : World, buildAbsPath env p s = builtFrom t q s)
    (ht : t.length < pathMax) (hq : q.length < pathMax) : KeyIs env p q := by
  intro s
  rw [buildAbsPath1_built (h s), if_pos ⟨ht, hq⟩]

theorem key_length (hne : names ≠ []) (hcwd : CwdIs env names) :
    (pathOf (names.dropLast ++ [w])).length + 2 ≤ (pathOf (names ++ [w])).length := by
  have hlast : 0 < (names.getLast hne).length :=
    List.length_pos_of_ne_nil (hcwd.proper _ (List.getLast_mem hne)).1
  conv_rhs => rw [← List.dropLast_append_getLast hne]
  simp only [pathOf, joined_concat, List.length_append, List.length_cons]
  omega

/-- The spellings of a name have one key, an absolute one, exactly when the working
directory is not the root, the name does not start with two dots, and the path of the
file fits a buffer. -/
theorem one_key_iff (hcwd : CwdIs env names) (hw : FileName w) :
    OneKey env names w ↔
      names ≠ [] ∧ ¬ [46, 46] <+: w ∧ (pathOf (names ++ [w])).length < pathMax := by
  constructor
  · intro h
    have hown : ¬ ([46, 46] <+: w ∨ pathMax < w.length) := by
      intro hbad
      exact pathOf_ne hw.head names w ((hw.own_key hbad).unique h.plain)
    obtain ⟨hdots, hlen⟩ := not_or.mp hown
    obtain ⟨hkey, hfit⟩ := h.plain.built (fun s =>
      buildAbsPath_plain hcwd (Nat.not_lt.mp hlen) hw.head hdots hw.not_here)
    refine ⟨?_, hdots, hfit⟩
    rintro rfl
    have hsame := congrArg List.length hkey
    simp [pathOf, cwdNames] at hsame
  · rintro ⟨hne, hdots, hfit⟩
    have hnames : cwdNames names = names := if_neg hne
    have hlen : (pathOf (names ++ [w])).length = (pathOf names).length + w.length + 1 := by
      simp only [pathOf, joined_concat, List.length_append, List.length_cons]
      omega
    have hparent := key_length (w := w) hne hcwd
    have hshort : (pathOf (names.dropLast ++ [w])).length = (pathOf names.dropLast).length + w.length + 1 := by
      simp only [pathOf, joined_concat, List.length_append, List.length_cons]
      omega
    have hcopy : (46 :: 46 :: 47 :: w : Path).length < pathMax := by
      simp only [List.length_cons]
      omega
    have hcopy' : (46 :: 47 :: w : Path).length < pathMax := by
      simp only [List.length_cons] at hcopy ⊢
      omega
    refine ⟨.of_built (t := []) (fun s => ?_) (by decide) hfit,
      .of_built (t := 46 :: 47 :: w) (fun s => ?_) hcopy' hfit, fun s => ?_,
      .of_built (t := 46 :: 46 :: 47 :: w) (fun s => ?_) hcopy (by omega)⟩
    · rw [buildAbsPath_plain hcwd (by omega) hw.head hdots hw.not_here, hnames]
    · rw [buildAbsPath_here hcwd hcopy'.le, hnames]
    · obtain ⟨y, hy⟩ : ∃ y, pathOf (names ++ [w]) = 47 :: y := exists_joined (by simp)
      rw [hy]
      exact buildAbsPath1_absolute y
    · rw [buildAbsPath_parent hcwd hcopy.le, hnames]

/-- A process in the directory `/b`. -/
def inB : Env := { emptyDisk with cwd := some [47, 98] }

theorem inB_cwd : CwdIs inB [[98]] :=
  ⟨rfl, by decide, by decide⟩

theorem one_key_in_b : OneKey inB [[98]] [97] :=
  (one_key_iff inB_cwd ⟨by decide, by decide, by decide, by decide, by decide⟩).mpr
    ⟨by decide, by decide, by decide⟩

/-- `..a` is the name of a file in `/b`, and not an absolute path. -/
theorem dotted_name_not_absolute :
    ¬ ∀ (env : Env) (names : List Path) (w : Path), CwdIs env names → FileName w →
      OneKey env names w := by
  intro hall
  have hw : FileName [46, 46, 97] := ⟨by decide, by decide, by decide, by decide, by decide⟩
  have hkey := (hall inB [[98]] [46, 46, 97] inB_cwd hw).plain
  exact absurd ((hw.own_key (Or.inl (by decide))).unique hkey) (by decide)

/-! The buffers of `PATH_MAX` bytes. -/

/-- What `build_abs_path` writes for `p` stays in its buffers, and the key, which
`create_new_file` and `upload_file` copy to the path of a meta bucket, fits there. -/
def PathFits (env : Env) (p : Path) : Prop :=
  ∀ w : World, ∃ key, buildAbsPath1 env p w = .ok key w ∧
    ∀ mb, ∃ w', strcpyPath mb key w = .ok () w'

/-- The length of the absolute path: that of the directory the path starts from, a slash,
and what the path names there. A path that starts with two dots without a slash behind
them counts alone, as an absolute one does. -/
def absLength (names : List Path) (p : Path) : Nat :=
  if p.head? = some 47 then p.length
  else if p = [46, 46] then (pathOf (cwdNames names).dropLast).length
  else if [46, 46, 47] <+: p then (pathOf (cwdNames names).dropLast).length + (p.length - 2)
  else if [46, 46] <+: p then p.length
  else if [46, 47] <+: p then (cwdOf names).length + (p.length - 1)
  else (cwdOf names).length + (p.length + 1)

theorem strcpyPath_iff (key : Path) (w : World) :
    (∀ mb, ∃ w', strcpyPath mb key w = .ok () w') ↔ key.length < pathMax := by
  constructor
  · intro h
    obtain ⟨w', hw'⟩ := h 0
    by_contra hlong
    rw [strcpyPath, inPathBuffer, if_neg hlong] at hw'
    cases hw'
  · intro hlen mb
    rw [strcpyPath, inPathBuffer, if_pos hlen]
    exact ⟨_, rfl⟩

theorem pathFits_own (h : KeyIs env p p) : PathFits env p ↔ p.length < pathMax := by
  constructor
  · intro hfits
    obtain ⟨key, hkey, hcopy⟩ := hfits (initSys.view 0)
    obtain rfl : p = key := (EStateM.Result.ok.inj ((h _).symm.trans hkey)).1
    exact (strcpyPath_iff _ _).mp hcopy
  · intro hlen w
    exact ⟨p, h w, (strcpyPath_iff _ _).mpr hlen⟩

theorem pathFits_built {t : Path} (h : ∀ s : World, buildAbsPath env p s = builtFrom t q s) :
    PathFits env p ↔ t.length < pathMax ∧ q.length < pathMax := by
  constructor
  · intro hfits
    obtain ⟨key, hkey, _⟩ := hfits (initSys.view 0)
    have hbuilt := (buildAbsPath1_built (h (initSys.view 0))).symm.trans hkey
    split at hbuilt
    · assumption
    · cases hbuilt
  · intro hlen w
    exact ⟨q, KeyIs.of_built h hlen.1 hlen.2 w, (strcpyPath_iff _ _).mpr hlen.2⟩

/-- An accepted path stays in the buffers exactly when it and its absolute path are
shorter than `PATH_MAX`. -/
theorem path_fits_iff (hcwd : CwdIs env names) (hnul : (0 : Byte) ∉ p) (hlen : p.length ≤ pathMax) :
    PathFits env p ↔ p.length < pathMax ∧ absLength names p < pathMax := by
  cases pathForm p with
  | absolute x =>
      rw [pathFits_own (fun s => buildAbsPath1_absolute x)]
      simp [absLength]
  | dotDot =>
      rw [pathFits_built (fun s => buildAbsPath_dotDot hcwd)]
      simp [absLength, pathMax]
  | parent x =>
      rw [pathFits_built (fun s => buildAbsPath_parent hcwd hlen)]
      simp [absLength, pathOf]
  | badDots c x hc =>
      have hc' : c ≠ 0 := by
        rintro rfl
        exact hnul (by simp)
      rw [pathFits_own (fun s => buildAbsPath1_failed (buildAbsPath_badDots hlen hc hc'))]
      simp [absLength, hc.symm]
  | here x =>
      rw [pathFits_built (fun s => buildAbsPath_here hcwd hlen)]
      simp [absLength, cwdOf_eq, pathOf]
  | plain p hfirst hdots hdot =>
      rw [pathFits_built (fun s => buildAbsPath_plain hcwd hlen hfirst hdots hdot)]
      have hne : p ≠ [46, 46] := by
        rintro rfl
        exact hdots (List.prefix_refl _)
      have hparent : ¬ [46, 46, 47] <+: p :=
        fun h => hdots (List.IsPrefix.trans ⟨[47], rfl⟩ h)
      rw [absLength, if_neg hfirst, if_neg hne, if_neg hparent, if_neg hdots, if_neg hdot, cwdOf_eq]
      simp only [pathOf, joined_concat, List.length_append, List.length_cons, List.length_nil]
      have hpos : 0 < pathMax := by decide
      omega

theorem short_path_fits : PathFits inB [97] :=
  (path_fits_iff inB_cwd (by decide) (by decide)).mpr ⟨by decide, by decide⟩

/-- The longest path that `open` accepts. -/
def longestPath : Path := 47 :: List.replicate 4095 97

/-- It has no room for its NUL in a meta bucket. -/
theorem longest_path_overflows :
    ¬ ∀ (env : Env) (names : List Path) (p : Path), CwdIs env names → (0 : Byte) ∉ p →
      p.length ≤ pathMax → PathFits env p := by
  intro hall
  have hlength : longestPath.length = pathMax := by
    rw [longestPath, List.length_cons, List.length_replicate]
    rfl
  have hnul : (0 : Byte) ∉ longestPath := by
    intro hmem
    rcases List.mem_cons.mp hmem with h | h
    · exact absurd h (by decide)
    · exact absurd (List.eq_of_mem_replicate h) (by decide)
  have hfits := hall inB [[98]] longestPath inB_cwd hnul hlength.le
  have hshort := (pathFits_own (fun s => buildAbsPath1_absolute _)).mp hfits
  exact absurd hlength (Nat.ne_of_lt hshort)

end Spacefish
