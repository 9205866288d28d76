import Spacefish.Path
import Spacefish.Lib.Ends
import Spacefish.Lib.Separated

/-!
The forms of a path that `build_abs_path` tells apart, and what it makes of each of
them in a given working directory. A directory is given by the names on the way to it
from the root, and a path in it by one name more.
-/

namespace Spacefish

open Program Separated

/-- The absolute path with the given names. -/
def pathOf (names : List Path) : Path := joined 47 names

/-- The working directory with the given names, as `getcwd` writes it: `/` for the root. -/
def cwdOf (names : List Path) : Path := if names = [] then [47] else pathOf names

/-- `getcwd` returns the directory with the given names in its buffer of `PATH_MAX` bytes. -/
structure CwdIs (env : Env) (names : List Path) : Prop where
  cwd : env.cwd = some (cwdOf names)
  fits : (cwdOf names).length < pathMax
  proper : ∀ d ∈ names, d ≠ [] ∧ (47 : Byte) ∉ d

/-- The directory names in the string that `getcwd` returns; the root counts as one empty name. -/
def cwdNames (names : List Path) : List Path := if names = [] then [[]] else names

theorem cwdOf_eq (names : List Path) : cwdOf names = pathOf (cwdNames names) := by
  unfold cwdOf cwdNames
  split <;> rfl

theorem cwdNames_ne_nil (names : List Path) : cwdNames names ≠ [] := by
  unfold cwdNames
  split
  · simp
  · assumption

/-- The forms of a path. -/
inductive PathForm : Path → Prop
  | absolute (x : Path) : PathForm (47 :: x)
  | dotDot : PathForm [46, 46]
  | parent (x : Path) : PathForm (46 :: 46 :: 47 :: x)
  | badDots (c : Byte) (x : Path) (hc : c ≠ 47) : PathForm (46 :: 46 :: c :: x)
  | here (x : Path) : PathForm (46 :: 47 :: x)
  | plain (p : Path) (hfirst : p.head? ≠ some 47) (hdots : ¬ [46, 46] <+: p) (hdot : ¬ [46, 47] <+: p) :
      PathForm p

theorem pathForm (p : Path) : PathForm p := by
  by_cases hfirst : p.head? = some 47
  · obtain ⟨x, rfl⟩ : ∃ x, p = 47 :: x := by
      cases p with
      | nil => cases hfirst
      | cons c x => exact ⟨x, congrArg (· :: x) (Option.some.inj hfirst)⟩
    exact .absolute x
  · by_cases hdots : [46, 46] <+: p
    · obtain ⟨x, rfl⟩ := hdots
      cases x with
      | nil => exact .dotDot
      | cons c x =>
          by_cases hc : c = 47
          · subst hc
            exact .parent x
          · exact .badDots c x hc
    · by_cases hdot : [46, 47] <+: p
      · obtain ⟨x, rfl⟩ := hdot
        exact .here x
      · exact .plain p hfirst hdots hdot

/-! The string that is built in the buffers for each form. -/

variable {σ : Type} {env : Env} {names : List Path} {p q x : Path} {s : σ}

/-- The result of building `q` in the buffers, when `tmp` holds `t` meanwhile. -/
def builtFrom (t q : Path) (s : σ) : EStateM.Result Halt σ AbsPath :=
  if t.length < pathMax ∧ q.length < pathMax then .ok (.built q) s else .error .undefined s

theorem inPathBuffer_bind {α : Type} (k : Path → Op σ α) :
    ((inPathBuffer p : Op σ Path) >>= k) s =
      if p.length < pathMax then k p s else .error .undefined s := by
  rw [inPathBuffer]
  split
  · rfl
  · rfl

/-- The string is built and returned. -/
theorem buildAbs_eq : ((inPathBuffer q : Op σ Path) >>= fun abs => pure (.built abs)) s =
    builtFrom [] q s := by
  have hnil : ([] : Path).length < pathMax := by decide
  rw [inPathBuffer_bind, builtFrom]
  by_cases hq : q.length < pathMax
  · rw [if_pos hq, if_pos ⟨hnil, hq⟩]
    rfl
  · rw [if_neg hq, if_neg (fun h => hq h.2)]

/-- The argument is copied before. -/
theorem copyThenBuild {k : Path → Op σ AbsPath} (hk : k p s = builtFrom [] q s) :
    ((inPathBuffer p : Op σ Path) >>= k) s = builtFrom p q s := by
  have hnil : ([] : Path).length < pathMax := by decide
  rw [inPathBuffer_bind, builtFrom]
  by_cases hp : p.length < pathMax
  · rw [if_pos hp, hk, builtFrom]
    simp only [hnil, hp, true_and]
  · rw [if_neg hp, if_neg (fun h => hp h.1)]

theorem getcwd_bind (hcwd : CwdIs env names) {α : Type} (k : Path → Op σ α) :
    ((getcwd env : Op σ Path) >>= k) s = k (cwdOf names) s := by
  rw [getcwd, hcwd.cwd]
  rfl

theorem CwdIs.no_slash (hcwd : CwdIs env names) {d : Path} (hd : d ∈ cwdNames names) :
    (47 : Byte) ∉ d := by
  unfold cwdNames at hd
  split at hd
  · obtain rfl := List.mem_singleton.mp hd
    simp
  · exact (hcwd.proper d hd).2

/-- The part of the working directory in front of its last slash. -/
theorem beforeLastSlash_bind (hcwd : CwdIs env names) {α : Type} (k : Path → Op σ α) :
    ((beforeLastSlash (cwdOf names) : Op σ Path) >>= k) s =
      k (pathOf (cwdNames names).dropLast) s := by
  have hne := cwdNames_ne_nil names
  have hlast := hcwd.no_slash (List.getLast_mem hne)
  have hsplit := List.dropLast_append_getLast hne
  obtain ⟨y, hy⟩ : ∃ y, pathOf (cwdNames names) = 47 :: y := exists_joined hne
  have hslash : (pathOf (cwdNames names)).contains 47 = true := by
    rw [hy]
    simp
  have hbefore : _ = joined 47 (cwdNames names).dropLast := beforeLast_joined hlast
  rw [hsplit] at hbefore
  rw [beforeLastSlash, cwdOf_eq, if_pos hslash, pathOf, hbefore]
  rfl

@[simp] theorem charAt_zero (c : Byte) (x : Path) : charAt (c :: x) 0 = c := rfl

@[simp] theorem charAt_succ (c : Byte) (x : Path) (i : Nat) :
    charAt (c :: x) (i + 1) = charAt x i := rfl

@[simp] theorem charAt_nil (i : Nat) : charAt [] i = 0 := rfl

theorem buildAbsPath_tooLong (hlen : pathMax < p.length) :
    (buildAbsPath env p : Op σ AbsPath) s = .ok .failed s := by
  rw [buildAbsPath, run_ite, if_pos hlen]
  rfl

/-- An absolute path is returned as it is; one that starts with `/.` is not supported. -/
theorem buildAbsPath_absolute (hlen : (47 :: x : Path).length ≤ pathMax) :
    (buildAbsPath env (47 :: x) : Op σ AbsPath) s =
      if charAt x 0 = 46 then .ok .failed s else .ok .alreadyAbsolute s := by
  rw [buildAbsPath, run_ite, if_neg (Nat.not_lt.mpr hlen), run_ite]
  by_cases hdot : charAt x 0 = 46
  · rw [if_neg (by simp [hdot]), run_ite, if_neg (by simp), run_ite, if_neg (by simp), run_ite,
      if_neg (by simp), run_ite, if_neg (by simp), run_ite, if_neg (by simp), if_pos hdot]
    rfl
  · rw [if_pos ⟨rfl, hdot⟩, if_neg hdot]
    rfl

theorem buildAbsPath_badDots {c : Byte} (hlen : (46 :: 46 :: c :: x : Path).length ≤ pathMax)
    (hc : c ≠ 47) (hnul : c ≠ 0) :
    (buildAbsPath env (46 :: 46 :: c :: x) : Op σ AbsPath) s = .ok .failed s := by
  have hthird : charAt (46 :: 46 :: c :: x) 2 ≠ 47 := hc
  rw [buildAbsPath, run_ite, if_neg (Nat.not_lt.mpr hlen), run_ite, if_neg (by simp), run_ite,
    if_neg (by simp [hnul]), run_ite, if_pos (by simp), run_ite, if_pos hthird]
  rfl

section

variable (hcwd : CwdIs env names)
include hcwd

theorem buildAbsPath_dotDot :
    (buildAbsPath env [46, 46] : Op σ AbsPath) s =
      builtFrom [] (pathOf (cwdNames names).dropLast) s := by
  rw [buildAbsPath, run_ite, if_neg (by decide), run_ite, if_neg (by simp), run_ite,
    if_pos (by simp), getcwd_bind hcwd, beforeLastSlash_bind hcwd, buildAbs_eq]

theorem buildAbsPath_parent (hlen : (46 :: 46 :: 47 :: x : Path).length ≤ pathMax) :
    (buildAbsPath env (46 :: 46 :: 47 :: x) : Op σ AbsPath) s =
      builtFrom (46 :: 46 :: 47 :: x) (pathOf ((cwdNames names).dropLast ++ [x])) s := by
  rw [buildAbsPath, run_ite, if_neg (Nat.not_lt.mpr hlen), run_ite, if_neg (by simp), run_ite,
    if_neg (by simp), run_ite, if_pos (by simp), run_ite, if_neg (by simp)]
  refine copyThenBuild ?_
  rw [getcwd_bind hcwd, beforeLastSlash_bind hcwd, buildAbs_eq, pathOf, pathOf, joined_concat,
    List.append_assoc]
  rfl

theorem buildAbsPath_here (hlen : (46 :: 47 :: x : Path).length ≤ pathMax) :
    (buildAbsPath env (46 :: 47 :: x) : Op σ AbsPath) s =
      builtFrom (46 :: 47 :: x) (pathOf (cwdNames names ++ [x])) s := by
  rw [buildAbsPath, run_ite, if_neg (Nat.not_lt.mpr hlen), run_ite, if_neg (by simp), run_ite,
    if_neg (by simp), run_ite, if_neg (by simp), run_ite, if_pos (by simp)]
  refine copyThenBuild ?_
  rw [getcwd_bind hcwd, buildAbs_eq, cwdOf_eq, pathOf, pathOf, joined_concat, List.append_assoc]
  rfl

/-- The path of the directory, a slash, and the argument: also for a single dot, which the
code that is meant for it never sees. -/
theorem buildAbsPath_plain (hlen : p.length ≤ pathMax) (hfirst : p.head? ≠ some 47)
    (hdots : ¬ [46, 46] <+: p) (hdot : ¬ [46, 47] <+: p) :
    (buildAbsPath env p : Op σ AbsPath) s = builtFrom [] (pathOf (cwdNames names ++ [p])) s := by
  have hslash : charAt p 0 ≠ 47 := by
    cases p with
    | nil => decide
    | cons c x => exact fun hc => hfirst (congrArg some hc)
  have hsecond : charAt p 0 = 46 → charAt p 1 ≠ 46 ∧ charAt p 1 ≠ 47 := by
    intro hc
    rcases p with _ | ⟨c, _ | ⟨c', x⟩⟩
    · cases hc
    · exact ⟨(by decide : (0 : Byte) ≠ 46), (by decide : (0 : Byte) ≠ 47)⟩
    · obtain rfl : c = 46 := hc
      refine ⟨?_, ?_⟩
      · rintro (rfl : c' = 46)
        exact hdots ⟨x, rfl⟩
      · rintro (rfl : c' = 47)
        exact hdot ⟨x, rfl⟩
  have hplain : (charAt p 0 ≠ 47 ∧ charAt p 0 ≠ 46) ∨
      (charAt p 0 = 46 ∧ charAt p 1 ≠ 46 ∧ charAt p 1 ≠ 47) := by
    by_cases hc : charAt p 0 = 46
    · exact Or.inr ⟨hc, hsecond hc⟩
    · exact Or.inl ⟨hslash, hc⟩
  rw [buildAbsPath, run_ite, if_neg (Nat.not_lt.mpr hlen), run_ite, if_neg (fun h => hslash h.1),
    run_ite, if_neg (fun h => (hsecond h.2.1).1 h.2.2.1), run_ite,
    if_neg (fun h => (hsecond h.2.1).1 h.2.2), run_ite, if_neg (fun h => (hsecond h.2.1).2 h.2.2),
    run_ite, if_pos hplain, getcwd_bind hcwd, buildAbs_eq, cwdOf_eq, pathOf, pathOf, joined_concat,
    List.append_assoc]
  rfl

end

/-! The key of a path: what the macro makes of the result. -/

theorem buildAbsPath1_built {t : Path} (h : (buildAbsPath env p : Op σ AbsPath) s = builtFrom t q s) :
    (buildAbsPath1 env p : Op σ Path) s =
      if t.length < pathMax ∧ q.length < pathMax then .ok q s else .error .undefined s := by
  rw [buildAbsPath1]
  by_cases hfit : t.length < pathMax ∧ q.length < pathMax
  · rw [builtFrom, if_pos hfit] at h
    rw [bind_of_ok h, if_pos hfit]
    rfl
  · rw [builtFrom, if_neg hfit] at h
    rw [bind_of_error h, if_neg hfit]

theorem buildAbsPath1_failed (h : (buildAbsPath env p : Op σ AbsPath) s = .ok .failed s) :
    (buildAbsPath1 env p : Op σ Path) s = .ok p s := by
  rw [buildAbsPath1, bind_of_ok h]
  rfl

/-- An absolute path is its own key, supported or not. -/
theorem buildAbsPath1_absolute (x : Path) :
    (buildAbsPath1 env (47 :: x) : Op σ Path) s = .ok (47 :: x) s := by
  by_cases hlen : (47 :: x : Path).length ≤ pathMax
  · have hbuild := @buildAbsPath_absolute σ env x s hlen
    split at hbuild
    · exact buildAbsPath1_failed hbuild
    · rw [buildAbsPath1, bind_of_ok hbuild]
      rfl
  · exact buildAbsPath1_failed (buildAbsPath_tooLong (Nat.not_le.mp hlen))

end Spacefish
