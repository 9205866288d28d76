import Spacefish.Lib.LinkedArray

/-!
Several lists in one array. Every key that is used has a list; the lists share no
node, and all their nodes are live, so a node that is not live is on none of them.
All edits change the list of one key: a fresh node behind its last one, a list for a
key that had none, a cut behind its first node.
-/

namespace LinkedArray

variable {ι κ : Type*} {next next' : ι → ι} {nil b k : ι} {live live' : ι → Prop}
  {used used' : κ → Prop} {first first' : κ → ι} {lists : κ → List ι} {l pre : List ι} {m : κ}

/-- The lists of the used keys: linked, live and disjoint. -/
structure Lists (next : ι → ι) (nil : ι) (live : ι → Prop) (used : κ → Prop) (first : κ → ι)
    (lists : κ → List ι) : Prop where
  linked : ∀ m, used m → Linked next nil (first m) (lists m)
  live : ∀ m, used m → ∀ b ∈ lists m, live b
  apart : ∀ m m', used m → used m' → ∀ b ∈ lists m, b ∈ lists m' → m = m'

/-- Only the links of live nodes matter. -/
theorem Lists.congr (h : Lists next nil live used first lists)
    (hkeep : ∀ b, live b → next' b = next b ∧ live' b) :
    Lists next' nil live' used first lists := by
  refine ⟨fun a ha => ?_, fun a ha b hb => (hkeep b (h.live a ha b hb)).2, h.apart⟩
  exact (h.linked a ha).congr (fun b hb => (hkeep b (h.live a ha b hb)).1)

/-- Keys may go out of use. -/
theorem Lists.keys (h : Lists next nil live used first lists)
    (hkeys : ∀ a, used' a → used a ∧ first' a = first a) :
    Lists next nil live used' first' lists := by
  refine ⟨fun a ha => ?_, fun a ha => h.live a (hkeys a ha).1,
    fun a a' ha ha' => h.apart a a' (hkeys a ha).1 (hkeys a' ha').1⟩
  rw [(hkeys a ha).2]
  exact h.linked a (hkeys a ha).1

/-- The nodes of one list are on no other. -/
theorem Lists.not_mem {a : κ} (h : Lists next nil live used first lists) (hm : used m)
    (ha : used a) (hne : a ≠ m) (hb : b ∈ lists m) : b ∉ lists a :=
  fun hmem => hne (h.apart a m ha hm b hmem hb)

variable [DecidableEq κ]

/-- One key gets another list, and the others keep theirs. -/
theorem Lists.replace (h : Lists next nil live used first lists)
    (hkeys : ∀ a ≠ m, used' a → used a ∧ first' a = first a)
    (hframe : ∀ a ≠ m, used a → ∀ b ∈ lists a, next' b = next b ∧ live' b)
    (hlinked : used' m → Linked next' nil (first' m) l)
    (hlive : ∀ b ∈ l, live' b ∧ ∀ a ≠ m, used a → b ∉ lists a) :
    Lists next' nil live' used' first' (Function.update lists m l) := by
  refine ⟨fun a ha => ?_, fun a ha b hb => ?_, fun a a' ha ha' b hb hb' => ?_⟩
  · by_cases hne : a = m
    · subst hne
      rw [Function.update_self]
      exact hlinked ha
    · obtain ⟨hold, hfirst⟩ := hkeys a hne ha
      rw [Function.update_of_ne hne, hfirst]
      exact (h.linked a hold).congr (fun b hb => (hframe a hne hold b hb).1)
  · by_cases hne : a = m
    · subst hne
      rw [Function.update_self] at hb
      exact (hlive b hb).1
    · rw [Function.update_of_ne hne] at hb
      exact (hframe a hne (hkeys a hne ha).1 b hb).2
  · by_cases hne : a = m <;> by_cases hne' : a' = m
    · rw [hne, hne']
    · subst hne
      rw [Function.update_self] at hb
      rw [Function.update_of_ne hne'] at hb'
      exact absurd hb' ((hlive b hb).2 a' hne' (hkeys a' hne' ha').1)
    · subst hne'
      rw [Function.update_of_ne hne] at hb
      rw [Function.update_self] at hb'
      exact absurd hb ((hlive b hb').2 a hne (hkeys a hne ha).1)
    · rw [Function.update_of_ne hne] at hb
      rw [Function.update_of_ne hne'] at hb'
      exact h.apart a a' (hkeys a hne ha).1 (hkeys a' hne' ha').1 b hb hb'

/-- A node that is on no list is linked behind the last one of a list. -/
theorem Lists.extend [DecidableEq ι] (h : Lists next nil live used first lists) (hm : used m)
    (hsplit : lists m = pre ++ [b]) (hfresh : ∀ a, used a → k ∉ lists a) (hk : live k)
    (hknil : k ≠ nil) (hend : next k = nil) :
    Lists (Function.update next b k) nil live used first
      (Function.update lists m (pre ++ [b] ++ [k])) := by
  have hb : b ∈ lists m := by simp [hsplit]
  have hkb : k ≠ b := by
    rintro rfl
    exact hfresh m hm hb
  refine h.replace (fun a _ ha => ⟨ha, rfl⟩) (fun a hne ha c hc => ⟨?_, h.live a ha c hc⟩)
    (fun _ => ?_) (fun c hc => ?_)
  · refine Function.update_of_ne ?_ _ _
    rintro rfl
    exact h.not_mem hm ha hne hb hc
  · have hl := hsplit ▸ h.linked m hm
    have hnodup := Linked.nodup hl
    refine Seg.splice hl (fun hin => ?_) ⟨rfl, hknil, hend⟩ (by simpa using hkb.symm)
    exact (List.nodup_append.mp hnodup).2.2 b hin b (by simp) rfl
  · rcases List.mem_append.mp hc with hc | hc
    · rw [← hsplit] at hc
      exact ⟨h.live m hm c hc, fun a hne ha => h.not_mem hm ha hne hc⟩
    · obtain rfl : c = k := by simpa using hc
      exact ⟨hk, fun a _ ha => hfresh a ha⟩

/-- A key starts a list with a node that is on no list. -/
theorem Lists.adopt (h : Lists next nil live used first lists)
    (hkeys : ∀ a ≠ m, used' a → used a ∧ first' a = first a) (hfirst : first' m = k)
    (hfresh : ∀ a, used a → k ∉ lists a) (hk : live k) (hknil : k ≠ nil) (hend : next k = nil) :
    Lists next nil live used' first' (Function.update lists m [k]) := by
  refine h.replace hkeys (fun a _ ha b hb => ⟨rfl, h.live a ha b hb⟩)
    (fun _ => ⟨hfirst, hknil, hend⟩) (fun c hc => ?_)
  obtain rfl : c = k := by simpa using hc
  exact ⟨hk, fun a _ ha => hfresh a ha⟩

/-- A key starts with the empty list. -/
theorem Lists.begin (h : Lists next nil live used first lists)
    (hkeys : ∀ a ≠ m, used' a → used a ∧ first' a = first a) (hfirst : first' m = nil) :
    Lists next nil live used' first' (Function.update lists m []) :=
  h.replace hkeys (fun a _ ha b hb => ⟨rfl, h.live a ha b hb⟩) (fun _ => hfirst)
    (fun _ hc => by cases hc)

/-- A list is cut behind its first node; the nodes cut off need not stay live. -/
theorem Lists.cut (h : Lists next nil live used first lists) (hm : used m)
    (hsplit : lists m = b :: l) (hnext : ∀ c, c ≠ b → next' c = next c) (hend : next' b = nil)
    (hlive : ∀ c, live c → c ∉ l → live' c) :
    Lists next' nil live' used first (Function.update lists m [b]) := by
  have hl := hsplit ▸ h.linked m hm
  have hb : b ∈ lists m := by simp [hsplit]
  have hbl : b ∉ l := (List.nodup_cons.mp (Linked.nodup hl)).1
  refine h.replace (fun a _ ha => ⟨ha, rfl⟩) (fun a hne ha c hc => ⟨?_, ?_⟩)
    (fun _ => ⟨hl.1, hl.2.1, hend⟩) (fun c hc => ?_)
  · refine hnext c ?_
    rintro rfl
    exact h.not_mem hm ha hne hb hc
  · refine hlive c (h.live a ha c hc) (fun hin => ?_)
    exact h.not_mem hm ha hne (by simp [hsplit, hin]) hc
  · obtain rfl : c = b := by simpa using hc
    exact ⟨hlive c (h.live m hm c hb) hbl, fun a hne ha => h.not_mem hm ha hne hb⟩

end LinkedArray
