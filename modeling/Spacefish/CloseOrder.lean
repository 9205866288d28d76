import Mathlib.Data.Prod.Lex
import Mathlib.Order.Bounds.Basic
import Mathlib.Data.Finset.Basic
import Spacefish.FileCalls
import Spacefish.System

/-!
The time stamps that `close` moves from the descriptor to the file. Each of the three
is raised to the later one, so a file that several descriptors are closed on ends with
the latest of its own stamps and theirs, in whatever order they are closed.
-/

namespace Spacefish

open Program

/-- The order of times: by seconds, then by nanoseconds. -/
def Timespec.key (t : Timespec) : ℤ ×ₗ ℤ := toLex (t.tvSec, t.tvNsec)

theorem Timespec.key_injective : Function.Injective Timespec.key := by
  intro a b h
  have hpair : (a.tvSec, a.tvNsec) = (b.tvSec, b.tvNsec) := h
  obtain ⟨hsec, hnsec⟩ := Prod.mk.inj hpair
  cases a
  cases b
  cases hsec
  cases hnsec
  rfl

instance : LinearOrder Timespec := LinearOrder.lift' Timespec.key Timespec.key_injective

theorem Timespec.lt_iff {a b : Timespec} :
    a < b ↔ a.tvSec < b.tvSec ∨ a.tvSec = b.tvSec ∧ a.tvNsec < b.tvNsec :=
  Prod.Lex.toLex_lt_toLex

/-- `timespec_comp` is the strict order. -/
theorem timespecComp_iff (a b : Timespec) : timespecComp a b = true ↔ b < a := by
  rw [timespecComp, Timespec.lt_iff]
  split
  · next hsec =>
      rw [decide_eq_true_iff]
      omega
  · next hsec =>
      rw [decide_eq_true_iff]
      omega

/-- The assignment behind `STAMP_CHECK` takes the later time when the bit is set. -/
theorem stampCheck_eq (type bit : Nat) (a b : Timespec) :
    stampCheck type bit a b = if hasStamp type bit then max a b else b := by
  rw [stampCheck]
  cases hasStamp type bit with
  | false => rfl
  | true =>
      by_cases hlt : b < a
      · simp [(timespecComp_iff a b).mpr hlt, max_eq_left hlt.le]
      · have hno : timespecComp a b = false := by
          rw [← Bool.not_eq_true, timespecComp_iff]
          exact hlt
        simp [hno, max_eq_right (not_lt.mp hlt)]

/-- The three stamps of a file. -/
inductive StampField where
  | atim
  | mtim
  | ctim

def StampField.get : StampField → Stat → Timespec
  | .atim => Stat.stAtim
  | .mtim => Stat.stMtim
  | .ctim => Stat.stCtim

/-- The bit of `stamp_type` that goes with a stamp. -/
def StampField.bit : StampField → Nat
  | .atim => stAcs
  | .mtim => stMod
  | .ctim => stChg

theorem closeStamps_get (field : StampField) (f : FdInfo) (s : Stat) :
    field.get (closeStamps f s) =
      if hasStamp f.stampType field.bit then max (field.get f.privS) (field.get s)
      else field.get s := by
  rw [← stampCheck_eq]
  cases field <;> rfl

theorem closeStamps_le (field : StampField) (f : FdInfo) (s : Stat) :
    field.get s ≤ field.get (closeStamps f s) := by
  rw [closeStamps_get]
  split
  · exact le_max_right _ _
  · exact le_refl _

/-- Two elements may be replaced by the greater one. -/
theorem isGreatest_insert_max {α : Type*} [LinearOrder α] {a b x : α} {S : Set α}
    (h : IsGreatest (insert (max a b) S) x) : IsGreatest (insert b (insert a S)) x := by
  have hmax : max a b ≤ x := h.2 (Set.mem_insert _ _)
  refine ⟨?_, ?_⟩
  · rcases h.1 with rfl | hx
    · rcases max_choice a b with hab | hab
      · rw [hab]
        exact Or.inr (Or.inl rfl)
      · rw [hab]
        exact Or.inl rfl
    · exact Or.inr (Or.inr hx)
  · rintro y (rfl | rfl | hy)
    · exact (le_max_right _ _).trans hmax
    · exact (le_max_left _ _).trans hmax
    · exact h.2 (Or.inr hy)

variable {b : Build} {s : Sys} {env : Env} {m : Nat} {fd : Int} {pid : Nat}

/-- The entry of a descriptor, named by its process and its number. -/
def Sys.slot (s : Sys) (d : Nat × Int) : FdInfo := s.fds d.1 d.2.toNat

/-- Close the descriptors of a list one after the other. -/
def closeAll (b : Build) (env : Nat × Int → Env) : Sys → List (Nat × Int) → Sys
  | s, [] => s
  | s, d :: order => closeAll b env (exec b s ⟨d.1, env d, .close d.2⟩).2 order

/-- The stamps of the given descriptors that a `close` moves to the file. -/
def deferredStamps (s : Sys) (field : StampField) (fds : Set (Nat × Int)) : Set Timespec :=
  {t | ∃ d ∈ fds, hasStamp (s.slot d).stampType field.bit = true ∧ t = field.get (s.slot d).privS}

theorem exec_of_ok {e : Event} {r : Ret} {w : World}
    (h : callOp b e.env e.call (s.view e.pid) = .ok r w) : exec b s e = (.ret r, s.put e.pid w) := by
  rw [exec, h]

/-- The state after a descriptor of the store was closed. -/
theorem exec_close (hu : UserFd (s.view pid) fd m) :
    (exec b s ⟨pid, env, .close fd⟩).2 =
      s.put pid ⟨s.table.setMb m (fun a => { a with s := closeStamps (s.slot (pid, fd)) a.s }),
        s.data, Function.update (s.fds pid) fd.toNat (resetFd (s.slot (pid, fd)))⟩ := by
  rw [exec_of_ok (e := ⟨pid, env, .close fd⟩) (sysClose_user hu)]
  rfl

/-- The other descriptors are left alone. -/
theorem close_slot {d d' : Nat × Int} {e : Env} (hu : UserFd (s.view d.1) d.2 m) (hpos : 0 ≤ d'.2)
    (hne : d' ≠ d) : (exec b s ⟨d.1, e, .close d.2⟩).2.slot d' = s.slot d' := by
  rw [exec_close hu]
  unfold Sys.slot Sys.put
  dsimp only
  by_cases hpid : d'.1 = d.1
  · have hfd : d'.2.toNat ≠ d.2.toNat := by
      intro heq
      have := hu.pos
      exact hne (Prod.ext hpid (by omega))
    rw [hpid, Function.update_self, Function.update_of_ne hfd]
  · rw [Function.update_of_ne hpid]

theorem close_userFd {d d' : Nat × Int} {e : Env} (hu : UserFd (s.view d.1) d.2 m)
    (hu' : UserFd (s.view d'.1) d'.2 m) (hne : d' ≠ d) :
    UserFd ((exec b s ⟨d.1, e, .close d.2⟩).2.view d'.1) d'.2 m := by
  have hslot : ((exec b s ⟨d.1, e, .close d.2⟩).2.view d'.1).fdTable d'.2.toNat =
      (s.view d'.1).fdTable d'.2.toNat := close_slot hu hu'.pos hne
  refine ⟨hu'.pos, hu'.lt, ?_, ?_, ?_⟩
  · rw [hslot]
    exact hu'.exclusive
  · rw [hslot]
    exact hu'.nonempty
  · rw [hslot]
    exact hu'.mindex

/-- Closing the descriptors of a list leaves the latest of the stamps. -/
theorem closeAll_greatest {order : List (Nat × Int)} (hnodup : order.Nodup)
    (hopen : ∀ d ∈ order, UserFd (s.view d.1) d.2 m) (env : Nat × Int → Env) (field : StampField) :
    IsGreatest (insert (field.get (s.table.mb m).s) (deferredStamps s field {d | d ∈ order}))
      (field.get ((closeAll b env s order).table.mb m).s) := by
  induction order generalizing s with
  | nil => exact ⟨Set.mem_insert _ _, by simp [deferredStamps, closeAll, upperBounds]⟩
  | cons d order ih =>
      obtain ⟨hd, hnodup⟩ := List.nodup_cons.mp hnodup
      obtain ⟨hu, hrest⟩ := List.forall_mem_cons.mp hopen
      have hne : ∀ d' ∈ order, d' ≠ d := fun d' hd' heq => hd (heq ▸ hd')
      have hih := ih hnodup (s := (exec b s ⟨d.1, env d, .close d.2⟩).2)
        (fun d' hd' => close_userFd hu (hrest d' hd') (hne d' hd'))
      have hkept : deferredStamps (exec b s ⟨d.1, env d, .close d.2⟩).2 field {d | d ∈ order} =
          deferredStamps s field {d | d ∈ order} := by
        ext t
        refine exists_congr (fun d' => and_congr_right (fun hd' => ?_))
        rw [close_slot hu (hrest d' hd').pos (hne d' hd')]
      have hstamp : field.get ((exec b s ⟨d.1, env d, .close d.2⟩).2.table.mb m).s =
          if hasStamp (s.slot d).stampType field.bit then
            max (field.get (s.slot d).privS) (field.get (s.table.mb m).s)
          else field.get (s.table.mb m).s := by
        rw [← closeStamps_get, exec_close hu, Sys.put, setMb_mb_self]
      rw [hkept, hstamp] at hih
      have hcons : deferredStamps s field {d' | d' ∈ d :: order} =
          if hasStamp (s.slot d).stampType field.bit then
            insert (field.get (s.slot d).privS) (deferredStamps s field {d' | d' ∈ order})
          else deferredStamps s field {d' | d' ∈ order} := by
        ext t
        simp only [deferredStamps, Set.mem_ofPred_eq, List.mem_cons, or_and_right, exists_or,
          exists_eq_left]
        cases hasStamp (s.slot d).stampType field.bit <;> simp
      rw [hcons, closeAll]
      cases hbit : hasStamp (s.slot d).stampType field.bit with
      | false =>
          rw [hbit] at hih
          exact hih
      | true =>
          rw [hbit] at hih
          exact isGreatest_insert_max hih

theorem sysClose_other {w : World} (hno : ∀ m, ¬ UserFd w fd m) :
    Ends (sysClose env fd w) (fun _ w' => w'.table = w.table) (fun _ w' => w'.table = w.table) := by
  refine (sysClose_ends env fd w).mono ?_ ?_
  · rintro r w' ⟨_, _, hclose⟩
    cases hclose with
    | kernel => rfl
    | refused => rfl
    | unopened => rfl
    | store hu => exact absurd hu (hno _)
  · rintro e w' ⟨_, rfl, _⟩
    rfl

/-- No call of `close` moves a stamp of a file backwards. -/
theorem close_le (env : Env) (fd : Int) (pid : Nat) (a : Int) (field : StampField) :
    field.get (s.table.mb a).s ≤
      field.get ((exec b s ⟨pid, env, .close fd⟩).2.table.mb a).s := by
  by_cases hex : ∃ m, UserFd (s.view pid) fd m
  · obtain ⟨m, hu⟩ := hex
    rw [exec_close hu, Sys.put]
    by_cases ham : a = m
    · subst ham
      rw [setMb_mb_self]
      exact closeStamps_le field _ _
    · rw [setMb_mb_of_ne _ ham]
  · have hcall : Ends (callOp b env (.close fd) (s.view pid))
        (fun _ w' => w'.table = s.table) (fun _ w' => w'.table = s.table) :=
      sysClose_other (fun m hu => hex ⟨m, hu⟩)
    rcases exec_ends (e := ⟨pid, env, .close fd⟩) hcall (Prod.eta _).symm with
      ⟨r, w', _, hs, htab⟩ | ⟨h, w', _, hs, htab⟩
    · rw [hs, Sys.put, htab]
    · rw [hs, Sys.put, htab]

/-- In whatever order the descriptors that are open on a file are closed, each of its
stamps ends as the latest of its own and of those that the descriptors have deferred,
and no `close` moves it backwards. -/
theorem close_order_irrelevant (b : Build) (s : Sys) (m : Nat) (fds : Finset (Nat × Int))
    (hopen : ∀ d ∈ fds, UserFd (s.view d.1) d.2 m) :
    (∃ last : StampField → Timespec,
      (∀ field, IsGreatest (insert (field.get (s.table.mb m).s) (deferredStamps s field fds))
        (last field)) ∧
      ∀ order : List (Nat × Int), order.Nodup → (∀ d, d ∈ order ↔ d ∈ fds) → ∀ env field,
        field.get ((closeAll b env s order).table.mb m).s = last field) ∧
      ∀ s env fd pid a field, StampField.get field (s.table.mb a).s ≤
        field.get ((exec b s ⟨pid, env, .close fd⟩).2.table.mb a).s := by
  have hclosed : ∀ order : List (Nat × Int), order.Nodup → (∀ d, d ∈ order ↔ d ∈ fds) →
      ∀ env field, IsGreatest (insert (field.get (s.table.mb m).s) (deferredStamps s field fds))
        (field.get ((closeAll b env s order).table.mb m).s) := by
    intro order hnodup hmem env field
    have hset : {d | d ∈ order} = (fds : Set (Nat × Int)) := Set.ext hmem
    rw [← hset]
    exact closeAll_greatest hnodup (fun d hd => hopen d ((hmem d).mp hd)) env field
  have hlist := hclosed fds.toList fds.nodup_toList (fun d => Finset.mem_toList) (fun _ => emptyDisk)
  refine ⟨⟨_, hlist, fun order hnodup hmem env field => ?_⟩, fun s env fd pid a field =>
    close_le env fd pid a field⟩
  exact (hclosed order hnodup hmem env field).unique (hlist field)

/-- A file that two processes have read and one has written. -/
def stampedFds : Sys :=
  { initSys with
    fds := fun pid i => if pid < 2 ∧ i = 1024 then
      { initFd i with empty := false, mindex := 0, stampType := if pid = 0 then 1 else 7
                      privS := { zeroStat with stAtim := ⟨5, 10 - pid⟩, stMtim := ⟨4, 0⟩ } }
      else initFd i }

theorem stampedFds_order :
    (∃ last : StampField → Timespec,
      (∀ field, IsGreatest (insert (field.get (stampedFds.table.mb (0 : Nat)).s)
        (deferredStamps stampedFds field ({(0, 1024), (1, 1024)} : Finset (Nat × Int))))
        (last field)) ∧
      ∀ order : List (Nat × Int), order.Nodup →
        (∀ d, d ∈ order ↔ d ∈ ({(0, 1024), (1, 1024)} : Finset (Nat × Int))) → ∀ env field,
        field.get ((closeAll defaultBuild env stampedFds order).table.mb (0 : Nat)).s =
          last field) ∧
      ∀ s env fd pid a field, StampField.get field (s.table.mb a).s ≤
        field.get ((exec defaultBuild s ⟨pid, env, .close fd⟩).2.table.mb a).s := by
  refine close_order_irrelevant defaultBuild stampedFds 0 {(0, 1024), (1, 1024)} (fun d hd => ?_)
  rcases Finset.mem_insert.mp hd with rfl | hd
  · exact ⟨by decide, by decide, by decide, by decide, by decide⟩
  · obtain rfl := Finset.mem_singleton.mp hd
    exact ⟨by decide, by decide, by decide, by decide, by decide⟩

end Spacefish
