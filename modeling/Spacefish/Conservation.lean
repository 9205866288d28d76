import Spacefish.CacheWalk
import Spacefish.Representation
import Mathlib.Algebra.BigOperators.Group.Finset.Basic

/-!
Conservation of data buckets: the buckets in use against the chains of the files.
`unlink` and a `rename` over a file free the meta bucket and leave the data
buckets of the file in use, so the two counts agree as long as no file with a data
bucket is removed.
-/

namespace Spacefish

open LinkedArray Program

variable {s s' : Sys} {e : Event} {out : Out} {rows : Nat → List Int} {ch : Int → List Nat}

/-- Parts of a finite set that do not meet have as many elements together as the set
exactly when they cover it. -/
theorem card_eq_sum_iff_cover {ι α : Type} [DecidableEq α] {U : Finset α} {I : Finset ι}
    {F : ι → Finset α} (hsub : ∀ i ∈ I, F i ⊆ U)
    (hapart : ∀ i ∈ I, ∀ j ∈ I, i ≠ j → Disjoint (F i) (F j)) :
    U.card = ∑ i ∈ I, (F i).card ↔ ∀ c ∈ U, ∃ i ∈ I, c ∈ F i := by
  rw [← Finset.card_biUnion hapart]
  have hle : I.biUnion F ⊆ U := Finset.biUnion_subset.mpr hsub
  constructor
  · intro hcard c hc
    rw [← Finset.eq_of_subset_of_card_le hle (Nat.le_of_eq hcard)] at hc
    exact Finset.mem_biUnion.mp hc
  · intro hcov
    refine congrArg Finset.card (Finset.Subset.antisymm (fun c hc => ?_) hle)
    exact Finset.mem_biUnion.mpr (hcov c hc)

/-- The data buckets with `in_use` set. -/
def usedBuckets (d : DataShm) : Finset Nat :=
  (Finset.range totBuckets).filter (fun b => (d.bucket b).inUse = true)

/-- The data buckets of the file `m`, none for a meta bucket that is not in use. -/
def fileBuckets (s : Sys) (m : Int) : Finset Nat :=
  if (s.table.mb m).inUse = true then (fileChain s m).toFinset else ∅

/-- The length of the data chain of a file, 0 for a meta bucket that is not in use. -/
def chainLength (s : Sys) (m : Int) : Nat :=
  if (s.table.mb m).inUse = true then (fileChain s m).length else 0

/-- The buckets in use are as many as there are in the chains of all files. -/
def Conserved (s : Sys) : Prop :=
  (usedBuckets s.data).card = ∑ m ∈ Finset.range metaBuckets, chainLength s m

/-- Every bucket in use is on the chain of a file. -/
def AllOnFiles (s : Sys) : Prop := ∀ c, s.data.Owned c → ∃ a, (s.view 0).OnFile a c

theorem mem_usedBuckets {d : DataShm} {c : Nat} : c ∈ usedBuckets d ↔ d.Owned c := by
  rw [usedBuckets, Finset.mem_filter, Finset.mem_range]
  rfl

theorem Linked.mem_iff_reach {d : DataShm} {i c : Nat} {l : List Nat}
    (hl : Linked d.next noIx i l) : c ∈ l ↔ i ≠ noIx ∧ d.Reach i c := by
  cases l with
  | nil => simp [show i = noIx from hl]
  | cons b l =>
      obtain ⟨rfl, hne, _⟩ := id hl
      constructor
      · exact fun hc => ⟨hne, Linked.reach_of_mem hl hc⟩
      · exact fun hc => Linked.mem_of_reach hl List.mem_cons_self hc.2

theorem LinkWf.mem_fileBuckets (wf : LinkWf (s.store rows ch)) {m : Int} {c : Nat} :
    c ∈ fileBuckets s m ↔ (s.view 0).OnFile m c := by
  rw [World.OnFile, show (s.view 0).table = s.table from rfl, show (s.view 0).data = s.data from rfl]
  unfold fileBuckets
  split
  · next huse =>
    have hl : Linked s.data.next noIx (s.table.mb m).firstDbucket (ch m) := wf.linked m huse
    rw [wf.fileChain_eq huse, List.mem_toFinset, Linked.mem_iff_reach hl]
    simp [huse]
  · next huse => simp [huse]

theorem LinkWf.card_fileBuckets (wf : LinkWf (s.store rows ch)) (m : Int) :
    (fileBuckets s m).card = chainLength s m := by
  unfold fileBuckets chainLength
  split
  · next huse =>
    rw [wf.fileChain_eq huse]
    exact List.toFinset_card_of_nodup (wf.nodup huse)
  · rfl

/-- The counts agree exactly when every bucket in use is on a chain: no bucket is on
two chains, or twice on one. -/
theorem LinkInv.conserved_iff (hinv : LinkInv s) : Conserved s ↔ AllOnFiles s := by
  obtain ⟨rows, ch, wf⟩ := hinv.links
  have hsum : ∑ m ∈ Finset.range metaBuckets, chainLength s m =
      ∑ m ∈ Finset.range metaBuckets, (fileBuckets s m).card :=
    Finset.sum_congr rfl (fun m _ => (wf.card_fileBuckets m).symm)
  have hsub : ∀ m : Nat, fileBuckets s m ⊆ usedBuckets s.data := by
    intro m c hc
    obtain ⟨huse, hmem⟩ := wf.mem_fileBuckets.mp hc
    rw [mem_usedBuckets]
    exact wf.owned m huse c ((Linked.mem_iff_reach (wf.linked m huse)).mpr hmem)
  have hapart : ∀ m m' : Nat, m ≠ m' → Disjoint (fileBuckets s m) (fileBuckets s m') := by
    intro m m' hne
    refine Finset.disjoint_left.mpr (fun c hc hc' => ?_)
    obtain ⟨huse, hmem⟩ := wf.mem_fileBuckets.mp hc
    obtain ⟨huse', hmem'⟩ := wf.mem_fileBuckets.mp hc'
    exact hne (Int.ofNat.inj (wf.apart m m' huse huse' c
      ((Linked.mem_iff_reach (wf.linked m huse)).mpr hmem)
      ((Linked.mem_iff_reach (wf.linked m' huse')).mpr hmem')))
  rw [Conserved, hsum, card_eq_sum_iff_cover (fun m _ => hsub m) (fun m _ m' _ => hapart m m')]
  simp only [mem_usedBuckets, wf.mem_fileBuckets, Finset.mem_range, AllOnFiles]
  constructor
  · intro hall c hc
    obtain ⟨m, _, hm⟩ := hall c hc
    exact ⟨m, hm⟩
  · intro hcov c hc
    obtain ⟨a, ha⟩ := hcov c hc
    obtain ⟨h, hh, hrow⟩ := (wf.table.inUse_iff a).mp ha.1
    obtain ⟨hpos, hlt⟩ := wf.table.bound h hh a hrow
    lift a to Nat using hpos
    exact ⟨a, Int.ofNat_lt.mp hlt, ha⟩

/-! Runs. -/

/-- The calls that return or exit and remove no file that has a data bucket. -/
def RemovesNoData (s : Sys) (e : Event) (out : Out) : Prop :=
  ReturnsOrExits out ∧ ∀ a, (s.table.mb a).inUse = true → FreesFile e.env s.table a e.call →
    (s.table.mb a).firstDbucket = noIx

/-- A bucket in use stays on the chain of a file that is not removed, and a bucket
that is taken is put behind one in use or made the first one of a file. -/
theorem AllOnFiles.step (hcov : AllOnFiles s) (hinv : LinkInv s) (hok : RemovesNoData s e out)
    (hexec : exec defaultBuild s e = (out, s')) : AllOnFiles s' := by
  obtain ⟨hrel, _, _⟩ := hinv.step hexec hok.1
  intro c hc
  rcases hrel.covers c hc with ⟨a, ha⟩ | ⟨b, hb, hreach⟩
  · exact ⟨a, ha⟩
  · obtain ⟨a, huse, hne, hra⟩ := hcov b hb
    have hkept := hrel.kept a huse (fun hfrees => hne (hok.2 a huse hfrees))
    refine ⟨a, hkept.1, ?_⟩
    rw [show ((s'.view 0).table.mb a).firstDbucket = (s.table.mb a).firstDbucket from hkept.2 hne]
    exact ⟨hne, (hra.mono hrel.grows).trans hreach⟩

/-- In every run that removes no file with a data bucket, the buckets in use are in
every state as many as the chains of the files have. -/
theorem run_conserved (hrun : Run defaultBuild RemovesNoData initSys s) : Conserved s := by
  have hinit : AllOnFiles initSys := fun c hc => absurd hc.2 Bool.false_ne_true
  have h : LinkInv s ∧ AllOnFiles s := by
    refine hrun.invariant (P := fun s => LinkInv s ∧ AllOnFiles s) ⟨initSys_linkInv, hinit⟩ ?_
    rintro s e out s' ⟨hinv, hcov⟩ hok hexec
    exact ⟨(hinv.step hexec hok.1).2.2, hcov.step hinv hok hexec⟩
  exact h.1.conserved_iff.mpr h.2

theorem conserved_after_write :
    Conserved (afterCalls [.open pathA 66 0, .write 1024 [1, 2, 3], .close 1024]) := by
  refine run_conserved (run_of_allReturn (by decide +kernel) (fun c hc s out hret => ?_))
  refine ⟨(Out.isRet_spec hret).1, fun a _ hfrees => ?_⟩
  simp only [List.mem_cons, List.not_mem_nil, or_false] at hc
  rcases hc with rfl | rfl | rfl <;> exact hfrees.elim

/-- The empty store after `/a` was created, closed and removed. -/
def removedA : Sys := afterCalls [.open pathA 66 0, .close 1024, .unlink pathA]

theorem removedA_mb {m : Int} (hm : m ≠ 0) : removedA.table.mb m = initMbucket := by
  -- All changes of meta buckets are made to bucket 0.
  repeat
    change Function.update _ (0 : Int) _ m = _
    rw [Function.update_of_ne hm]
  rfl

theorem initFd_closed (i : Nat) : ¬ (initFd i).IsOpen := by
  rintro ⟨hempty, hexcl⟩
  rw [initFd_not_open i hempty] at hexcl
  cases hexcl

theorem removedA_fds (pid i : Nat) : ¬ (removedA.fds pid i).IsOpen := by
  by_cases hpid : pid = 0
  · subst hpid
    by_cases hi : i = 1024
    · rw [hi]
      exact fun hopen => absurd hopen.1 (by decide +kernel)
    · have hinit : removedA.fds 0 i = initFd i := by
        change Function.update (Function.update (Function.update initFdTable 1024 _) 1024 _) 1024 _ i
          = _
        rw [Function.update_of_ne hi, Function.update_of_ne hi, Function.update_of_ne hi]
        rfl
      rw [hinit]
      exact initFd_closed i
  · have hinit : removedA.fds pid = initFdTable := by
      change Function.update (Function.update (Function.update initSys.fds 0 _) 0 _) 0 _ pid = _
      rw [Function.update_of_ne hpid, Function.update_of_ne hpid, Function.update_of_ne hpid]
      rfl
    rw [hinit]
    exact initFd_closed i

/-- No descriptor is open and no file is left, and one bucket is in use. -/
theorem unlink_leaks_bucket : Run defaultBuild AnyCall initSys removedA ∧
    (∀ pid i, ¬ (removedA.fds pid i).IsOpen) ∧ (∀ m, (removedA.table.mb m).inUse = false) ∧
    ¬ Conserved removedA := by
  have hrun : Run defaultBuild AnyCall initSys removedA :=
    run_of_allReturn (by decide +kernel) (fun c _ s out hret => (Out.isRet_spec hret).1)
  have hgone : ∀ m, (removedA.table.mb m).inUse = false := by
    intro m
    by_cases hm : m = 0
    · rw [hm]
      decide +kernel
    · rw [removedA_mb hm]
      rfl
  refine ⟨hrun, removedA_fds, hgone, fun hcons => ?_⟩
  have hcov := (run_linkInv initSys_linkInv (fun _ _ _ h => h) hrun).conserved_iff.mp hcons
  obtain ⟨a, huse, _⟩ := hcov 0 ⟨by decide, by decide +kernel⟩
  exact Bool.false_ne_true ((hgone a).symm.trans huse)

end Spacefish
