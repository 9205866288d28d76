import Spacefish.LinkPaths

/-!
Runs of any calls that return or end their process. The links of the store stay
well formed and the caches of all descriptors hold buckets in use, also when files
are removed while descriptors refer to them.
-/

namespace Spacefish

open LinkedArray Program

structure LinkInv (s : Sys) : Prop where
  links : ∃ rows ch, LinkWf (s.store rows ch)
  caches : ∀ pid, CachesOwned s.data (s.fds pid)
  clean : ∀ pid i, (s.fds pid i).empty = true → ∀ j < offsetProcessCacheSize,
    ((s.fds pid i).offDbMapping j).offset = -1
  ptr : ∀ pid i, (s.fds pid i).offDbPtr = 0

/-- What one event does to the descriptor tables. -/
structure FdsStep (s s' : Sys) (e : Event) : Prop where
  self : (∀ i, SlotStep (s.view e.pid) (s.fds e.pid i) (s'.fds e.pid i)) ∨
    s'.fds e.pid = initFdTable
  other : ∀ pid ≠ e.pid, s'.fds pid = s.fds pid

variable {s s' : Sys} {e : Event} {out : Out} {w : World} {f f' : FdInfo} {d d' : DataShm}

/-- The part of the invariant that one entry carries. -/
structure CacheSound (d : DataShm) (f : FdInfo) : Prop where
  owned : ∀ j < offsetProcessCacheSize, (f.offDbMapping j).dbindex = noIx ∨
    (f.offDbMapping j).dbindex < totBuckets ∧
      ((f.offDbMapping j).offset ≠ -1 → d.Owned (f.offDbMapping j).dbindex)
  clean : f.empty = true → ∀ j < offsetProcessCacheSize, (f.offDbMapping j).offset = -1
  ptr : f.offDbPtr = 0

theorem LinkInv.slot (hinv : LinkInv s) (pid i : Nat) : CacheSound s.data (s.fds pid i) :=
  ⟨hinv.caches pid i, hinv.clean pid i, hinv.ptr pid i⟩

theorem CacheSound.mono (hf : CacheSound d f) (hg : DataGrows d d') : CacheSound d' f := by
  refine ⟨fun j hj => ?_, hf.clean, hf.ptr⟩
  exact (hf.owned j hj).imp id (fun h => ⟨h.1, fun hne => hg.owned _ (h.2 hne)⟩)

theorem initFd_cacheSound (d : DataShm) (i : Nat) : CacheSound d (initFd i) := by
  refine ⟨fun j _ => Or.inr ⟨show 0 < totBuckets by decide, fun hne => absurd rfl hne⟩,
    fun _ _ _ => rfl, rfl⟩

/-- A call leaves sound caches in every entry. -/
theorem SlotStep.cacheSound (hs : SlotStep w f f') (hok : LinkOk w) (hf : CacheSound w.data f) :
    CacheSound w.data f' := by
  cases hs with
  | same => exact hf
  | call hused hcall =>
      have hclean : f'.empty = true → ∀ j < offsetProcessCacheSize,
          (f'.offDbMapping j).offset = -1 := by
        intro hempty
        rw [hcall.empty, hused] at hempty
        cases hempty
      rcases hcall.cache with ⟨hmap, hptr⟩ | ⟨offset, ix, hwalk, hmap, hptr⟩
      · exact ⟨hmap ▸ hf.owned, hclean, hptr.trans hf.ptr⟩
      · refine ⟨fun j hj => ?_, hclean, ?_⟩
        · obtain ⟨rows, ch, wf⟩ := hok
          obtain rfl : j = 0 := by
            unfold offsetProcessCacheSize at hj
            omega
          have hend := walkLoop_owned (hops offset) wf.links (wf.first_owned f.mindex)
          rw [show (w.store rows ch).data = w.data from rfl, hwalk] at hend
          rw [hmap, cacheFill, hf.ptr]
          simp only [Function.update_self]
          exact (hend.2 ix rfl).imp id (fun hown => ⟨hown.1, fun _ => hown⟩)
        · rw [hptr]
          simp [cacheFill, offsetProcessCacheSize, Nat.mod_one]
  | opens m hfree => exact ⟨hf.owned, (fun h => by cases h), hf.ptr⟩
  | forwards => exact ⟨hf.owned, (fun h => by cases h), hf.ptr⟩
  | closes =>
      have hmap : ∀ j < offsetProcessCacheSize, (resetFd f).offDbMapping j =
          { f.offDbMapping j with offset := -1 } := by
        intro j hj
        simp only [resetFd, clearOffsets, if_pos hj]
      refine ⟨fun j hj => ?_, fun _ j hj => by rw [hmap j hj], hf.ptr⟩
      rw [hmap j hj]
      exact (hf.owned j hj).imp id (fun h => ⟨h.1, fun hne => absurd rfl hne⟩)

theorem LinkInv.step (hinv : LinkInv s) (hexec : exec defaultBuild s e = (out, s'))
    (hout : ReturnsOrExits out) :
    Relinks (fun a => FreesFile e.env s.table a e.call) (s.view e.pid) (s'.view e.pid) ∧
      FdsStep s s' e ∧ LinkInv s' := by
  have hcall := callOp_links (w := s.view e.pid) e.env e.call hinv.links (hinv.caches e.pid)
  have hstep : Relinks (fun a => FreesFile e.env s.table a e.call) (s.view e.pid) (s'.view e.pid) ∧
      FdsStep s s' e := by
    rcases exec_ends hcall hexec with ⟨r, w', _, rfl, hret⟩ | ⟨h, w', rfl, rfl, hstop⟩
    · refine ⟨hret.toRelinks.congr rfl rfl, Or.inl (fun i => ?_), fun pid hpid => ?_⟩
      · dsimp only [Sys.put]
        rw [Function.update_self]
        exact hret.slots i
      · exact Function.update_of_ne hpid _ _
    · cases h with
      | exit u =>
          refine ⟨(hstop u rfl).congr rfl rfl, Or.inr ?_, fun pid hpid => ?_⟩
          · exact Function.update_self ..
          · exact Function.update_of_ne hpid _ _
      | hang => exact hout.elim
      | undefined => exact hout.elim
  obtain ⟨hrel, hfds⟩ := hstep
  have hslot : ∀ pid i, CacheSound s'.data (s'.fds pid i) := by
    intro pid i
    by_cases hpid : pid = e.pid
    · subst hpid
      rcases hfds.self with hself | hinit
      · exact ((hself i).cacheSound hinv.links (hinv.slot e.pid i)).mono hrel.grows
      · rw [hinit]
        exact initFd_cacheSound _ _
    · rw [hfds.other pid hpid]
      exact (hinv.slot pid i).mono hrel.grows
  exact ⟨hrel, hfds, hrel.ok, fun pid i => (hslot pid i).owned, fun pid i => (hslot pid i).clean,
    fun pid i => (hslot pid i).ptr⟩

theorem initSys_linkInv : LinkInv initSys :=
  ⟨⟨_, _, initSys_wf.store.toLinkWf⟩, fun _ i => (initFd_cacheSound _ i).owned,
    fun _ i => (initFd_cacheSound initSys.data i).clean, fun _ _ => rfl⟩

/-- The calls that return or end their process, with any arguments. -/
def AnyCall (_ : Sys) (_ : Event) (out : Out) : Prop := ReturnsOrExits out

theorem run_linkInv {allow : Sys → Event → Out → Prop} (hinv : LinkInv s)
    (hallow : ∀ s e out, allow s e out → ReturnsOrExits out)
    (hrun : Run defaultBuild allow s s') : LinkInv s' :=
  hrun.invariant hinv
    (fun _ _ _ _ hinv hok hexec => (hinv.step hexec (hallow _ _ _ hok)).2.2)

end Spacefish
