import Spacefish.InsideWrites

/-!
Runs with any offsets. A `pread` leaves the store alone whatever its offset, and a
`pwrite` whose offset has no negative remainder is one at an offset that is not
negative; the descriptors of such runs have the histories the calls rely on.
-/

namespace Spacefish

open LinkedArray Program Buffer

variable {w w' : World} {s s' : Sys} {rows rows' : Nat → List Int} {ch ch' : Int → List Nat}
  {env : Env} {m i : Nat} {fd offset : Int} {buf : List Byte} {l : List Nat} {f : FdInfo}
  {st : Store} {call : Call} {e : Event} {out : Out}

/-- A descriptor has the history of one of its file; the others name a bucket or none. -/
structure SlotTrue (s : Store) (f : FdInfo) : Prop where
  named : (f.offDbMapping 0).dbindex = noIx ∨ (f.offDbMapping 0).dbindex < totBuckets
  history : f.empty = false → f.exclusive = false → SlotHistory (s.ch f.mindex) f

/-- The calls of the runs: no offset of a `pwrite` has a negative remainder. -/
def AnyOffset : Call → Prop
  | .open _ flags _ => hasFlag flags oAppend = true → truncates flags = false
  | .pwrite _ _ offset => Regular offset
  | _ => True

/-- The invariant of the runs with any offsets. -/
structure OffsetWf (s : Sys) (rows : Nat → List Int) (ch : Int → List Nat) : Prop
    extends SysWf s rows ch where
  histories : ∀ pid i, SlotTrue (s.store rows ch) (s.fds pid i)

/-! One call. -/

section

variable (wf : StoreWf (w.store rows ch)) (hslots : ∀ i, SlotOk (w.store rows ch) i (w.fdTable i))

include wf hslots

theorem sysPread_any_effect (fd : Int) (count : UInt64) (offset : Int) :
    Ends (sysPread defaultBuild env fd count offset w)
      (Returned w rows ch env (.pread fd count offset))
      (Stopped w rows ch env (.pread fd count offset)) := by
  by_cases hex : ∃ m, UserFd w fd m
  · obtain ⟨m, hu⟩ := hex
    obtain ⟨huse, _⟩ := hu.used (hslots _)
    have hown : ∀ b ∈ ch m, w.data.Owned b := wf.owned m huse
    have hlinked : Linked w.data.next noIx (w.table.mb m).firstDbucket (ch m) := wf.linked m huse
    have hnext : FdNext (ch m) fd.toNat w.fdTable
        (w.setFd fd.toNat (fun f => located f (ch m) offset)).fdTable := by
      refine ⟨?_, fun j hj => by simp [World.setFd, hj]⟩
      simpa [World.setFd] using located_next (w.fdTable fd.toNat) (ch m) offset
    rw [sysPread_start hu wf.links.steps hlinked hown]
    cases startOf (w.fdTable fd.toNat) (ch m) offset with
    | none => exact .keep rfl rfl (.next hu hnext)
    | some ix =>
        rw [ends_bind, onData, ends_zoom]
        refine (preadLoop_keeps _).mono ?_ ?_
        · rintro data d' rfl
          rw [preadDone, run_ite]
          split
          · rw [setFddes_eq hu.pos hu.lt]
            exact .keep rfl rfl (.next hu hnext.stamp)
          · exact .keep rfl rfl (.next hu hnext)
        · rintro e d' rfl
          exact .keep rfl rfl
  · exact notUser_ends rfl (fun m hu => hex ⟨m, hu⟩)

theorem sysPwrite_regular_effect (htrue : ∀ i, SlotTrue (w.store rows ch) (w.fdTable i)) (fd : Int)
    (buf : List Byte) (hreg : Regular offset) :
    Ends (sysPwrite defaultBuild env fd buf offset w)
      (Returned w rows ch env (.pwrite fd buf offset))
      (Stopped w rows ch env (.pwrite fd buf offset)) := by
  by_cases hex : ∃ m, UserFd w fd m
  · obtain ⟨m, hu⟩ := hex
    obtain ⟨huse, _⟩ := hu.used (hslots _)
    have hown : ∀ b ∈ ch m, w.data.Owned b := wf.owned m huse
    have hlinked : Linked w.data.next noIx (w.table.mb m).firstDbucket (ch m) := wf.linked m huse
    have hist : SlotHistory (ch (w.fdTable fd.toNat).mindex) (w.fdTable fd.toNat) :=
      (htrue fd.toNat).history hu.nonempty hu.exclusive
    rw [hu.mindex] at hist
    have hloc := locate_start offset hu wf.links.steps hlinked hown
    rw [hist.cache.2.1.startOf_eq hreg.ne] at hloc
    exact (sysPwrite_located rfl wf.toLinkWf hu huse hloc located_world hreg.toSize_tmod).mono
      (fun _ _ hret => .pwrite wf hu huse hret) (fun _ _ hstop => .pwrite hu huse hstop)
  · exact notUser_ends rfl (fun m hu => hex ⟨m, hu⟩)

end

theorem callOp_any_effect (env : Env) (wf : StoreWf (w.store rows ch))
    (hslots : ∀ i, SlotOk (w.store rows ch) i (w.fdTable i))
    (htrue : ∀ i, SlotTrue (w.store rows ch) (w.fdTable i)) (hany : AnyOffset call) :
    Ends (callOp defaultBuild env call w) (Returned w rows ch env call)
      (Stopped w rows ch env call) := by
  cases call with
  | pread fd count offset => exact sysPread_any_effect wf hslots fd count offset
  | pwrite fd buf offset => exact sysPwrite_regular_effect wf hslots htrue fd buf hany
  | «open» _ _ _ => exact callOp_effect env wf hslots hany
  | close _ => exact callOp_effect env wf hslots trivial
  | read _ _ => exact callOp_effect env wf hslots trivial
  | write _ _ => exact callOp_effect env wf hslots trivial
  | unlink _ => exact callOp_effect env wf hslots trivial
  | rename _ _ => exact callOp_effect env wf hslots trivial
  | xstat _ => exact callOp_effect env wf hslots trivial
  | fxstat _ => exact callOp_effect env wf hslots trivial
  | upload _ => exact callOp_effect env wf hslots trivial

theorem exec_step_any (hinv : OffsetWf s rows ch) (hany : AnyOffset e.call)
    (hexec : exec defaultBuild s e = (out, s')) (hout : ReturnsOrExits out) :
    ∃ done rows' ch', SysStep s e out rows ch done s' rows' ch' :=
  step_of_effect (callOp_any_effect e.env hinv.store (hinv.slots e.pid) (hinv.histories e.pid)
    hany) hexec hout

/-! The histories. -/

/-- An entry that a call leaves alone. -/
theorem SlotTrue.kept {t : Store} (hslot : SlotTrue t f)
    (hkept : f.empty = false → f.exclusive = false → ∃ new, st.ch f.mindex = t.ch f.mindex ++ new) :
    SlotTrue st f := by
  refine ⟨hslot.named, fun h₁ h₂ => ?_⟩
  obtain ⟨new, hnew⟩ := hkept h₁ h₂
  rw [hnew]
  exact (hslot.history h₁ h₂).grow

theorem initFd_slotTrue (t : Store) (i : Nat) : SlotTrue t (initFd i) :=
  ⟨Or.inr (by change 0 < totBuckets; decide), fun _ _ => .fresh rfl rfl
    (Or.inr (by change 0 < totBuckets; decide))⟩

/-- The entries of the calling process after the call. -/
theorem FdEffect.slotsTrue {r : Ret} {fds' : Nat → FdInfo} (hfd : FdEffect w ch env st call r fds')
    (hslots : ∀ i, SlotOk (w.store rows ch) i (w.fdTable i))
    (htrue : ∀ i, SlotTrue (w.store rows ch) (w.fdTable i))
    (hown : ∀ m, (w.table.mb m).inUse = true → ∀ b ∈ ch m, b < totBuckets)
    (hkept : ∀ i, (w.fdTable i).empty = false → (w.fdTable i).exclusive = false →
      ∃ new, st.ch (w.fdTable i).mindex = ch (w.fdTable i).mindex ++ new) :
    ∀ i, SlotTrue st (fds' i) := by
  intro i
  have hold : SlotTrue st (w.fdTable i) := (htrue i).kept (hkept i)
  cases hfd with
  | same => exact hold
  | @next _ _ fd m _ hu hnext =>
      by_cases hi : i = fd.toNat
      · subst hi
        have hself := hnext.self
        have huse := (hslots fd.toNat).used hu.nonempty hu.exclusive
        have hist := (htrue fd.toNat).history hu.nonempty hu.exclusive
        rw [hu.mindex] at huse hist
        have hist' := hist.next (hown m huse) hself
        refine ⟨hist'.cache.2.2, fun _ _ => ?_⟩
        obtain ⟨new, hnew⟩ := hkept _ hu.nonempty hu.exclusive
        rw [hself.mindex, hnew, hu.mindex]
        exact hist'.grow
      · rw [hnext.other i hi]
        exact hold
  | @opened pathname p flags mode j m _ hpath hslot hpos hused hstart hname =>
      by_cases hi : i = j
      · subst hi
        rw [hslot.self]
        exact ⟨hold.named, fun _ _ => .fresh (hslots i).ptr ((hslots i).clean hslot.free) hold.named⟩
      · rw [hslot.other i hi]
        exact hold
  | forwarded hfwd =>
      rcases hfwd with rfl | ⟨j, rfl⟩
      · exact hold
      · by_cases hi : i = j
        · subst hi
          rw [Function.update_self]
          exact ⟨hold.named, fun _ h => nomatch h⟩
        · rw [Function.update_of_ne hi]
          exact hold
  | @closed fd _ =>
      by_cases hi : i = fd.toNat
      · subst hi
        rw [Function.update_self]
        refine ⟨?_, fun h _ => nomatch h⟩
        simpa [resetFd, clearOffsets, offsetProcessCacheSize] using hold.named
      · rw [Function.update_of_ne hi]
        exact hold

theorem SysStep.offsetWf {done : Bool} (hstep : SysStep s e out rows ch done s' rows' ch')
    (hinv : OffsetWf s rows ch) (hspares : Spares s e) : OffsetWf s' rows' ch' := by
  have hkept : ∀ pid i, (s.fds pid i).empty = false → (s.fds pid i).exclusive = false →
      ∃ new, ch' (s.fds pid i).mindex = ch (s.fds pid i).mindex ++ new := by
    intro pid i h₁ h₂
    have huse := (hinv.slots pid i).used h₁ h₂
    exact (hstep.effect.kept huse (hspares _ huse ⟨pid, i, h₁, h₂, rfl⟩)).2.2
  refine ⟨hstep.sysWf hinv.toSysWf hspares, fun pid i => ?_⟩
  by_cases hpid : pid = e.pid
  · subst hpid
    cases out with
    | ret r =>
        exact (hstep.fds r rfl).slotsTrue (hinv.slots e.pid) (hinv.histories e.pid)
          (fun m huse b hb => (hinv.store.owned m huse b hb).1) (hkept e.pid) i
    | halt h =>
        rw [hstep.died h rfl]
        exact initFd_slotTrue _ i
  · rw [hstep.other pid hpid]
    exact (hinv.histories pid i).kept (hkept pid i)

theorem initSys_offsetWf : OffsetWf initSys (fun _ => []) (fun _ => []) :=
  ⟨initSys_wf, fun _ i => initFd_slotTrue _ i⟩

/-- The calls that keep the descriptors: as in `KeepsOpenFiles`, with any offsets. -/
def KeepsHistories (s : Sys) (e : Event) (out : Out) : Prop :=
  AnyOffset e.call ∧ Spares s e ∧ ReturnsOrExits out

theorem run_offsetWf (hrun : Run defaultBuild KeepsHistories initSys s) :
    ∃ rows ch, OffsetWf s rows ch := by
  refine hrun.invariant (P := fun s => ∃ rows ch, OffsetWf s rows ch)
    ⟨_, _, initSys_offsetWf⟩ ?_
  rintro s e out s' ⟨_, _, hinv⟩ ⟨hany, hspares, hout⟩ hexec
  obtain ⟨_, rows', ch', hstep⟩ := exec_step_any hinv hany hexec hout
  exact ⟨rows', ch', hstep.offsetWf hinv hspares⟩

/-- Every open descriptor of a reachable state has the history that the calls with an
offset rely on. -/
theorem run_history (hrun : Run defaultBuild KeepsHistories initSys s) {pid : Nat}
    (hu : UserFd (s.view pid) fd m) :
    (∃ rows ch, StoreWf (s.store rows ch)) ∧ (s.table.mb m).inUse = true ∧
      SlotHistory (fileChain s m) (s.fds pid fd.toNat) := by
  obtain ⟨rows, ch, hinv⟩ := run_offsetWf hrun
  obtain ⟨huse, _⟩ := hu.used (hinv.slots pid _)
  have hist : SlotHistory (ch (s.fds pid fd.toNat).mindex) (s.fds pid fd.toNat) :=
    (hinv.histories pid _).history hu.nonempty hu.exclusive
  rw [show (s.fds pid fd.toNat).mindex = m from hu.mindex] at hist
  rw [hinv.store.toLinkWf.fileChain_eq huse]
  exact ⟨⟨rows, ch, hinv.store⟩, huse, hist⟩

end Spacefish
