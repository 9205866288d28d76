import Spacefish.PathEffects
import Spacefish.TableRun

/-!
The invariant of the whole system: the shared store is well formed, and every
entry of every descriptor table agrees with it. It survives every call that
does not free the meta bucket of a file which some descriptor refers to.
-/

namespace Spacefish

open LinkedArray Program Buffer

/-- The shared segments with their row lists and chains. -/
def Sys.store (s : Sys) (rows : Nat → List Int) (ch : Int → List Nat) : Store :=
  ⟨s.table, s.data, rows, ch⟩

structure SysWf (s : Sys) (rows : Nat → List Int) (ch : Int → List Nat) : Prop where
  store : StoreWf (s.store rows ch)
  slots : ∀ pid i, SlotOk (s.store rows ch) i (s.fds pid i)

/-- Some descriptor refers to the meta bucket. -/
def Held (s : Sys) (m : Int) : Prop :=
  ∃ pid i, (s.fds pid i).empty = false ∧ (s.fds pid i).exclusive = false ∧
    ((s.fds pid i).mindex : Int) = m

/-- The call would free the meta bucket `a`: an `unlink` of its path, or a
`rename` to its path. -/
def Hits (env : Env) (t : MetaShm) (a : Int) : Call → Prop
  | .unlink pathname => ∃ p, absPath env pathname = .ok p ∧ samePath p (t.mb a).path = true
  | .rename _ new => ∃ p, absPath env new = .ok p ∧ samePath p (t.mb a).path = true
  | _ => False

/-- The call frees no meta bucket that a descriptor refers to. -/
def Spares (s : Sys) (e : Event) : Prop :=
  ∀ m, (s.table.mb m).inUse = true → Held s m → ¬ Hits e.env s.table m e.call

variable {w : World} {s s' : Sys} {rows rows' : Nat → List Int} {ch ch' : Int → List Nat}
  {env : Env} {call : Call} {done : Bool} {st : Store} {e : Event} {out : Out} {a : Int}

/-- A file that stays in use keeps its first bucket, and its chain grows at most at
the end. -/
theorem Effect.extends (he : Effect w rows ch env call done st)
    (huse : (w.table.mb a).inUse = true) (hused : st.Used a) :
    (st.table.mb a).firstDbucket = (w.table.mb a).firstDbucket ∧ ∃ new, st.ch a = ch a ++ new := by
  have hsame : ∃ new, ch a = ch a ++ new := ⟨[], by simp⟩
  have hgrow : ∀ (m : Int) (new : List Nat),
      ∃ new', Function.update ch m (ch m ++ new) a = ch a ++ new' := by
    intro m new
    by_cases ham : a = m
    · subst ham
      exact ⟨new, Function.update_self ..⟩
    · rw [Function.update_of_ne ham]
      exact hsame
  cases he with
  | keep => exact ⟨rfl, hsame⟩
  | edit _ he hf _ _ => exact ⟨he.first (hf.first _) a, hsame⟩
  | write hu huse' hsplit hcopy he => exact ⟨he.first (wroteBy_first _ _ _) a, hgrow _ _⟩
  | pwrite hu huse' hsplit hlen hcopy he => exact ⟨he.first (wroteBy_first _ _ _) a, hgrow _ _⟩
  | @fill _ p buf h m ix new r w₁ t' g hf he hg =>
      obtain ⟨t₁, hc, he₁⟩ := hf.file.edited
      have ham : a ≠ m := by
        rintro rfl
        rw [hc.fresh] at huse
        cases huse
      have hfirst := congrArg FileCore.first ((he.other a ham).trans (he₁.other a ham))
      refine ⟨hfirst.trans (hc.same a ham).firstDbucket, ?_⟩
      simpa only [Function.update_of_ne ham] using hsame
  | @bare _ p h m f w₁ hn hf hsame' =>
      obtain ⟨t₁, hc, he₁⟩ := hn.edited
      have ham : a ≠ m := by
        rintro rfl
        rw [hc.fresh] at huse
        cases huse
      have hfirst := congrArg FileCore.first (he₁.other a ham)
      refine ⟨hfirst.trans (hc.same a ham).firstDbucket, ?_⟩
      simpa only [Function.update_of_ne ham] using hsame
  | truncate _ _ _ he => exact ⟨he.first rfl a, hsame⟩
  | release _ _ _ hr => exact ⟨(hr.kept (a := a) hused).2.firstDbucket, hsame⟩
  | rename _ _ hr _ he =>
      have hmid := (he.inUse .id a).symm.trans hused
      exact ⟨(he.first rfl a).trans (hr.kept hmid).2.2.1, hsame⟩
  | stuck ho hn => exact ⟨rfl, hsame⟩

/-- A file whose path the call does not free stays in use. -/
theorem Effect.used (he : Effect w rows ch env call done st) (huse : (w.table.mb a).inUse = true)
    (hno : ¬ Hits env w.table a call) : st.Used a := by
  cases he with
  | keep => exact huse
  | edit _ he hf _ _ => exact (he.inUse hf.toStays a).trans huse
  | write hu huse' hsplit hcopy he => exact (he.inUse (wroteBy_stays _ _) a).trans huse
  | pwrite hu huse' hsplit hlen hcopy he => exact (he.inUse (wroteBy_stays _ _) a).trans huse
  | @fill _ p buf h m ix new r w₁ t' g hf he hg =>
      obtain ⟨t₁, hc, he₁⟩ := hf.file.edited
      have ham : a ≠ m := by
        rintro rfl
        rw [hc.fresh] at huse
        cases huse
      have hin := congrArg FileCore.inUse ((he.other a ham).trans (he₁.other a ham))
      exact hin.trans ((hc.same a ham).inUse.trans huse)
  | @bare _ p h m f w₁ hn hf hsame' =>
      obtain ⟨t₁, hc, he₁⟩ := hn.edited
      have ham : a ≠ m := by
        rintro rfl
        rw [hc.fresh] at huse
        cases huse
      have hin := congrArg FileCore.inUse (he₁.other a ham)
      exact hin.trans ((hc.same a ham).inUse.trans huse)
  | truncate _ _ _ he =>
      exact (he.inUse ⟨fun _ => rfl, fun _ => rfl, fun _ => rfl⟩ a).trans huse
  | @release pathname p m t' rows' hpath huse' hname hr =>
      have ham : a ≠ m := by
        rintro rfl
        exact hno ⟨p, hpath, hname⟩
      exact (hr.same a ham).inUse.trans huse
  | @rename old new hn m b lost p t₁ t' rows' hpath hover hr huse' he =>
      have hao : lost ≠ some a := fun hao => hno ⟨p, hpath, hover a hao⟩
      have hmid : (t₁.mb a).inUse = (w.table.mb a).inUse := by
        by_cases ham : a = m
        · subst ham
          exact hr.moved.inUse
        · exact (hr.same a ham hao).inUse
      exact (he.inUse .id a).trans (hmid.trans huse)
  | stuck ho hn => exact huse

theorem Effect.kept (he : Effect w rows ch env call done st) (huse : (w.table.mb a).inUse = true)
    (hno : ¬ Hits env w.table a call) :
    st.Used a ∧ (st.table.mb a).firstDbucket = (w.table.mb a).firstDbucket ∧
      ∃ new, st.ch a = ch a ++ new :=
  ⟨he.used huse hno, he.extends huse (he.used huse hno)⟩

/-- An entry that a call leaves alone. -/
theorem SlotOk.kept {t : Store} {i : Nat} {f : FdInfo} (hslot : SlotOk t i f)
    (hkept : f.empty = false → f.exclusive = false → t.Used f.mindex →
      st.Used f.mindex ∧ ∃ new, st.ch f.mindex = t.ch f.mindex ++ new) : SlotOk st i f := by
  refine ⟨hslot.ptr, hslot.clean, hslot.kernel, ?_, ?_⟩
  · intro h₁ h₂
    exact (hkept h₁ h₂ (hslot.used h₁ h₂)).1
  · intro h₁ h₂
    obtain ⟨_, new, hnew⟩ := hkept h₁ h₂ (hslot.used h₁ h₂)
    rw [hnew]
    exact (hslot.cache h₁ h₂).append

theorem initFd_slotOk (t : Store) (i : Nat) : SlotOk t i (initFd i) := by
  refine ⟨rfl, fun _ => rfl, ?_, ?_, ?_⟩
  · intro hi _
    simp only [initFd, decide_eq_false_iff_not]
    omega
  · intro h₁ h₂
    simp only [initFd, Bool.not_eq_false', decide_eq_true_eq, decide_eq_false_iff_not] at h₁ h₂
    unfold firstUserFd at h₂
    omega
  · intro h₁ h₂
    simp only [initFd, Bool.not_eq_false', decide_eq_true_eq, decide_eq_false_iff_not] at h₁ h₂
    unfold firstUserFd at h₂
    omega

theorem SlotOk.reset {t : Store} {i : Nat} {f : FdInfo} (hslot : SlotOk t i f) :
    SlotOk st i (resetFd f) := by
  refine ⟨hslot.ptr, fun _ => ?_, fun _ _ => rfl, ?_, ?_⟩
  · simp [resetFd, clearOffsets, offsetProcessCacheSize]
  · intro h₁ _
    cases h₁
  · intro h₁ _
    cases h₁

/-- The entries of the calling process after the call. -/
theorem FdEffect.slots {r : Ret} {fds' : Nat → FdInfo} (hfd : FdEffect w ch env st call r fds')
    (hslots : ∀ i, SlotOk (w.store rows ch) i (w.fdTable i))
    (hkept : ∀ i, (w.fdTable i).empty = false → (w.fdTable i).exclusive = false →
      (w.table.mb (w.fdTable i).mindex).inUse = true →
      st.Used (w.fdTable i).mindex ∧
        ∃ new, st.ch (w.fdTable i).mindex = ch (w.fdTable i).mindex ++ new) :
    ∀ i, SlotOk st i (fds' i) := by
  intro i
  have hold : SlotOk st i (w.fdTable i) := (hslots i).kept (hkept i)
  cases hfd with
  | same => exact hold
  | @next _ _ fd m _ hu hnext =>
      by_cases hi : i = fd.toNat
      · subst hi
        have hself := hnext.self
        obtain ⟨_, hcache⟩ := hu.used (hslots _)
        have hfill := hself.cacheOk hold.ptr hcache
        refine ⟨hfill.2, ?_, ?_, ?_, ?_⟩
        · intro h₁
          rw [hself.empty, hu.nonempty] at h₁
          cases h₁
        · intro _ h₁
          rw [hself.empty, hu.nonempty] at h₁
          cases h₁
        · intro _ _
          rw [hself.mindex]
          exact hold.used hu.nonempty hu.exclusive
        · intro _ _
          obtain ⟨_, new, hnew⟩ := hkept _ hu.nonempty hu.exclusive
            ((hslots _).used hu.nonempty hu.exclusive)
          rw [hself.mindex, hnew, hu.mindex]
          exact hfill.1.append
      · rw [hnext.other i hi]
        exact hold
  | @opened pathname p flags mode j m _ hpath hslot hpos hused hstart hname =>
      by_cases hi : i = j
      · subst hi
        rw [hslot.self]
        have hidx : ((m.toNat : Nat) : Int) = m := Int.toNat_of_nonneg hpos
        refine ⟨hold.ptr, fun h₁ => (by cases h₁), fun _ h₁ => (by cases h₁), ?_, ?_⟩
        · intro _ _
          change st.Used (m.toNat : Nat)
          rw [hidx]
          exact hused
        · intro _ _ k hk hoff
          obtain rfl : k = 0 := by
            unfold offsetProcessCacheSize at hk
            omega
          have hclean := hold.clean hslot.free
          change 0 ≤ ((w.fdTable i).offDbMapping 0).offset at hoff
          omega
      · rw [hslot.other i hi]
        exact hold
  | forwarded hfwd =>
      rcases hfwd with rfl | ⟨j, rfl⟩
      · exact hold
      · by_cases hi : i = j
        · subst hi
          rw [Function.update_self]
          refine ⟨hold.ptr, fun h₁ => (by cases h₁), fun _ h₁ => (by cases h₁), ?_, ?_⟩
          · intro _ h₂
            cases h₂
          · intro _ h₂
            cases h₂
        · rw [Function.update_of_ne hi]
          exact hold
  | @closed fd _ =>
      by_cases hi : i = fd.toNat
      · subst hi
        rw [Function.update_self]
        exact (hslots _).reset
      · rw [Function.update_of_ne hi]
        exact hold

/-- What one event does to the system. -/
structure SysStep (s : Sys) (e : Event) (out : Out) (rows : Nat → List Int) (ch : Int → List Nat)
    (done : Bool) (s' : Sys) (rows' : Nat → List Int) (ch' : Int → List Nat) : Prop where
  effect : Effect (s.view e.pid) rows ch e.env e.call done (s'.store rows' ch')
  other : ∀ pid ≠ e.pid, s'.fds pid = s.fds pid
  fds : ∀ r, out = .ret r →
    FdEffect (s.view e.pid) ch e.env (s'.store rows' ch') e.call r (s'.fds e.pid)
  died : ∀ h, out = .halt h → s'.fds e.pid = initFdTable
  done : done = false → out = .halt (.exit .dataBucketOverUse) ∨ ShortReads e.env e.call

/-- A call that has an effect is a step of the system. -/
theorem step_of_effect
    (hends : Ends (callOp defaultBuild e.env e.call (s.view e.pid))
      (Returned (s.view e.pid) rows ch e.env e.call) (Stopped (s.view e.pid) rows ch e.env e.call))
    (hexec : exec defaultBuild s e = (out, s')) (hout : ReturnsOrExits out) :
    ∃ done rows' ch', SysStep s e out rows ch done s' rows' ch' := by
  rcases exec_ends hends hexec with
    ⟨r, w', rfl, rfl, done, rows', ch', heff, hfd, hdone⟩ | ⟨h, w', rfl, rfl, hstop⟩
  · refine ⟨done, rows', ch', heff, ?_, ?_, ?_, fun hd => Or.inr (hdone hd)⟩
    · intro pid hpid
      simp [Sys.put, hpid]
    · rintro r' ⟨⟩
      rw [show (s.put e.pid w').fds e.pid = w'.fdTable from Function.update_self ..]
      exact hfd
    · rintro h ⟨⟩
  · rcases hstop with rfl | rfl | ⟨done, rows', ch', heff, hdone⟩
    · exact absurd hout id
    · exact absurd hout id
    · refine ⟨done, rows', ch', heff, ?_, ?_, ?_, fun hd => Or.inl (by rw [hdone hd])⟩
      · intro pid hpid
        simp [Sys.put, hpid]
      · rintro r' ⟨⟩
      · intro _ _
        simp [Sys.put]

theorem exec_step (hinv : SysWf s rows ch) (hok : CallOk e.call)
    (hexec : exec defaultBuild s e = (out, s')) (hout : ReturnsOrExits out) :
    ∃ done rows' ch', SysStep s e out rows ch done s' rows' ch' :=
  step_of_effect (callOp_effect e.env hinv.store (hinv.slots e.pid) hok) hexec hout

/-- The invariant survives every call after which the open files are still in use. -/
theorem SysStep.sysWf_of_used (hstep : SysStep s e out rows ch done s' rows' ch')
    (hinv : SysWf s rows ch)
    (hstays : ∀ m, (s.table.mb m).inUse = true → Held s m → (s'.table.mb m).inUse = true) :
    SysWf s' rows' ch' := by
  have heff := hstep.effect
  have hkept : ∀ pid i, (s.fds pid i).empty = false → (s.fds pid i).exclusive = false →
      (s.table.mb (s.fds pid i).mindex).inUse = true →
      (s'.store rows' ch').Used (s.fds pid i).mindex ∧
        ∃ new, ch' (s.fds pid i).mindex = ch (s.fds pid i).mindex ++ new := by
    intro pid i h₁ h₂ huse
    have hused := hstays _ huse ⟨pid, i, h₁, h₂, rfl⟩
    exact ⟨hused, (heff.extends huse hused).2⟩
  refine ⟨heff.storeWf hinv.store, ?_⟩
  intro pid i
  by_cases hpid : pid = e.pid
  · subst hpid
    cases out with
    | ret r => exact (hstep.fds r rfl).slots (hinv.slots e.pid) (hkept e.pid) i
    | halt h =>
        rw [hstep.died h rfl]
        exact initFd_slotOk _ i
  · rw [hstep.other pid hpid]
    exact (hinv.slots pid i).kept (hkept pid i)

/-- The invariant survives every call that spares the files in use. -/
theorem SysStep.sysWf (hstep : SysStep s e out rows ch done s' rows' ch')
    (hinv : SysWf s rows ch) (hspares : Spares s e) : SysWf s' rows' ch' :=
  hstep.sysWf_of_used hinv (fun m huse hheld => hstep.effect.used huse (hspares m huse hheld))

/-- The state that `init_mount` leaves. -/
theorem initSys_wf : SysWf initSys (fun _ => []) (fun _ => []) := by
  refine ⟨⟨⟨initTable_wf, ⟨rfl, rfl, fun _ => rfl, fun _ _ => rfl, fun _ => Or.inl rfl⟩, ?_, ?_, ?_,
    ?_, fun _ _ => rfl⟩, fun _ => Nat.zero_le _, fun _ _ => rfl, ?_⟩, fun pid i => initFd_slotOk _ i⟩
  · exact fun m hm => absurd hm Bool.false_ne_true
  · exact fun m hm => absurd hm Bool.false_ne_true
  · exact fun m _ hm => absurd hm Bool.false_ne_true
  · exact fun m hm => absurd hm Bool.false_ne_true
  · exact fun m hm => absurd hm Bool.false_ne_true

end Spacefish
