import Spacefish.Effects

/-!
Every call has an effect. From a well-formed store and a descriptor table that
agrees with it, each call that returns or ends its process leaves the store as
one of the effects says, and changes the descriptor table as `FdEffect` says.
-/

namespace Spacefish

open LinkedArray Program Buffer

/-- An entry of a descriptor table that agrees with the store. -/
structure SlotOk (s : Store) (i : Nat) (f : FdInfo) : Prop where
  ptr : f.offDbPtr = 0
  clean : f.empty = true → (f.offDbMapping 0).offset = -1
  kernel : firstUserFd ≤ i → f.empty = true → f.exclusive = false
  used : f.empty = false → f.exclusive = false → s.Used f.mindex
  cache : f.empty = false → f.exclusive = false → CacheOk f (s.ch f.mindex)

/-- What a call that returned `r` does to the descriptor table. -/
inductive FdEffect (w : World) (ch : Int → List Nat) (env : Env) (s' : Store) :
    Call → Ret → (Nat → FdInfo) → Prop where
  | same {call : Call} {r : Ret} : FdEffect w ch env s' call r w.fdTable
  | next {call : Call} {r : Ret} {fd : Int} {m : Nat} {fds' : Nat → FdInfo} (hu : UserFd w fd m)
      (hnext : FdNext (ch m) fd.toNat w.fdTable fds') : FdEffect w ch env s' call r fds'
  | opened {pathname p : Path} {flags mode i : Nat} {m : Int} {fds' : Nat → FdInfo}
      (hpath : absPath env pathname = .ok p) (hslot : FdOpened w.fdTable fds' i m) (hpos : 0 ≤ m)
      (hused : s'.Used m)
      (hstart : (s'.table.mb m).lastDbucket = (s'.table.mb m).firstDbucket)
      (hname : samePath p (s'.table.mb m).path = true) :
      FdEffect w ch env s' (.open pathname flags mode) { ret := i, err := .ok } fds'
  | forwarded {pathname : Path} {flags mode : Nat} {r : Ret} {fds' : Nat → FdInfo}
      (hfwd : FdForwarded w.fdTable fds') :
      FdEffect w ch env s' (.open pathname flags mode) r fds'
  | closed {fd : Int} {r : Ret} : FdEffect w ch env s' (.close fd) r
      (Function.update w.fdTable fd.toNat (resetFd (w.fdTable fd.toNat)))

/-- The call uploads a file that the disk does not return completely. -/
def ShortReads (env : Env) : Call → Prop
  | .open pathname _ _ => ∃ p, absPath env pathname = .ok p ∧ ShortRead env p
  | .upload name => ShortRead env name
  | _ => False

/-- What a call that returns leaves. -/
def Returned (w : World) (rows : Nat → List Int) (ch : Int → List Nat) (env : Env) (call : Call)
    (r : Ret) (w' : World) : Prop :=
  ∃ done rows' ch', Effect w rows ch env call done (w'.store rows' ch') ∧
    FdEffect w ch env (w'.store rows' ch') call r w'.fdTable ∧
    (done = false → ShortReads env call)

/-- What a call that does not return leaves. -/
def Stopped (w : World) (rows : Nat → List Int) (ch : Int → List Nat) (env : Env) (call : Call)
    (e : Halt) (w' : World) : Prop :=
  e = .hang ∨ e = .undefined ∨ ∃ done rows' ch', Effect w rows ch env call done (w'.store rows' ch') ∧
    (done = false → e = .exit .dataBucketOverUse)

variable {w w' : World} {rows : Nat → List Int} {ch : Int → List Nat} {env : Env} {call : Call}
  {fd offset : Int} {buf : List Byte} {m : Nat} {r : Ret} {e : Halt}

theorem Returned.keep (htab : w'.table = w.table) (hdata : w'.data = w.data)
    (hfd : FdEffect w ch env (w.store rows ch) call r w'.fdTable) :
    Returned w rows ch env call r w' := by
  have hst : w'.store rows ch = w.store rows ch := by rw [World.store, htab, hdata]; rfl
  exact ⟨true, rows, ch, hst ▸ .keep, hst ▸ hfd, by simp⟩

theorem Stopped.keep (htab : w'.table = w.table) (hdata : w'.data = w.data) :
    Stopped w rows ch env call e w' := by
  have hst : w'.store rows ch = w.store rows ch := by rw [World.store, htab, hdata]; rfl
  exact Or.inr (Or.inr ⟨true, rows, ch, hst ▸ .keep, by simp⟩)

theorem Returned.same : Returned w rows ch env call r w := .keep rfl rfl .same

/-! Calls on a descriptor that is not one of the store. -/

/-- The shape of the calls on a descriptor. -/
theorem notUser_ends {x : Op World Ret} {a b : Ret} {k : FdInfo → Op World Ret}
    (hx : x = fddes fd >>= fun f => if f.exclusive then pure a else if f.empty then pure b else k f)
    (hno : ∀ m, ¬ UserFd w fd m) :
    Ends (x w) (Returned w rows ch env call) (Stopped w rows ch env call) := by
  subst hx
  by_cases hin : 0 ≤ fd ∧ fd < maxNumFd
  · rw [fddes, bind_assoc, run_get_bind, if_pos hin, run_pure_bind, run_ite]
    by_cases hexcl : (w.fdTable fd.toNat).exclusive = true
    · rw [if_pos hexcl]
      exact .same
    · rw [if_neg hexcl, run_ite]
      by_cases hempty : (w.fdTable fd.toNat).empty = true
      · rw [if_pos hempty]
        exact .same
      · exact absurd ⟨hin.1, hin.2, by simpa using hexcl, by simpa using hempty, rfl⟩ (hno _)
  · rw [fddes, bind_assoc, run_get_bind, if_neg hin]
    exact Or.inr (Or.inl rfl)

theorem UserFd.used {s : Store} (hu : UserFd w fd m)
    (hslot : SlotOk s fd.toNat (w.fdTable fd.toNat)) :
    s.Used m ∧ CacheOk (w.fdTable fd.toNat) (s.ch m) := by
  have h₁ := hslot.used hu.nonempty hu.exclusive
  have h₂ := hslot.cache hu.nonempty hu.exclusive
  rw [hu.mindex] at h₁ h₂
  exact ⟨h₁, h₂⟩

/-- What a `pwrite` of a descriptor of the store leaves is an effect. -/
theorem Returned.pwrite (wf : StoreWf (w.store rows ch)) (hu : UserFd w fd m)
    (huse : (w.table.mb m).inUse = true)
    (hret : ((ch m).length ≤ hops offset ∧ r = { ret := 0, err := .ok } ∧ w'.data = w.data ∧
        Edited w.table w'.table m id ∧ FdNext (ch m) fd.toNat w.fdTable w'.fdTable) ∨
      ∃ pre b l out new, ch m = pre ++ b :: l ∧ pre.length = hops offset ∧
        r = { ret := buf.length, err := .ok } ∧
        WroteFile w w' fd m (ch m) (b :: l) (within offset) buf false out new) :
    Returned w rows ch env (.pwrite fd buf offset) r w' := by
  rcases hret with ⟨_, rfl, hdata, he, hfds⟩ | ⟨pre, b, l, out, new, hsplit, hlen, rfl, hw⟩
  · refine ⟨true, rows, ch, ?_, .next hu hfds, by simp⟩
    rw [World.store, hdata]
    exact .stay wf huse he
  · exact ⟨true, rows, _, .pwrite (r := some out) hu huse hsplit hlen hw.copy hw.table,
      .next hu hw.slots, by simp⟩

theorem Stopped.pwrite (hu : UserFd w fd m) (huse : (w.table.mb m).inUse = true)
    (hstop : e = .exit .dataBucketOverUse ∧ w'.table = w.table ∧
      ∃ pre b l new, ch m = pre ++ b :: l ∧ pre.length = hops offset ∧
        Copy w.data (b :: l) (within offset) buf w'.data none new) :
    Stopped w rows ch env (.pwrite fd buf offset) e w' := by
  obtain ⟨rfl, htab, pre, b, l, new, hsplit, hlen, hcopy⟩ := hstop
  exact Or.inr (Or.inr ⟨false, rows, _,
    .pwrite (r := none) hu huse hsplit hlen hcopy (htab ▸ .refl _ _), fun _ => rfl⟩)

section

variable (wf : StoreWf (w.store rows ch))

include wf

theorem sysRead_effect (fd : Int) (count : UInt64) :
    Ends (sysRead env fd count w) (Returned w rows ch env (.read fd count))
      (Stopped w rows ch env (.read fd count)) := by
  by_cases hex : ∃ m, UserFd w fd m
  · obtain ⟨m, hu⟩ := hex
    by_cases hcur : (w.table.mb m).lastDbucket = noIx
    · rw [sysRead_noData wf hu hcur]
      exact .keep rfl rfl
    · have huse := (wf.toLinkWf.cursor hcur).1
      obtain ⟨pre, l, rd, hsplit, hoff, hread, hrun⟩ := sysRead_eq
        wf hu huse hcur
      rw [hrun, ends_ok]
      by_cases hpos : rd.data.length > 0
      · rw [if_pos hpos]
        obtain ⟨l₁, l₂, hl, hle, _⟩ := hread.place
        have he : Edited w.table (afterRead env fd m rd w).table m
            (fun c => { c with last := rd.dbindex, off := rd.off }) := by
          dsimp only [afterRead, World.setFd]
          exact Edited.setMb rfl
        refine ⟨true, rows, ch, .edit huse he (.cursor _ _) (Or.inl ?_)
          (fun _ => ⟨Int.natCast_nonneg _, Int.ofNat_le.mpr hle⟩),
          .next hu (FdNext.stamp (.refl _ _ _)), by simp⟩
        change rd.dbindex ∈ ch m
        rw [hsplit, hl]
        simp
      · rw [if_neg hpos]
        exact .same
  · exact notUser_ends rfl (fun m hu => hex ⟨m, hu⟩)

theorem sysWrite_effect (fd : Int) (buf : List Byte) :
    Ends (sysWrite defaultBuild env fd buf w) (Returned w rows ch env (.write fd buf))
      (Stopped w rows ch env (.write fd buf)) := by
  by_cases hex : ∃ m, UserFd w fd m
  · obtain ⟨m, hu⟩ := hex
    by_cases hcur : (w.table.mb m).lastDbucket = noIx
    · rw [sysWrite_noData wf hu hcur]
      exact .keep rfl rfl
    · have huse := (wf.toLinkWf.cursor hcur).1
      obtain ⟨pre, l, hsplit, hoff, hends⟩ := sysWrite_ends defaultBuild buf rfl wf hu huse hcur
      refine hends.mono ?_ ?_
      · rintro r w' ⟨rfl, out, new, hw⟩
        exact ⟨true, rows, _, .write (r := some out) hu huse hsplit hw.copy hw.table,
          .next hu hw.slots, by simp⟩
      · rintro e w' ⟨rfl, htab, new, hcopy⟩
        exact Or.inr (Or.inr ⟨false, rows, _,
          .write (r := none) hu huse hsplit hcopy (htab ▸ .refl _ _), fun _ => rfl⟩)
  · exact notUser_ends rfl (fun m hu => hex ⟨m, hu⟩)

variable (hslots : ∀ i, SlotOk (w.store rows ch) i (w.fdTable i))

include hslots

theorem sysPread_effect (fd : Int) (count : UInt64) (hoff : 0 ≤ offset) :
    Ends (sysPread defaultBuild env fd count offset w)
      (Returned w rows ch env (.pread fd count offset))
      (Stopped w rows ch env (.pread fd count offset)) := by
  by_cases hex : ∃ m, UserFd w fd m
  · obtain ⟨m, hu⟩ := hex
    obtain ⟨huse, hcache⟩ := hu.used (hslots _)
    refine (sysPread_ends wf hu huse hcache hoff).mono ?_ ?_
    · rintro r w' ⟨htab, hdata, hfds, _⟩
      exact .keep htab hdata (.next hu hfds)
    · rintro e w' ⟨rfl, _⟩
      exact Or.inr (Or.inl rfl)
  · exact notUser_ends rfl (fun m hu => hex ⟨m, hu⟩)

theorem sysPwrite_effect (fd : Int) (buf : List Byte) (hoff : 0 ≤ offset) :
    Ends (sysPwrite defaultBuild env fd buf offset w)
      (Returned w rows ch env (.pwrite fd buf offset))
      (Stopped w rows ch env (.pwrite fd buf offset)) := by
  by_cases hex : ∃ m, UserFd w fd m
  · obtain ⟨m, hu⟩ := hex
    obtain ⟨huse, hcache⟩ := hu.used (hslots _)
    exact (sysPwrite_ends rfl wf.toLinkWf hu huse hcache hoff).mono
      (fun _ _ hret => .pwrite wf hu huse hret) (fun _ _ hstop => .pwrite hu huse hstop)
  · exact notUser_ends rfl (fun m hu => hex ⟨m, hu⟩)

theorem sysClose_effect (fd : Int) :
    Ends (sysClose env fd w) (Returned w rows ch env (.close fd))
      (Stopped w rows ch env (.close fd)) := by
  refine (sysClose_ends env fd w).mono ?_ ?_
  · rintro r w' ⟨_, _, hclose⟩
    cases hclose with
    | kernel => exact .keep rfl rfl .closed
    | refused => exact .same
    | unopened => exact .same
    | store hu =>
        obtain ⟨huse, _⟩ := hu.used (hslots _)
        exact ⟨true, rows, ch, .stay wf huse (edited_closeStamps _ _ _), .closed, by simp⟩
  · rintro e w' ⟨rfl, rfl, _⟩
    exact Or.inr (Or.inl rfl)

end

end Spacefish
