import Spacefish.SysRun

/-!
The calls through an open descriptor act on its file alone: they change no other
meta bucket and no other data bucket in use, and what they hand out comes from the
chain and the stat buffer of the file.
-/

namespace Spacefish

open LinkedArray Program Buffer

variable {w w' : World} {rows : Nat → List Int} {ch : Int → List Nat} {env : Env} {bld : Build}
  {fd : Int} {m : Nat} {l : List Nat} {d d' : DataShm} {call : Call}

/-- The calls through the descriptor `fd`. -/
def Through (fd : Int) : Call → Prop
  | .read fd' _ => fd' = fd
  | .write fd' _ => fd' = fd
  | .pread fd' _ _ => fd' = fd
  | .pwrite fd' _ _ => fd' = fd
  | .fxstat fd' => fd' = fd
  | _ => False

/-- The meta buckets other than `m`. -/
def otherMbs (m : Nat) (w : World) : { a : Int // a ≠ m } → MetaBucket := fun a => w.table.mb a

theorem onData_otherMbs {α : Type} (x : Op DataShm α) : Frames (otherMbs m) (onData x) :=
  .zoom x (fun _ _ => rfl)

theorem setFddes_otherMbs (fd : Int) (f : FdInfo → FdInfo) : Frames (otherMbs m) (setFddes fd f) :=
  .ite (.modify (fun _ => rfl)) (Keeps.throw _).frames

theorem setMb_otherMbs (f : MetaBucket → MetaBucket) : Frames (otherMbs m) (setMb m f) :=
  fun _ => funext (fun a => setMb_mb_of_ne _ a.2)

theorem locate_otherMbs (f : FdInfo) (first : Nat) (offset : Int) :
    Frames (otherMbs m) (locate bld fd f first offset) := by
  refine .ite (Keeps.pure _).frames ((onData_otherMbs _).bind (fun r => ?_))
  cases r with
  | none => exact (Keeps.pure _).frames
  | some ix =>
      exact .ite ((setFddes_otherMbs _ _).bind (fun _ => (Keeps.pure _).frames))
        (Keeps.pure _).frames

/-- The end of a call that changes no meta bucket but `m`. -/
def OthersKept (m : Nat) (w : World) (r : EStateM.Result Halt World Ret) : Prop :=
  Ends r (fun _ w' => otherMbs m w' = otherMbs m w) (fun _ w' => otherMbs m w' = otherMbs m w)

theorem grow_otherMbs (F : MetaBucket → MetaBucket) (r : Ret) :
    Frames (otherMbs m) (do setMb m F; pure r) :=
  (setMb_otherMbs _).bind (fun _ => (Keeps.pure _).frames)

theorem sysRead_otherMbs (env : Env) (hu : UserFd w fd m) (count : UInt64) :
    OthersKept m w (sysRead env fd count w) := by
  unfold sysRead
  rw [fddes_eq hu, hu.exclusive, hu.nonempty]
  simp only [Bool.false_eq_true, if_false]
  rw [run_get_bind, hu.mindex]
  refine Frames.bind (onData_otherMbs _) (fun r => .ite ?_ (Keeps.pure _).frames) w
  exact (setMb_otherMbs _).bind (fun _ => (setFddes_otherMbs _ _).bind (fun _ =>
    (Keeps.pure _).frames))

theorem sysWrite_otherMbs (hu : UserFd w fd m) (buf : List Byte) :
    OthersKept m w (sysWrite bld env fd buf w) := by
  unfold sysWrite
  rw [fddes_eq hu, hu.exclusive, hu.nonempty]
  simp only [Bool.false_eq_true, if_false]
  rw [run_get_bind, hu.mindex]
  refine Frames.bind (onData_otherMbs _) (fun r => .ite ?_ (grow_otherMbs _ _)) w
  exact (setMb_otherMbs _).bind (fun _ => (setFddes_otherMbs _ _).bind (fun _ =>
    (setMb_otherMbs _).bind (fun _ => grow_otherMbs _ _)))

theorem sysPread_otherMbs (hu : UserFd w fd m) (count : UInt64) (offset : Int) :
    OthersKept m w (sysPread bld env fd count offset w) := by
  unfold sysPread
  rw [fddes_eq hu, hu.exclusive, hu.nonempty]
  simp only [Bool.false_eq_true, if_false]
  rw [run_get_bind, hu.mindex]
  refine Frames.bind (locate_otherMbs _ _ _) (fun r => ?_) w
  cases r with
  | none => exact (Keeps.pure _).frames
  | some ix =>
      refine (onData_otherMbs _).bind (fun r => .ite ?_ (Keeps.pure _).frames)
      exact (setFddes_otherMbs _ _).bind (fun _ => (Keeps.pure _).frames)

theorem sysPwrite_otherMbs (hu : UserFd w fd m) (buf : List Byte) (offset : Int) :
    OthersKept m w (sysPwrite bld env fd buf offset w) := by
  unfold sysPwrite
  rw [fddes_eq hu, hu.exclusive, hu.nonempty]
  simp only [Bool.false_eq_true, if_false]
  rw [run_get_bind, hu.mindex]
  refine Frames.bind (locate_otherMbs _ _ _) (fun r => ?_) w
  cases r with
  | none => exact (Keeps.pure _).frames
  | some ix =>
      refine (onData_otherMbs _).bind (fun r => .ite ?_ (grow_otherMbs _ _))
      exact (setFddes_otherMbs _ _).bind (fun _ => (setMb_otherMbs _).bind (fun _ =>
        grow_otherMbs _ _))

/-- The buckets in use outside `l` are as before. -/
def DataKept (d d' : DataShm) (l : List Nat) : Prop :=
  ∀ b ∉ l, (d.bucket b).inUse = true → d'.bucket b = d.bucket b

/-- The call hands out bytes of buckets of `l` and the stat buffer of `m` alone. -/
def FromFile (w : World) (l : List Nat) (m : Nat) (r : Ret) : Prop :=
  (∀ x ∈ r.data, ∃ b ∈ l, ∃ k < dbucketBufSize, x = (w.data.bucket b).buf k) ∧
    ∀ st, r.stat = some st → st = (w.table.mb m).s

/-- How a call through a descriptor of the file `m` with the chain `l` ends: it acts
on the file alone, and if it does not return the store was full. -/
def ActsOn (l : List Nat) (m : Nat) (w : World) (r : EStateM.Result Halt World Ret) : Prop :=
  Ends r (fun r w' => otherMbs m w' = otherMbs m w ∧ DataKept w.data w'.data l ∧ FromFile w l m r)
    (fun e w' => otherMbs m w' = otherMbs m w ∧ DataKept w.data w'.data l ∧
      e = .exit .dataBucketOverUse)

theorem mem_slice {buf : Nat → Byte} {off n : Nat} {x : Byte} (hx : x ∈ slice buf off n) :
    ∃ k < off + n, x = buf k := by
  obtain ⟨i, hi, rfl⟩ := List.mem_map.mp hx
  exact ⟨off + i, by have := List.mem_range.mp hi; omega, rfl⟩

theorem mem_content (hle : ∀ b, (d.bucket b).bytes ≤ dbucketBufSize) {x : Byte}
    (hx : x ∈ content d l) : ∃ b ∈ l, ∃ k < dbucketBufSize, x = (d.bucket b).buf k := by
  obtain ⟨b, hb, hx⟩ := List.mem_flatMap.mp hx
  obtain ⟨k, hk, rfl⟩ := mem_slice hx
  exact ⟨b, hb, k, by have := hle b; omega, rfl⟩

theorem DataKept.refl (d : DataShm) (l : List Nat) : DataKept d d l := fun _ _ _ => rfl

/-- The part of a chain from some bucket on is on the chain. -/
theorem DataKept.copy {pre : List Nat} {b off : Nat} {buf : List Byte} {r : Option WriteOut}
    {new : List Nat} (hsplit : l = pre ++ b :: new) {l' : List Nat}
    (hcopy : Copy d (b :: new) off buf d' r l') : DataKept d d' l := by
  intro c hc huse
  refine hcopy.bucket_done (fun hmem => hc ?_) huse
  rw [hsplit]
  exact List.mem_append_right _ hmem

section

variable (wf : StoreWf (w.store rows ch)) (hu : UserFd w fd m)
  (huse : (w.table.mb m).inUse = true)

include wf hu huse

theorem sysRead_acts (hcur : (w.table.mb m).lastDbucket ≠ noIx) (count : UInt64) :
    ActsOn (ch m) m w (sysRead env fd count w) := by
  obtain ⟨pre, l, r, hsplit, _, hread, hrun⟩ := @sysRead_eq _ _ _ env _ _ count wf hu huse hcur
  have hothers := sysRead_otherMbs env hu count
  rw [hrun] at hothers ⊢
  refine ⟨hothers, ?_, ?_, fun st => nofun⟩
  · split
    · exact .refl _ _
    · exact .refl _ _
  · intro x hx
    rw [hread.data] at hx
    obtain ⟨b, hb, hk⟩ := mem_content wf.bytes_le (List.mem_of_mem_drop (List.mem_of_mem_take hx))
    refine ⟨b, ?_, hk⟩
    rw [hsplit]
    exact List.mem_append_right _ hb

theorem sysWrite_acts (hcur : (w.table.mb m).lastDbucket ≠ noIx) (buf : List Byte) :
    ActsOn (ch m) m w (sysWrite defaultBuild env fd buf w) := by
  obtain ⟨pre, l, hsplit, _, hends⟩ := @sysWrite_ends _ _ _ env _ _
    defaultBuild buf rfl wf hu huse hcur
  refine (Ends.and (sysWrite_otherMbs hu buf) hends).mono ?_ ?_
  · rintro r w' ⟨hothers, rfl, out, new, hw⟩
    exact ⟨hothers, .copy hsplit hw.copy, (fun x hx => by cases hx), fun st => nofun⟩
  · rintro e w' ⟨hothers, he, _, new, hcopy⟩
    exact ⟨hothers, .copy hsplit hcopy, he⟩

variable {offset : Int} (hcache : CacheOk (w.fdTable fd.toNat) (ch m)) (hoff : 0 ≤ offset)

include hcache hoff

/-- A `pread` that begins no later than the data of its bucket ends, or ends inside the
bucket, reads the chain of the file alone. -/
theorem sysPread_acts {count : UInt64}
    (hin : ∀ b, (ch m)[hops offset]? = some b →
      within offset ≤ (w.data.bucket b).bytes ∨ within offset + count.toNat ≤ dbucketBufSize) :
    ActsOn (ch m) m w (sysPread bld env fd count offset w) := by
  have hat : ∀ {pre l : List Nat} {b : Nat}, ch m = pre ++ b :: l → pre.length = hops offset →
      (ch m)[hops offset]? = some b := by
    intro pre l b hsplit hlen
    rw [hsplit, ← hlen]
    simp
  refine (Ends.and (sysPread_otherMbs hu count offset)
    (sysPread_ends wf hu huse hcache hoff)).mono ?_ ?_
  · rintro r w' ⟨hothers, _, hdata, _, hr, hpd⟩
    refine ⟨hothers, hdata ▸ .refl _ _, fun x hx => ?_, ?_⟩
    · generalize r.data = data at hpd hx
      cases hpd with
      | short _ => cases hx
      | @inside pre b l hsplit _ _ =>
          obtain ⟨c, hc, hk⟩ :=
            mem_content wf.bytes_le (List.mem_of_mem_drop (List.mem_of_mem_take hx))
          refine ⟨c, ?_, hk⟩
          rw [hsplit]
          exact List.mem_append_right _ hc
      | @past pre b l _ hsplit hlen hpast _ hslice =>
          have hfit := (hin b (hat hsplit hlen)).resolve_left (Nat.not_le.mpr hpast)
          rw [hslice hfit] at hx
          obtain ⟨k, hk, rfl⟩ := mem_slice hx
          exact ⟨b, by rw [hsplit]; simp, k, Nat.lt_of_lt_of_le hk hfit, rfl⟩
    · rw [hr]
      exact fun st => nofun
  · rintro e w' ⟨hothers, _, _, _, pre, b, l, hsplit, hlen, hpast, hcount⟩
    rcases hin b (hat hsplit hlen) with hle | hfit
    · omega
    · unfold dbucketBufSize at hfit
      omega

theorem sysPwrite_acts (buf : List Byte) :
    ActsOn (ch m) m w (sysPwrite defaultBuild env fd buf offset w) := by
  refine (Ends.and (sysPwrite_otherMbs hu buf offset)
    (sysPwrite_ends rfl wf.toLinkWf hu huse hcache hoff)).mono ?_ ?_
  · rintro r w' ⟨hothers, ⟨_, rfl, hdata, _⟩ | ⟨pre, b, l, out, new, hsplit, _, rfl, hw⟩⟩
    · exact ⟨hothers, hdata ▸ .refl _ _, (fun x hx => by cases hx), fun st => nofun⟩
    · exact ⟨hothers, .copy hsplit hw.copy, (fun x hx => by cases hx), fun st => nofun⟩
  · rintro e w' ⟨hothers, he, _, pre, b, l, new, hsplit, _, hcopy⟩
    exact ⟨hothers, .copy hsplit hcopy, he⟩

end

theorem sysFxstat_acts (hu : UserFd w fd m) (huse : (w.table.mb m).inUse = true) :
    ActsOn l m w (sysFxstat env fd w) := by
  unfold sysFxstat
  rw [fddes_eq hu, hu.exclusive, hu.nonempty]
  simp only [Bool.false_eq_true, if_false]
  rw [run_get_bind, hu.mindex, run_ite, if_pos huse]
  exact ⟨rfl, .refl _ _, (fun x hx => by cases hx), fun st hst => (Option.some.inj hst).symm⟩

/-- A `pread` begins no later than the data of its bucket ends, or ends inside the
bucket: otherwise it copies from what lies behind the bucket. -/
def StaysInBucket (d : DataShm) (l : List Nat) : Call → Prop
  | .pread _ count offset => ∀ b, l[hops offset]? = some b →
      within offset ≤ (d.bucket b).bytes ∨ within offset + count.toNat ≤ dbucketBufSize
  | _ => True

theorem through_acts (wf : StoreWf (w.store rows ch)) (hu : UserFd w fd m)
    (huse : (w.table.mb m).inUse = true) (hcache : CacheOk (w.fdTable fd.toNat) (ch m))
    (hcur : (w.table.mb m).lastDbucket ≠ noIx) (hcall : Through fd call) (hok : CallOk call)
    (hin : StaysInBucket w.data (ch m) call) :
    ActsOn (ch m) m w (callOp defaultBuild env call w) := by
  cases call with
  | read fd' count =>
      obtain rfl : fd' = fd := hcall
      exact sysRead_acts wf hu huse hcur count
  | write fd' buf =>
      obtain rfl : fd' = fd := hcall
      exact sysWrite_acts wf hu huse hcur buf
  | pread fd' count offset =>
      obtain rfl : fd' = fd := hcall
      exact sysPread_acts wf hu huse hcache hok hin
  | pwrite fd' buf offset =>
      obtain rfl : fd' = fd := hcall
      exact sysPwrite_acts wf hu huse hcache hok buf
  | fxstat fd' =>
      obtain rfl : fd' = fd := hcall
      exact sysFxstat_acts hu huse
  | «open» _ _ _ => exact hcall.elim
  | close _ => exact hcall.elim
  | unlink _ => exact hcall.elim
  | rename _ _ => exact hcall.elim
  | xstat _ => exact hcall.elim
  | upload _ => exact hcall.elim

end Spacefish
