import Spacefish.Syscalls
import Spacefish.StoreSteps
import Spacefish.FdCache
import Spacefish.UploadCopy

/-!
The calls on an open descriptor, from a well-formed store: what `read`,
`write`, `pread`, `pwrite` and `close` return and what they change.
-/

namespace Spacefish

open LinkedArray Program Buffer

/-- The store that a process sees, with its row lists and chains. -/
def World.store (w : World) (rows : Nat → List Int) (ch : Int → List Nat) : Store :=
  ⟨w.table, w.data, rows, ch⟩

/-- `fd` is an open descriptor of the store and refers to bucket `m`. -/
structure UserFd (w : World) (fd : Int) (m : Nat) : Prop where
  pos : 0 ≤ fd
  lt : fd < maxNumFd
  exclusive : (w.fdTable fd.toNat).exclusive = false
  nonempty : (w.fdTable fd.toNat).empty = false
  mindex : (w.fdTable fd.toNat).mindex = m

variable {w : World} {rows : Nat → List Int} {ch : Int → List Nat} {env : Env} {fd : Int}
  {m b off : Nat} {pre l : List Nat} {buf : List Byte} {bld : Build}

theorem fddes_eq (hu : UserFd w fd m) {β : Type} {k : FdInfo → Op World β} :
    (fddes fd >>= k) w = k (w.fdTable fd.toNat) w := by
  rw [fddes, bind_assoc, run_get_bind, if_pos ⟨hu.pos, hu.lt⟩, run_pure_bind]

/-- The shape of the calls on a descriptor: they go on with a descriptor of the
store, and on any other they return at once or read outside the table. -/
theorem fdCall_cases {x : Op World Ret} {r₁ r₂ : Ret} {k : FdInfo → Op World Ret}
    (hx : x = fddes fd >>= fun f =>
      if f.exclusive then pure r₁ else if f.empty then pure r₂ else k f) :
    (∃ m, UserFd w fd m ∧ x w = k (w.fdTable fd.toNat) w) ∨
      (∀ m, ¬ UserFd w fd m) ∧ (x w = .error .undefined w ∨ ∃ r, x w = .ok r w) := by
  subst hx
  by_cases hin : 0 ≤ fd ∧ fd < maxNumFd
  · rw [fddes, bind_assoc, run_get_bind, if_pos hin, run_pure_bind, run_ite]
    by_cases hexcl : (w.fdTable fd.toNat).exclusive = true
    · rw [if_pos hexcl]
      exact Or.inr ⟨fun m hu => by simp [hu.exclusive] at hexcl, Or.inr ⟨_, rfl⟩⟩
    · rw [if_neg hexcl, run_ite]
      by_cases hempty : (w.fdTable fd.toNat).empty = true
      · rw [if_pos hempty]
        exact Or.inr ⟨fun m hu => by simp [hu.nonempty] at hempty, Or.inr ⟨_, rfl⟩⟩
      · rw [if_neg hempty]
        exact Or.inl ⟨_, ⟨hin.1, hin.2, by simpa using hexcl, by simpa using hempty, rfl⟩, rfl⟩
  · rw [fddes, bind_assoc, run_get_bind, if_neg hin]
    exact Or.inr ⟨fun m hu => hin ⟨hu.pos, hu.lt⟩, Or.inl rfl⟩

theorem setFddes_eq (hpos : 0 ≤ fd) (hlt : fd < maxNumFd) {f : FdInfo → FdInfo} {β : Type}
    {k : PUnit → Op World β} : (setFddes fd f >>= k) w = k ⟨⟩ (w.setFd fd.toNat f) := by
  rw [setFddes, if_pos ⟨hpos, hlt⟩, run_modify_bind]

/-- A cursor that stands somewhere belongs to a file in use and is on its chain. -/
theorem LinkWf.cursor {m : Int} (wf : LinkWf (w.store rows ch))
    (hcur : (w.table.mb m).lastDbucket ≠ noIx) :
    (w.table.mb m).inUse = true ∧ (w.table.mb m).lastDbucket ∈ ch m := by
  have huse : (w.table.mb m).inUse = true := by
    by_contra hno
    exact hcur (wf.unused m (Bool.eq_false_iff.mpr hno))
  exact ⟨huse, (wf.onChain m huse).resolve_left hcur⟩

/-- The bucket and the offset the cursor of a file stands at. -/
theorem StoreWf.cursor_split (wf : StoreWf (w.store rows ch)) (huse : (w.table.mb m).inUse = true)
    (hcur : (w.table.mb m).lastDbucket ≠ noIx) :
    ∃ pre l, ch m = pre ++ (w.table.mb m).lastDbucket :: l ∧
      toSize (w.table.mb m).lastDbOffset = (w.table.mb m).lastDbOffset.toNat ∧
      (w.table.mb m).lastDbOffset.toNat ≤ (w.data.bucket (w.table.mb m).lastDbucket).bytes := by
  rcases wf.onChain m huse with hnil | hmem
  · exact absurd hnil hcur
  · obtain ⟨pre, l, hsplit⟩ := List.append_of_mem hmem
    obtain ⟨hpos, hle⟩ := wf.inBucket m huse hcur
    have hle' := wf.bytes_le (w.table.mb m).lastDbucket
    have hsize : dbucketBufSize = 4096 := rfl
    simp only [World.store] at hpos hle hle'
    refine ⟨pre, l, hsplit, ?_, by omega⟩
    have := toSize_eq (a := (w.table.mb m).lastDbOffset.toNat) (by omega)
    rwa [Int.toNat_of_nonneg hpos] at this

/-- The chain of a file from one of its buckets on. -/
theorem LinkWf.suffix (wf : LinkWf (w.store rows ch)) (huse : (w.table.mb m).inUse = true)
    (hsplit : ch m = pre ++ b :: l) :
    Linked w.data.next noIx b (b :: l) ∧ (∀ c ∈ b :: l, w.data.Owned c) ∧
      (b :: l).length ≤ totBuckets := by
  have hwhole : Linked w.data.next noIx (w.table.mb m).firstDbucket (ch m) := wf.linked m huse
  rw [hsplit] at hwhole
  have hlinked : Linked w.data.next noIx b (b :: l) := Linked.suffix hwhole
  have hown : ∀ c ∈ b :: l, w.data.Owned c := fun c hc =>
    wf.owned m huse c (by
      change c ∈ ch m
      rw [hsplit]
      exact List.mem_append_right _ hc)
  exact ⟨hlinked, hown, length_le_totBuckets (Linked.nodup hlinked) (fun c hc => (hown c hc).1)⟩

/-! `close` -/

/-- The ways in which `close` returns: it clears the entry of a descriptor that the
kernel has closed, and for a descriptor of the store it also hands the deferred stamps
to the file. -/
inductive Closes (env : Env) (fd : Int) (w : World) : Ret → World → Prop where
  | kernel (hexcl : (w.fdTable fd.toNat).exclusive = true) (hret : env.realRet = 0) :
      Closes env fd w { ret := env.realRet, err := env.realErrno } (w.setFd fd.toNat resetFd)
  | refused (hexcl : (w.fdTable fd.toNat).exclusive = true) (hret : env.realRet ≠ 0) :
      Closes env fd w { ret := env.realRet, err := env.realErrno } w
  | unopened (hexcl : (w.fdTable fd.toNat).exclusive = false)
      (hempty : (w.fdTable fd.toNat).empty = true) :
      Closes env fd w { ret := -1, err := .ebadf } w
  | store {m : Nat} (hu : UserFd w fd m) :
      Closes env fd w { ret := 0, err := .ok }
        (World.setFd { w with table := w.table.setMb m (fun b =>
          { b with s := closeStamps (w.fdTable fd.toNat) b.s }) } fd.toNat resetFd)

theorem edited_closeStamps (t : MetaShm) (m : Int) (f : FdInfo) :
    Edited t (t.setMb m (fun b => { b with s := closeStamps f b.s })) m id :=
  Edited.setMb rfl

theorem sysClose_user (hu : UserFd w fd m) :
    sysClose env fd w = .ok { ret := 0, err := .ok }
      (World.setFd { w with table := w.table.setMb m (fun b =>
        { b with s := closeStamps (w.fdTable fd.toNat) b.s }) } fd.toNat resetFd) := by
  rw [sysClose, fddes_eq hu, hu.exclusive, hu.nonempty]
  simp only [Bool.false_eq_true, if_false]
  rw [hu.mindex, run_setMb, setFddes_eq hu.pos hu.lt]
  rfl

theorem sysClose_ends (env : Env) (fd : Int) (w : World) :
    Ends (sysClose env fd w) (fun r w' => 0 ≤ fd ∧ fd < maxNumFd ∧ Closes env fd w r w')
      (fun e w' => e = .undefined ∧ w' = w ∧ ¬ (0 ≤ fd ∧ fd < maxNumFd)) := by
  by_cases hin : 0 ≤ fd ∧ fd < maxNumFd
  · by_cases hexcl : (w.fdTable fd.toNat).exclusive = true
    · rw [sysClose, fddes, bind_assoc, run_get_bind, if_pos hin, run_pure_bind, run_ite,
        if_pos hexcl, run_ite]
      split
      · next hret =>
        rw [setFddes_eq hin.1 hin.2]
        exact ⟨hin.1, hin.2, .kernel hexcl hret⟩
      · next hret => exact ⟨hin.1, hin.2, .refused hexcl hret⟩
    · have hexcl' : (w.fdTable fd.toNat).exclusive = false := by simpa using hexcl
      by_cases hempty : (w.fdTable fd.toNat).empty = true
      · rw [sysClose, fddes, bind_assoc, run_get_bind, if_pos hin, run_pure_bind, run_ite,
          if_neg hexcl, run_ite, if_pos hempty]
        exact ⟨hin.1, hin.2, .unopened hexcl' hempty⟩
      · have hu : UserFd w fd (w.fdTable fd.toNat).mindex :=
          ⟨hin.1, hin.2, hexcl', by simpa using hempty, rfl⟩
        rw [sysClose_user hu]
        exact ⟨hin.1, hin.2, .store hu⟩
  · rw [sysClose, fddes, bind_assoc, run_get_bind, if_neg hin]
    exact ⟨rfl, rfl, hin⟩

/-! `read` -/

/-- The state after a `read` through `fd` that returned data. -/
def afterRead (env : Env) (fd : Int) (m : Nat) (r : ReadOut) (w : World) : World :=
  World.setFd { w with table := w.table.setMb m (fun b =>
    { b with lastDbucket := r.dbindex, lastDbOffset := r.off }) } fd.toNat (deferStamp env stAcs)

/-- What `read` copies out when the cursor stands at offset `off` of the first
bucket of `l`: the content from there on, up to `count` bytes. -/
structure ReadAt (d : DataShm) (l : List Nat) (off count : Nat) (r : ReadOut) : Prop where
  data : r.data = ((content d l).drop off).take count
  place : ∃ l₁ l₂, l = l₁ ++ r.dbindex :: l₂ ∧ r.off ≤ (d.bucket r.dbindex).bytes ∧
    total d l₁ + r.off = off + r.data.length

theorem sysRead_noData {count : UInt64} (wf : StoreWf (w.store rows ch)) (hu : UserFd w fd m)
    (hcur : (w.table.mb m).lastDbucket = noIx) :
    sysRead env fd count w = .error (.exit .stepNotYetCreated) w := by
  have hd : DataWf w.data := wf.data
  rw [sysRead, fddes_eq hu, hu.exclusive, hu.nonempty]
  simp only [Bool.false_eq_true, if_false]
  rw [run_get_bind, hu.mindex, hcur, bind_of_error (onData_of_error (readLoop_noIx hd.steps_le _ _))]

theorem sysRead_eq {count : UInt64} (wf : StoreWf (w.store rows ch)) (hu : UserFd w fd m)
    (huse : (w.table.mb m).inUse = true) (hcur : (w.table.mb m).lastDbucket ≠ noIx) :
    ∃ pre l r, ch m = pre ++ (w.table.mb m).lastDbucket :: l ∧
      (w.table.mb m).lastDbOffset.toNat ≤ (w.data.bucket (w.table.mb m).lastDbucket).bytes ∧
      ReadAt w.data ((w.table.mb m).lastDbucket :: l) (w.table.mb m).lastDbOffset.toNat
        count.toNat r ∧
      sysRead env fd count w = .ok { ret := r.data.length, err := .ok, data := r.data }
        (if r.data.length > 0 then afterRead env fd m r w else w) := by
  have hd : DataWf w.data := wf.data
  obtain ⟨pre, l, hsplit, hsize, hoff⟩ := wf.cursor_split huse hcur
  obtain ⟨hlinked, hown, hlen⟩ := wf.suffix huse hsplit
  have hfuel : totBuckets ≤ readFuel count.toNat := by
    unfold readFuel
    have : totBuckets + 1 ≤ (count.toNat + 1) * (totBuckets + 1) :=
      Nat.le_mul_of_pos_left _ (Nat.succ_pos _)
    omega
  obtain ⟨r, hrun, hdata, hplace⟩ := readLoop_eq hd hlinked hown hoff
    count.toNat_lt (hlen.trans hfuel)
  refine ⟨pre, l, r, hsplit, hoff, ⟨hdata, hplace⟩, ?_⟩
  obtain ⟨l₁, l₂, _, hroff, _⟩ := hplace
  have hint : toInt r.off = r.off := by
    have hb : (w.data.bucket r.dbindex).bytes ≤ 4096 := hd.bytes_le r.dbindex
    exact toInt_eq (by omega)
  rw [sysRead, fddes_eq hu, hu.exclusive, hu.nonempty]
  simp only [Bool.false_eq_true, if_false]
  rw [run_get_bind, hu.mindex, hsize, bind_of_ok (onData_of_ok hrun), hint, run_ite]
  by_cases hpos : r.data.length > 0
  · rw [if_pos hpos, if_pos hpos, run_setMb, setFddes_eq hu.pos hu.lt]
    rfl
  · rw [if_neg hpos, if_neg hpos]
    rfl

/-! `write` -/

/-- `st_size` after the loop has grown the buckets by `ind`. -/
def growSize (size ind : Nat) : Nat := if ind % 2 ^ 64 > 0 then uadd ind size else size

theorem growStat_size (st : Stat) (ind : Nat) :
    (growStat st ind).stSize = growSize st.stSize ind := by
  unfold growStat growSize
  split <;> rfl

/-- The fields of a file after a write; `moves` tells whether the cursor is set. -/
def wroteCore (out : WriteOut) (moves : Bool) (c : FileCore) : FileCore :=
  { c with size := growSize c.size out.sizeInd
           last := if moves then out.dbindex else c.last
           off := if moves then out.off else c.off }

/-- What a completed `write` or `pwrite` of `buf` leaves: `cl` is the chain of
file `m` and `l` the part of it that is written from position `off` on. -/
structure WroteFile (w w' : World) (fd : Int) (m : Nat) (cl l : List Nat) (off : Nat)
    (buf : List Byte) (moves : Bool) (out : WriteOut) (new : List Nat) : Prop where
  copy : Copy w.data l off buf w'.data (some out) new
  table : Edited w.table w'.table m (wroteCore out moves)
  slots : FdNext cl fd.toNat w.fdTable w'.fdTable

theorem sysWrite_noData (wf : StoreWf (w.store rows ch)) (hu : UserFd w fd m)
    (hcur : (w.table.mb m).lastDbucket = noIx) :
    sysWrite bld env fd buf w = .error (.exit .stepNotYetCreated) w := by
  have hd : DataWf w.data := wf.data
  rw [sysWrite, fddes_eq hu, hu.exclusive, hu.nonempty]
  simp only [Bool.false_eq_true, if_false]
  rw [run_get_bind, hu.mindex, hcur, bind_of_error (onData_of_error (writeLoop_noIx hd.steps_le _))]

theorem sysWrite_ends (bld : Build) (buf : List Byte)
    (hbld : bld.getFreeDbucketIx = bucketIxAllocAllRandom)
    (wf : StoreWf (w.store rows ch)) (hu : UserFd w fd m)
    (huse : (w.table.mb m).inUse = true) (hcur : (w.table.mb m).lastDbucket ≠ noIx) :
    ∃ pre l, ch m = pre ++ (w.table.mb m).lastDbucket :: l ∧
      (w.table.mb m).lastDbOffset.toNat ≤ (w.data.bucket (w.table.mb m).lastDbucket).bytes ∧
      Ends (sysWrite bld env fd buf w)
        (fun r w' => r = { ret := buf.length, err := .ok } ∧
          ∃ out new, WroteFile w w' fd m (ch m) ((w.table.mb m).lastDbucket :: l)
            (w.table.mb m).lastDbOffset.toNat buf (decide (0 < buf.length)) out new)
        (fun e w' => e = .exit .dataBucketOverUse ∧ w'.table = w.table ∧
          ∃ new, Copy w.data ((w.table.mb m).lastDbucket :: l)
            (w.table.mb m).lastDbOffset.toNat buf w'.data none new) := by
  have hd : DataWf w.data := wf.data
  obtain ⟨pre, l, hsplit, hsize, hoff⟩ := wf.cursor_split huse hcur
  obtain ⟨hlinked, hown, hlen⟩ := wf.suffix huse hsplit
  refine ⟨pre, l, hsplit, hoff, ?_⟩
  have hloop := writeLoop_ends env false buf hbld hd.toLinksOk hlinked hown
    (hoff.trans (hd.bytes_le _)) (Or.inl (Nat.le_refl _))
  rw [sysWrite, fddes_eq hu, hu.exclusive, hu.nonempty]
  simp only [Bool.false_eq_true, if_false]
  rw [run_get_bind, hu.mindex, hsize, ends_bind, onData, ends_zoom]
  refine hloop.mono ?_ ?_
  · rintro out d' ⟨new, hcopy⟩
    have hn := hcopy.n_eq rfl
    have hint : toInt out.off = out.off := by
      obtain ⟨_, _, _, _, hle, _⟩ := hcopy.cursor rfl hd (Linked.nodup hlinked) hown
      have hb : (d'.bucket out.dbindex).bytes ≤ 4096 := (hcopy.dataWf hd hown).bytes_le _
      exact toInt_eq (by omega)
    rw [run_ite]
    by_cases hpos : out.n > 0
    · rw [if_pos hpos, run_setMb, setFddes_eq hu.pos hu.lt, mbModify, run_setMb, run_setMb, hint]
      refine ⟨by rw [hn], out, new, hcopy, ?_, FdNext.stamp (.refl _ _ _)⟩
      dsimp only [World.setFd]
      rw [setMb_setMb, setMb_setMb]
      refine Edited.setMb ?_
      rw [← hn]
      simp [MetaBucket.core, wroteCore, growStat_size, hpos]
    · rw [if_neg hpos, run_setMb]
      refine ⟨by rw [hn], out, new, hcopy, ?_, .refl _ _ _⟩
      dsimp only
      refine Edited.setMb ?_
      rw [← hn]
      simp [MetaBucket.core, wroteCore, growStat_size, hpos]
  · rintro e d' ⟨he, new, hcopy⟩
    exact ⟨he, rfl, new, hcopy⟩

end Spacefish
