import Spacefish.SysRun
import Spacefish.Sizes
import Spacefish.LinkRun
import Spacefish.KernelFds

/-!
Runs in which files are removed while descriptors refer to them. A descriptor whose
file is gone may hold buckets in its cache that are on no chain any more, and `pread`
and `pwrite` through it still go there. The byte counts and the cursors of the files
stay in range all the same: these calls move no cursor, and no bucket loses bytes.
-/

namespace Spacefish

open LinkedArray Program Buffer

variable {d d₁ d' : DataShm} {b c ix off fuel : Nat} {chunk : List Byte} {w w₁ w' : World}
  {rows rows' : Nat → List Int} {ch ch' : Int → List Nat} {env : Env} {m offset : Int}
  {s s' : Sys} {e : Event} {out : Out}

/-! The loop of `pwrite` from any bucket in use. -/

/-- A well-formed data area in which no bucket has fewer bytes than in `d`. -/
structure Fills (d d' : DataShm) : Prop where
  wf : DataWf d'
  bytes : ∀ b, (d.bucket b).bytes ≤ (d'.bucket b).bytes

theorem Fills.refl (hd : DataWf d) : Fills d d := ⟨hd, fun _ => Nat.le_refl _⟩

theorem Fills.trans (h₁ : Fills d d₁) (h₂ : Fills d₁ d') : Fills d d' :=
  ⟨h₂.wf, fun b => (h₁.bytes b).trans (h₂.bytes b)⟩

theorem Fills.put (hd : DataWf d) (hb : d.Owned b) (hfit : off + chunk.length ≤ dbucketBufSize) :
    Fills d (d.put b off chunk) :=
  ⟨hd.put hb.2 hfit, fun _ => put_bytes_ge hfit⟩

theorem Fills.grow (hd : DataWf d) (hb : d.Owned b) (hix : ix < totBuckets)
    (hfree : (d.bucket ix).inUse = false) : Fills d (d.grow b ix) :=
  ⟨hd.grow hb.2 hix hfree, fun _ => Nat.le_of_eq grow_bytes.symm⟩

theorem writeLoop_fills (guarded : Bool) (buf : List Byte) (hd : DataWf d) (hb : d.Owned b)
    (hoff : off ≤ dbucketBufSize) :
    Ends (writeLoop defaultBuild env guarded fuel b off buf d) (fun _ d' => Fills d d')
      (fun e d' => ∀ u, e = .exit u → Fills d d') := by
  induction fuel generalizing d b off buf with
  | zero => exact fun u h => by cases h
  | succ fuel ih =>
      have hsub : usub dbucketBufSize off = dbucketBufSize - off := usub_eq (by decide) (by omega)
      unfold writeLoop
      rw [run_ite, if_neg (by simp [hb.ne_noIx]), bind_of_ok (getDbucketPtr_eq hd.steps hb.1),
        hsub, run_ite]
      split
      · next hfit =>
        rw [bind_of_ok (copyIn_eq (by omega))]
        exact .put hd hb (by omega)
      · next hlong =>
        have hlen : (buf.take (dbucketBufSize - off)).length = dbucketBufSize - off := by
          rw [List.length_take]
          omega
        rw [bind_of_ok (copyIn_eq (by omega)), writeLoop.nextOrNew]
        have hput : Fills d (d.put b off (buf.take (dbucketBufSize - off))) :=
          .put hd hb (by omega)
        have hb₁ : (d.put b off (buf.take (dbucketBufSize - off))).Owned b :=
          ⟨hb.1, put_inUse.trans hb.2⟩
        have hnext : (d.put b off (buf.take (dbucketBufSize - off))).next b = d.next b := put_next
        generalize d.put b off (buf.take (dbucketBufSize - off)) = d₁ at hput hb₁ hnext ⊢
        by_cases hend : (d.bucket b).nextIx = noIx
        · rw [if_pos hend, ends_bind, ends_bind]
          rcases bucketIxAllocAllRandom_cases hput.wf.toLinksOk (env.rand fuel) with
            ⟨ix, hix, hfree, halloc⟩ | ⟨hover, halloc⟩
          · have hgrow := hput.trans (.grow hput.wf hb₁ hix hfree)
            have hown : (d₁.grow b ix).Owned ix := ⟨hix, by rw [grow_inUse, if_pos rfl]⟩
            rw [show defaultBuild.getFreeDbucketIx (env.rand fuel) d₁ = _ from halloc, ends_ok,
              ends_bind, ends_modify, ends_pure, ends_bind]
            refine (ih (buf.drop (dbucketBufSize - off)) hgrow.wf hown (Nat.zero_le _)).mono ?_ ?_
            · exact fun r d' hrest => hgrow.trans hrest
            · exact fun e d' hrest u hu => hgrow.trans (hrest u hu)
          · rw [show defaultBuild.getFreeDbucketIx (env.rand fuel) d₁ = _ from halloc, ends_error]
            exact fun u _ => hput
        · have hown : d₁.Owned (d.bucket b).nextIx := by
            have htarget := hput.wf.target b
            rw [hnext] at htarget
            exact htarget.resolve_left hend
          rw [if_neg hend, run_pure_bind, ends_bind]
          refine (ih (buf.drop (dbucketBufSize - off)) hput.wf hown (Nat.zero_le _)).mono ?_ ?_
          · exact fun r d' hrest => hput.trans hrest
          · exact fun e d' hrest u hu => hput.trans (hrest u hu)

/-! The calls that move no cursor. -/

/-- What `close`, `pread` and `pwrite` leave, whatever their descriptor refers to: the
buckets in use with their cursors, and no bucket with fewer bytes. -/
structure CursorsKept (w w' : World) : Prop where
  fills : Fills w.data w'.data
  used : ∀ a, (w'.table.mb a).inUse = (w.table.mb a).inUse
  last : ∀ a, (w'.table.mb a).lastDbucket = (w.table.mb a).lastDbucket
  off : ∀ a, (w'.table.mb a).lastDbOffset = (w.table.mb a).lastDbOffset

theorem CursorsKept.edited {g : FileCore → FileCore} (hdata : Fills w.data w'.data)
    (he : Edited w.table w'.table m g) (hg : Stays g) (hlast : ∀ c, (g c).last = c.last)
    (hoff : ∀ c, (g c).off = c.off) : CursorsKept w w' := by
  refine ⟨hdata, he.inUse hg, fun a => ?_, fun a => ?_⟩
  · by_cases ha : a = m
    · subst ha
      exact (congrArg FileCore.last he.self).trans (hlast _)
    · exact he.last_of_ne ha
  · by_cases ha : a = m
    · subst ha
      exact (congrArg FileCore.off he.self).trans (hoff _)
    · exact he.off_of_ne ha

theorem CursorsKept.same (hd : DataWf w.data) (htab : w'.table = w.table)
    (hdata : w'.data = w.data) : CursorsKept w w' := by
  refine ⟨?_, fun a => ?_, fun a => ?_, fun a => ?_⟩
  · rw [hdata]
    exact .refl hd
  · rw [htab]
  · rw [htab]
  · rw [htab]

/-- The cursors of the files stay within the bytes of their buckets. -/
theorem CursorsKept.storeWf (hk : CursorsKept w w') (wf : StoreWf (w.store rows ch))
    (wf' : LinkWf (w'.store rows' ch')) : StoreWf (w'.store rows' ch') := by
  refine ⟨wf', hk.fills.wf.bytes_le, hk.fills.wf.empty, fun a huse hne => ?_⟩
  have huse' : (w.table.mb a).inUse = true := (hk.used a).symm.trans huse
  have hlast := hk.last a
  obtain ⟨hpos, hle⟩ := wf.inBucket a huse' (hlast ▸ hne)
  rw [show ((w'.store rows' ch').table.mb a).lastDbOffset = _ from hk.off a,
    show ((w'.store rows' ch').table.mb a).lastDbucket = _ from hlast]
  exact ⟨hpos, hle.trans (Int.ofNat_le.mpr (hk.fills.bytes _))⟩

/-- The table and the data area. -/
def shared (w : World) : MetaShm × DataShm := (w.table, w.data)

theorem setFddes_shared (fd : Int) (f : FdInfo → FdInfo) : Frames shared (setFddes fd f) :=
  .ite (.modify (fun _ => rfl)) (Keeps.throw _).frames

theorem locate_shared (bld : Build) (fd : Int) (f : FdInfo) (first : Nat) (offset : Int) :
    Frames shared (locate bld fd f first offset) := by
  refine .ite (Keeps.pure _).frames ?_
  refine (walkLoop_keeps.zoom (fun _ => rfl)).frames.bind (fun r => ?_)
  cases r with
  | none => exact (Keeps.pure _).frames
  | some ix =>
      exact .ite ((setFddes_shared _ _).bind (fun _ => (Keeps.pure _).frames))
        (Keeps.pure _).frames

theorem sysPread_shared (bld : Build) (fd : Int) (count : UInt64) (offset : Int) :
    Frames shared (sysPread bld env fd count offset) := by
  refine (Keeps.get.bind (fun _ => .ite (.pure _) (.throw _))).frames.bind (fun f => ?_)
  refine .ite (Keeps.pure _).frames (.ite (Keeps.pure _).frames (Keeps.get.frames.bind (fun w => ?_)))
  refine (locate_shared _ fd _ _ _).bind (fun r => ?_)
  cases r with
  | none => exact (Keeps.pure _).frames
  | some ix =>
      refine (preadLoop_keeps.zoom (fun _ => rfl)).frames.bind (fun r => .ite ?_ ?_)
      · exact (setFddes_shared fd _).bind (fun _ => (Keeps.pure _).frames)
      · exact (Keeps.pure _).frames

/-- How a call ends that moves no cursor when it returns or exits. -/
def CursorEnds (w : World) (r : EStateM.Result Halt World Ret) : Prop :=
  Ends r (fun _ w' => CursorsKept w w') (fun e w' => ∀ u, e = .exit u → CursorsKept w w')

theorem sysPread_cursors (hd : DataWf w.data) (fd : Int) (count : UInt64) (offset : Int) :
    CursorEnds w (sysPread defaultBuild env fd count offset w) := by
  refine (sysPread_shared defaultBuild fd count offset w).mono ?_ ?_
  · exact fun r w' hsame => .same hd (congrArg Prod.fst hsame) (congrArg Prod.snd hsame)
  · exact fun e w' hsame u _ => .same hd (congrArg Prod.fst hsame) (congrArg Prod.snd hsame)

theorem sysClose_cursors (hd : DataWf w.data) (fd : Int) :
    CursorEnds w (sysClose env fd w) := by
  refine (sysClose_ends env fd w).mono ?_ ?_
  · rintro r w' ⟨_, _, hclose⟩
    cases hclose with
    | kernel => exact .same hd rfl rfl
    | refused => exact .same hd rfl rfl
    | unopened => exact .same hd rfl rfl
    | @store m =>
        exact .edited (.refl hd) (edited_closeStamps _ m (w.fdTable fd.toNat)) .id
          (fun _ => rfl) (fun _ => rfl)
  · rintro e w' ⟨rfl, _, _⟩ u h
    cases h

theorem sysPwrite_cursors (wf : StoreWf (w.store rows ch)) (hcache : CachesOwned w.data w.fdTable)
    (fd : Int) (buf : List Byte) (hoff : 0 ≤ offset) :
    CursorEnds w (sysPwrite defaultBuild env fd buf offset w) := by
  have hd : DataWf w.data := wf.data
  rcases fdCall_cases (w := w) (x := sysPwrite defaultBuild env fd buf offset) rfl with
    ⟨m, hu, hrun⟩ | ⟨_, hrun | ⟨r, hrun⟩⟩
  · rw [hrun]
    dsimp only
    rw [CursorEnds, run_get_bind, hu.mindex, ends_bind]
    refine (locate_links wf.toLinkWf hcache hu offset).mono ?_ ?_
    · rintro r w₁ ⟨htab, hdata, _, _, hfound⟩
      cases r with
      | none => exact .same hd htab hdata
      | some ix =>
          dsimp only
          have hloop : Ends (writeLoop defaultBuild env true (writeFuel buf) ix
              (toSize (offset.tmod dbucketBufSize)) buf w₁.data)
              (fun _ d' => Fills w.data d') (fun e d' => ∀ u, e = .exit u → Fills w.data d') := by
            rw [hdata, toSize_tmod hoff]
            rcases hfound ix rfl with rfl | ⟨_, hown⟩
            · rw [writeFuel, writeLoop, run_ite, if_pos ⟨rfl, rfl⟩]
              exact .refl hd
            · exact writeLoop_fills true buf hd (hown (by omega)) (Nat.le_of_lt (within_lt offset))
          rw [ends_bind, onData, ends_zoom]
          refine hloop.mono ?_ ?_
          · intro r d' hfills
            rw [run_ite]
            split
            · rw [setFddes_eq hu.pos hu.lt, mbModify, run_setMb, run_setMb]
              dsimp only [World.setFd]
              rw [setMb_setMb, htab]
              exact .edited (m := m) hfills (Edited.setMb (F := fun b =>
                  { b with consisent := false, s := growStat b.s r.sizeInd })
                (f := fun c => { c with size := growSize c.size r.sizeInd })
                (by simp [MetaBucket.core, growStat_size]))
                ⟨fun _ => rfl, fun _ => rfl, fun _ => rfl⟩ (fun _ => rfl) (fun _ => rfl)
            · rw [run_setMb, htab]
              exact .edited (m := m) hfills (Edited.setMb (F := fun b =>
                  { b with s := growStat b.s r.sizeInd })
                (f := fun c => { c with size := growSize c.size r.sizeInd })
                (by simp [MetaBucket.core, growStat_size]))
                ⟨fun _ => rfl, fun _ => rfl, fun _ => rfl⟩ (fun _ => rfl) (fun _ => rfl)
          · intro e d' hfills u hu
            exact ⟨hfills u hu, fun a => by rw [htab], fun a => by rw [htab], fun a => by rw [htab]⟩
    · rintro e w₁ ⟨htab, hdata⟩ u _
      exact .same hd htab hdata
  · rw [hrun]
    exact fun u h => by cases h
  · rw [hrun]
    exact .same hd rfl rfl

theorem positioned_cursors {call : Call} (wf : StoreWf (w.store rows ch))
    (hcache : CachesOwned w.data w.fdTable) (hok : CallOk call) (hpos : Positioned call) :
    CursorEnds w (callOp defaultBuild env call w) := by
  have hd : DataWf w.data := wf.data
  cases call with
  | close fd => exact sysClose_cursors hd fd
  | pread fd count offset => exact sysPread_cursors hd fd count offset
  | pwrite fd buf offset => exact sysPwrite_cursors wf hcache fd buf hok
  | «open» _ _ _ => exact hpos.elim
  | read _ _ => exact hpos.elim
  | write _ _ => exact hpos.elim
  | unlink _ => exact hpos.elim
  | rename _ _ => exact hpos.elim
  | xstat _ => exact hpos.elim
  | fxstat _ => exact hpos.elim
  | upload _ => exact hpos.elim

/-! Runs. -/

/-- The calls that return or end their process, without the arguments that leave a
cursor or a copy outside its bucket. -/
def RemovesAny (_ : Sys) (e : Event) (out : Out) : Prop := ReturnsOrExits out ∧ CallOk e.call

/-- The invariant of these runs. -/
structure RemovalInv (s : Sys) : Prop where
  links : LinkInv s
  store : ∃ rows ch, StoreWf (s.store rows ch)
  unmarked : ∀ pid i, firstUserFd ≤ i → (s.fds pid i).empty = true →
    (s.fds pid i).exclusive = false

/-- A call has an effect on the files, or it moves no cursor. -/
theorem RemovalInv.step_cases (hinv : RemovalInv s) (hok : RemovesAny s e out)
    (hexec : exec defaultBuild s e = (out, s')) :
    (¬ Positioned e.call ∧ ∃ rows ch done rows' ch', StoreWf (s.store rows ch) ∧
      SysStep s e out rows ch done s' rows' ch') ∨
    (Positioned e.call ∧ CursorsKept (s.view e.pid) (s'.view e.pid)) := by
  obtain ⟨rows, ch, wf⟩ := hinv.store
  by_cases hpos : Positioned e.call
  · have hends := @positioned_cursors (s.view e.pid) rows ch e.env e.call wf
      (hinv.links.caches e.pid) hok.2 hpos
    refine Or.inr ⟨hpos, ?_⟩
    rcases exec_ends hends hexec with ⟨r, w', _, rfl, hk⟩ | ⟨h, w', rfl, rfl, hk⟩
    · exact ⟨hk.fills, hk.used, hk.last, hk.off⟩
    · cases h with
      | exit u =>
          have hk := hk u rfl
          exact ⟨hk.fills, hk.used, hk.last, hk.off⟩
      | hang => exact hok.1.elim
      | undefined => exact hok.1.elim
  · obtain ⟨done, rows', ch', hstep⟩ := step_of_effect
      (callOp_effect_of_wf e.env (w := s.view e.pid) wf hok.2 hpos) hexec hok.1
    exact Or.inl ⟨hpos, rows, ch, done, rows', ch', wf, hstep⟩

theorem SlotStep.unmarked {f f' : FdInfo} (hs : SlotStep w f f')
    (hf : f.empty = true → f.exclusive = false) : f'.empty = true → f'.exclusive = false := by
  cases hs with
  | same => exact hf
  | call hused hcall =>
      intro hempty
      rw [hcall.exclusive]
      exact hf (hcall.empty.symm.trans hempty)
  | opens m hfree => exact fun hempty => by cases hempty
  | forwards => exact fun hempty => by cases hempty
  | closes => exact fun _ => rfl

theorem RemovalInv.step (hinv : RemovalInv s) (hok : RemovesAny s e out)
    (hexec : exec defaultBuild s e = (out, s')) : RemovalInv s' := by
  obtain ⟨_, hfds, hlinks⟩ := hinv.links.step hexec hok.1
  refine ⟨hlinks, ?_, fun pid i hi => ?_⟩
  · rcases hinv.step_cases hok hexec with ⟨_, _, _, _, rows', ch', wf, hstep⟩ | ⟨_, hk⟩
    · exact ⟨rows', ch', hstep.effect.storeWf wf⟩
    · obtain ⟨rows, ch, wf⟩ := hinv.store
      obtain ⟨rows', ch', wf'⟩ := hlinks.links
      have wf'' : LinkWf ((s'.view e.pid).store rows' ch') := wf'
      exact ⟨rows', ch', hk.storeWf wf wf''⟩
  · by_cases hpid : pid = e.pid
    · subst hpid
      rcases hfds.self with hself | hinit
      · exact (hself i).unmarked (hinv.unmarked e.pid i hi)
      · rw [hinit]
        intro _
        simpa [initFdTable, initFd] using hi
    · rw [hfds.other pid hpid]
      exact hinv.unmarked pid i hi

theorem initSys_removalInv : RemovalInv initSys := by
  refine ⟨initSys_linkInv, ⟨_, _, initSys_wf.store⟩, fun pid i hi _ => ?_⟩
  exact (initSys_wf.slots pid i).kernel hi ‹_›

end Spacefish
