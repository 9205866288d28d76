import Spacefish.LinkGrowth
import Spacefish.TableCalls

/-!
What a call on a descriptor does to the links of the store and to the caches of
the descriptors, whatever its arguments and whatever the descriptor refers to.
-/

namespace Spacefish

open LinkedArray Program

/-- The links of the store that a process sees are well formed. -/
def LinkOk (w : World) : Prop := ∃ rows ch, LinkWf (w.store rows ch)

/-- Bucket `c` is on the chain of the file `a`. -/
def World.OnFile (w : World) (a : Int) (c : Nat) : Prop :=
  (w.table.mb a).inUse = true ∧ (w.table.mb a).firstDbucket ≠ noIx ∧
    w.data.Reach (w.table.mb a).firstDbucket c

/-- The file `a` of `w` is in use in `w'`, with its first bucket if it had one. -/
def StillFile (w w' : World) (a : Int) : Prop :=
  (w'.table.mb a).inUse = true ∧ ((w.table.mb a).firstDbucket ≠ noIx →
    (w'.table.mb a).firstDbucket = (w.table.mb a).firstDbucket)

/-- What a call leaves of the links. The files outside `gone` stay in use and keep
their first bucket; a bucket in use is on the chain of a file or behind a bucket
that was in use before. -/
structure Relinks (gone : Int → Prop) (w w' : World) : Prop where
  ok : LinkOk w'
  grows : DataGrows w.data w'.data
  kept : ∀ a, (w.table.mb a).inUse = true → ¬ gone a → StillFile w w' a
  covers : ∀ c, w'.data.Owned c →
    (∃ a, w'.OnFile a c) ∨ ∃ b, w.data.Owned b ∧ w'.data.Reach b c

/-- What a call through a descriptor makes of its entry: the cache may hold the
bucket that the walk to an offset led to. -/
structure SlotCall (w : World) (f f' : FdInfo) : Prop where
  empty : f'.empty = f.empty
  exclusive : f'.exclusive = f.exclusive
  mindex : f'.mindex = f.mindex
  cache : (f'.offDbMapping = f.offDbMapping ∧ f'.offDbPtr = f.offDbPtr) ∨
    ∃ offset ix, walkLoop (hops offset) (w.table.mb f.mindex).firstDbucket w.data =
        .ok (some ix) w.data ∧
      f'.offDbMapping = (cacheFill offset ix f).offDbMapping ∧
      f'.offDbPtr = (cacheFill offset ix f).offDbPtr

/-- What any call makes of an entry of the descriptor table. -/
inductive SlotStep (w : World) (f : FdInfo) : FdInfo → Prop where
  | same : SlotStep w f f
  | call {f' : FdInfo} (hused : f.empty = false) (hcall : SlotCall w f f') : SlotStep w f f'
  | opens (m : Nat) (hfree : f.empty = true) :
      SlotStep w f { f with empty := false, mindex := m }
  | forwards : SlotStep w f { f with empty := false, exclusive := true }
  | closes : SlotStep w f (resetFd f)

/-- What a call that returns leaves. -/
structure LinkRet (gone : Int → Prop) (w w' : World) : Prop extends Relinks gone w w' where
  slots : ∀ i, SlotStep w (w.fdTable i) (w'.fdTable i)

/-- The buckets in the caches of a process are in use; an entry that was emptied
keeps some bucket of the store. -/
def CachesOwned (d : DataShm) (fds : Nat → FdInfo) : Prop :=
  ∀ i, ∀ j < offsetProcessCacheSize, ((fds i).offDbMapping j).dbindex = noIx ∨
    ((fds i).offDbMapping j).dbindex < totBuckets ∧
      (((fds i).offDbMapping j).offset ≠ -1 → d.Owned ((fds i).offDbMapping j).dbindex)

/-- How a call ends that keeps the links in order when it returns or exits. -/
def LinkEnds (gone : Int → Prop) (w : World) (r : EStateM.Result Halt World Ret) : Prop :=
  Ends r (fun _ w' => LinkRet gone w w') (fun e w' => ∀ u, e = .exit u → Relinks gone w w')

/-- No file is removed. -/
abbrev noFile : Int → Prop := fun _ => False

variable {w w₁ w' : World} {gone : Int → Prop} {rows : Nat → List Int} {ch : Int → List Nat}
  {s : Store} {env : Env} {fd offset m : Int} {f f' : FdInfo} {d' : DataShm} {type : Nat}

/-! Links. -/

/-- A change of the table alone. -/
theorem Relinks.retable (hok : LinkOk w') (hdata : w'.data = w.data)
    (hkept : ∀ a, (w.table.mb a).inUse = true → ¬ gone a → StillFile w w' a) :
    Relinks gone w w' :=
  ⟨hok, hdata ▸ .refl _, hkept, fun c hc => Or.inr ⟨c, hdata ▸ hc, .refl⟩⟩

theorem Relinks.refl (hok : LinkOk w) : Relinks gone w w :=
  .retable hok rfl (fun _ ha _ => ⟨ha, fun _ => rfl⟩)

/-- The descriptor table does not matter. -/
theorem Relinks.congr (h : Relinks gone w w₁) (htab : w'.table = w₁.table)
    (hdata : w'.data = w₁.data) : Relinks gone w w' := by
  obtain ⟨⟨rows, ch, wf⟩, hgrows, hkept, hcovers⟩ := h
  refine ⟨⟨rows, ch, ?_⟩, hdata ▸ hgrows, ?_, ?_⟩
  · rw [World.store, htab, hdata]
    exact wf
  · simp only [StillFile, htab]
    exact hkept
  · simp only [World.OnFile, htab, hdata]
    exact hcovers

theorem Relinks.trans (h₁ : Relinks gone w w₁) (h₂ : Relinks noFile w₁ w') : Relinks gone w w' := by
  refine ⟨h₂.ok, h₁.grows.trans h₂.grows, fun a ha hno => ?_, fun c hc => ?_⟩
  · obtain ⟨huse, hfirst⟩ := h₁.kept a ha hno
    obtain ⟨huse', hfirst'⟩ := h₂.kept a huse id
    refine ⟨huse', fun hne => ?_⟩
    rw [hfirst' (by rw [hfirst hne]; exact hne), hfirst hne]
  · rcases h₂.covers c hc with hleft | ⟨b, hb, hr⟩
    · exact Or.inl hleft
    · rcases h₁.covers b hb with ⟨a, ha, hne, hra⟩ | ⟨b₀, hb₀, hr₀⟩
      · obtain ⟨huse', hfirst'⟩ := h₂.kept a ha id
        refine Or.inl ⟨a, huse', ?_⟩
        rw [hfirst' hne]
        exact ⟨hne, (hra.mono h₂.grows).trans hr⟩
      · exact Or.inr ⟨b₀, hb₀, (hr₀.mono h₂.grows).trans hr⟩

/-- The loops of `write` and `pwrite`. -/
theorem Grown.relinks (hg : Grown (w.store rows ch) d') :
    Relinks noFile w { w with data := d' } := by
  obtain ⟨ch', wf'⟩ := hg.wf
  exact ⟨⟨rows, ch', wf'⟩, hg.grows, fun _ ha _ => ⟨ha, fun _ => rfl⟩, fun c hc => Or.inr (hg.new c hc)⟩

/-- An edit of a bucket, in use or not, that keeps its first data bucket and its
cursor. -/
theorem LinkWf.restamp {t' : MetaShm} {g : FileCore → FileCore} (wf : LinkWf s)
    (he : Edited s.table t' m g) (hg : Stays g) (hfirst : ∀ c, (g c).first = c.first)
    (hlast : ∀ c, (g c).last = c.last) : LinkWf { s with table := t' } := by
  have hin := he.inUse hg
  have hall : ∀ a, (t'.mb a).lastDbucket = (s.table.mb a).lastDbucket := by
    intro a
    by_cases ha : a = m
    · subst ha
      exact he.last.trans (hlast _)
    · exact he.last_of_ne ha
  refine wf.retable (he.tableWf_of hg wf.table (fun _ => hfirst _)) ?_ ?_
  · exact fun a ha => ⟨(hin a).symm.trans ha, he.first (hfirst _) a, hall a⟩
  · exact fun a ha => (hall a).trans (wf.unused a ((hin a).symm.trans ha))

theorem Relinks.restamp {t' : MetaShm} {g : FileCore → FileCore} (hok : LinkOk w)
    (he : Edited w.table t' m g) (hg : Stays g) (hfirst : ∀ c, (g c).first = c.first)
    (hlast : ∀ c, (g c).last = c.last) : Relinks noFile w { w with table := t' } := by
  obtain ⟨rows, ch, wf⟩ := hok
  refine .retable ⟨rows, ch, wf.restamp he hg hfirst hlast⟩ rfl (fun a ha _ => ?_)
  exact ⟨(he.inUse hg a).trans ha, fun _ => he.first (hfirst _) a⟩

/-- The cursor of a file moves along its chain. -/
theorem Relinks.seek {t' : MetaShm} {g : FileCore → FileCore} {b b' : Nat}
    (wf : LinkWf (w.store rows ch)) (huse : (w.table.mb m).inUse = true) (hb : b ∈ ch m)
    (hr : w.data.Reach b b') (he : Edited w.table t' m g) (hg : Stays g)
    (hfirst : ∀ c, (g c).first = c.first)
    (hlast : ∀ c, (g c).last = c.last ∨ (g c).last = b') :
    Relinks noFile w { w with table := t' } := by
  have hmem : b' ∈ ch m := Linked.mem_of_reach (wf.linked m huse) hb hr
  refine .retable ⟨rows, ch, wf.edit huse he hg (hfirst _) ?_⟩ rfl (fun a ha _ => ?_)
  · rcases hlast (w.table.mb m).core with hsame | hmoved
    · rw [show (g ((w.store rows ch).table.mb m).core).last = (w.table.mb m).lastDbucket from hsame]
      exact wf.onChain m huse
    · exact Or.inr (hmoved ▸ hmem)
  · exact ⟨(he.inUse hg a).trans ha, fun _ => he.first (hfirst _) a⟩

/-! Entries of the descriptor table. -/

theorem SlotCall.refl (w : World) (f : FdInfo) : SlotCall w f f :=
  ⟨rfl, rfl, rfl, Or.inl ⟨rfl, rfl⟩⟩

theorem SlotCall.stamp (hf : SlotCall w f f') : SlotCall w f (deferStamp env type f') :=
  ⟨hf.empty, hf.exclusive, hf.mindex, hf.cache⟩

/-- Only the entry of `fd` changes, as a call through it changes it. -/
theorem slots_of_call {k : Nat} (hu : UserFd w fd k)
    (hself : SlotCall w (w.fdTable fd.toNat) (w'.fdTable fd.toNat))
    (hother : ∀ i ≠ fd.toNat, w'.fdTable i = w.fdTable i) :
    ∀ i, SlotStep w (w.fdTable i) (w'.fdTable i) := by
  intro i
  by_cases hi : i = fd.toNat
  · subst hi
    exact .call hu.nonempty hself
  · rw [hother i hi]
    exact .same

theorem LinkRet.same (hok : LinkOk w) : LinkRet gone w w := ⟨.refl hok, fun _ => .same⟩

/-- The calls on a descriptor change nothing unless it is one of the store. -/
theorem fdCall_links {x : Op World Ret} {r₁ r₂ : Ret} {k : FdInfo → Op World Ret}
    (hx : x = fddes fd >>= fun f =>
      if f.exclusive then pure r₁ else if f.empty then pure r₂ else k f)
    (hok : LinkOk w)
    (hk : ∀ m, UserFd w fd m → LinkEnds noFile w (k (w.fdTable fd.toNat) w)) :
    LinkEnds noFile w (x w) := by
  rcases fdCall_cases (w := w) hx with ⟨m, hu, hrun⟩ | ⟨_, hrun | ⟨r, hrun⟩⟩
  · rw [hrun]
    exact hk m hu
  · rw [hrun]
    exact fun u h => by cases h
  · rw [hrun]
    exact .same hok

theorem sysRead_links (hok : LinkOk w) (fd : Int) (count : UInt64) :
    LinkEnds noFile w (sysRead env fd count w) := by
  refine fdCall_links rfl hok (fun m hu => ?_)
  obtain ⟨rows, ch, wf⟩ := id hok
  have hsteps : w.data.dbucketSteps ≤ totalStepsAllowed := wf.links.steps_le
  dsimp only
  rw [LinkEnds, run_get_bind, hu.mindex, ends_bind, onData, ends_zoom]
  by_cases hcur : (w.table.mb m).lastDbucket = noIx
  · rw [hcur, readLoop_noIx hsteps]
    exact fun u _ => .refl hok
  · obtain ⟨huse, hmem⟩ := wf.cursor hcur
    refine (readLoop_reach _ _ _ _ _ _).mono ?_ ?_
    · rintro r d' ⟨rfl, hr⟩
      rw [run_ite]
      split
      · rw [run_setMb, setFddes_eq hu.pos hu.lt]
        have he : Edited w.table (w.table.setMb m (fun b =>
            { b with lastDbucket := r.dbindex, lastDbOffset := toInt r.off })) m
            (fun c => { c with last := r.dbindex, off := toInt r.off }) := Edited.setMb rfl
        have hrel := Relinks.seek wf huse hmem hr he ⟨fun _ => rfl, fun _ => rfl, fun _ => rfl⟩
          (fun _ => rfl) (fun _ => Or.inr rfl)
        refine ⟨hrel.congr rfl rfl, slots_of_call hu ?_ ?_⟩
        · simpa [World.setFd] using SlotCall.stamp (.refl w (w.fdTable fd.toNat))
        · intro i hi
          simp [World.setFd, hi]
      · exact .same hok
    · rintro e d' rfl u _
      exact .refl hok

theorem toSize_lt (a : Int) : toSize a < 2 ^ 64 := by
  unfold toSize
  omega

theorem sysWrite_links (hok : LinkOk w) (fd : Int) (buf : List Byte) :
    LinkEnds noFile w (sysWrite defaultBuild env fd buf w) := by
  refine fdCall_links rfl hok (fun m hu => ?_)
  obtain ⟨rows, ch, wf⟩ := id hok
  have hsteps : w.data.dbucketSteps ≤ totalStepsAllowed := wf.links.steps_le
  dsimp only
  rw [LinkEnds, run_get_bind, hu.mindex, ends_bind, onData, ends_zoom]
  by_cases hcur : (w.table.mb m).lastDbucket = noIx
  · rw [hcur, writeLoop_noIx hsteps]
    exact fun u _ => .refl hok
  · obtain ⟨huse, hmem⟩ := wf.cursor hcur
    have hown : w.data.Owned (w.table.mb m).lastDbucket := wf.owned m huse _ hmem
    refine (writeLoop_grown false buf wf hown.1 (fun _ => hown) (toSize_lt _)).mono ?_ ?_
    · rintro r d' ⟨hgrown, hr⟩
      have hrel := hgrown.relinks
      obtain ⟨rows', ch', wf'⟩ := hrel.ok
      obtain ⟨huse', hmem'⟩ := wf'.cursor hcur
      rw [run_ite]
      split
      · rw [run_setMb, setFddes_eq hu.pos hu.lt, mbModify, run_setMb, run_setMb]
        dsimp only [World.setFd]
        rw [setMb_setMb, setMb_setMb]
        have hseek := hrel.trans (Relinks.seek wf' huse' hmem' hr (Edited.setMb (F := fun b =>
            { b with lastDbucket := r.dbindex, lastDbOffset := toInt r.off, consisent := false,
                     s := growStat b.s r.sizeInd })
            (f := fun c => { c with last := r.dbindex, off := toInt r.off,
                                    size := growSize c.size r.sizeInd })
            (by simp [MetaBucket.core, growStat_size]))
          ⟨fun _ => rfl, fun _ => rfl, fun _ => rfl⟩ (fun _ => rfl) (fun _ => Or.inr rfl))
        refine ⟨hseek.congr rfl rfl, slots_of_call hu ?_ ?_⟩
        · simpa using SlotCall.stamp (.refl w (w.fdTable fd.toNat))
        · intro i hi
          simp [hi]
      · rw [run_setMb]
        have hstamp := hrel.trans (Relinks.restamp hrel.ok (Edited.setMb (m := m)
            (F := fun b => { b with s := growStat b.s r.sizeInd })
            (f := fun c => { c with size := growSize c.size r.sizeInd })
            (by simp [MetaBucket.core, growStat_size]))
          ⟨fun _ => rfl, fun _ => rfl, fun _ => rfl⟩ (fun _ => rfl) (fun _ => rfl))
        exact ⟨hstamp.congr rfl rfl, fun _ => .same⟩
    · intro e d' he u hu
      exact (he u hu).relinks

theorem sysClose_links (hok : LinkOk w) (fd : Int) : LinkEnds noFile w (sysClose env fd w) := by
  have hslots : ∀ i, SlotStep w (w.fdTable i)
      (Function.update w.fdTable fd.toNat (resetFd (w.fdTable fd.toNat)) i) := by
    intro i
    by_cases hi : i = fd.toNat
    · subst hi
      rw [Function.update_self]
      exact .closes
    · rw [Function.update_of_ne hi]
      exact .same
  refine (sysClose_ends env fd w).mono ?_ ?_
  · rintro r w' ⟨_, _, hclose⟩
    cases hclose with
    | kernel => exact ⟨(Relinks.refl hok).congr rfl rfl, hslots⟩
    | refused => exact .same hok
    | unopened => exact .same hok
    | @store m =>
        have hstamp := Relinks.restamp hok (edited_closeStamps _ m (w.fdTable fd.toNat))
          ⟨fun _ => rfl, fun _ => rfl, fun _ => rfl⟩ (fun _ => rfl) (fun _ => rfl)
        exact ⟨hstamp.congr rfl rfl, hslots⟩
  · rintro e w' ⟨rfl, _, _⟩ u h
    cases h

/-! `pread` and `pwrite`. -/

theorem LinkWf.first_owned (wf : LinkWf (w.store rows ch)) (m : Int) :
    (w.table.mb m).firstDbucket = noIx ∨ w.data.Owned (w.table.mb m).firstDbucket := by
  cases huse : (w.table.mb m).inUse with
  | false => exact Or.inl (wf.table.free m huse).2
  | true =>
      have hl : Linked w.data.next noIx (w.table.mb m).firstDbucket (ch m) := wf.linked m huse
      have hown : ∀ c ∈ ch m, w.data.Owned c := wf.owned m huse
      cases hch : ch m with
      | nil =>
          rw [hch] at hl
          exact Or.inl hl
      | cons b l =>
          rw [hch] at hl
          rw [hl.1]
          exact Or.inr (hown b (by simp [hch]))

theorem walkLoop_owned {d : DataShm} (n : Nat) {i : Nat} (hd : LinksOk d)
    (hi : i = noIx ∨ d.Owned i) :
    Ends (walkLoop n i d) (fun r d' => d' = d ∧ ∀ ix, r = some ix → ix = noIx ∨ d.Owned ix)
      (fun _ d' => d' = d) := by
  induction n generalizing i with
  | zero => exact ⟨rfl, fun ix hix => Option.some.inj hix ▸ hi⟩
  | succ n ih =>
      rw [walkLoop, run_ite]
      split
      · exact ⟨rfl, fun ix h => by cases h⟩
      · next hne =>
        rw [bind_of_ok (getDbucketPtr_eq hd.steps (hi.resolve_left hne).1)]
        exact ih (hd.target i)

/-- What `locate` finds is in use, unless the entry for the offset -1, which marks
an empty one, was taken for a cached bucket. -/
theorem locate_links {k : Nat} (wf : LinkWf (w.store rows ch))
    (hcache : CachesOwned w.data w.fdTable) (hu : UserFd w fd k) (offset : Int) :
    Ends (locate defaultBuild fd (w.fdTable fd.toNat) (w.table.mb k).firstDbucket offset w)
      (fun r w' => w'.table = w.table ∧ w'.data = w.data ∧
        SlotCall w (w.fdTable fd.toNat) (w'.fdTable fd.toNat) ∧
        (∀ i ≠ fd.toNat, w'.fdTable i = w.fdTable i) ∧
        ∀ ix, r = some ix → ix = noIx ∨ ix < totBuckets ∧ (offset ≠ -1 → w.data.Owned ix))
      (fun _ w' => w'.table = w.table ∧ w'.data = w.data) := by
  unfold locate
  dsimp only
  rw [if_pos (show defaultBuild.offsetProcessCache = true from rfl), run_ite]
  split
  · next hhit =>
    rw [cacheLookup_eq] at hhit ⊢
    split at hhit
    · next heq =>
      refine ⟨rfl, rfl, .refl _ _, fun _ _ => rfl, ?_⟩
      rintro ix hix
      obtain rfl := Option.some.inj hix
      rw [if_pos heq]
      have h := hcache fd.toNat 0 (by decide)
      rwa [heq] at h
    · exact absurd rfl hhit
  · have hwalk := walkLoop_owned (hops offset) wf.links (wf.first_owned k)
    rw [ends_bind, onData, ends_zoom]
    change Ends (walkLoop (hops offset) (w.table.mb k).firstDbucket w.data) _ _
    cases hrun : walkLoop (hops offset) (w.table.mb k).firstDbucket w.data with
    | error e d' =>
        rw [show (w.store rows ch).data = w.data from rfl, hrun] at hwalk
        exact ⟨rfl, hwalk⟩
    | ok r d' =>
        rw [show (w.store rows ch).data = w.data from rfl, hrun] at hwalk
        obtain ⟨rfl, hown⟩ := hwalk
        cases r with
        | none => exact ⟨rfl, rfl, .refl _ _, fun _ _ => rfl, fun ix h => by cases h⟩
        | some ix =>
            rw [ends_ok]
            change Ends ((setFddes fd (cacheFill offset ix) >>= _) w) _ _
            rw [setFddes_eq hu.pos hu.lt]
            refine ⟨rfl, rfl, ?_, ?_, ?_⟩
            · have hself : (w.setFd fd.toNat (cacheFill offset ix)).fdTable fd.toNat =
                  cacheFill offset ix (w.fdTable fd.toNat) := by simp [World.setFd]
              rw [hself]
              refine ⟨rfl, rfl, rfl, Or.inr ⟨offset, ix, ?_, rfl, rfl⟩⟩
              rw [hu.mindex]
              exact hrun
            · intro i hi
              simp [World.setFd, hi]
            · intro ix' hix
              obtain rfl := Option.some.inj hix
              exact (hown _ rfl).imp id (fun h => ⟨h.1, fun _ => h⟩)

theorem sysPread_links (hok : LinkOk w) (hcache : CachesOwned w.data w.fdTable) (fd : Int)
    (count : UInt64) (offset : Int) :
    LinkEnds noFile w (sysPread defaultBuild env fd count offset w) := by
  refine fdCall_links rfl hok (fun m hu => ?_)
  obtain ⟨rows, ch, wf⟩ := id hok
  dsimp only
  rw [LinkEnds, run_get_bind, hu.mindex, ends_bind]
  refine (locate_links wf hcache hu offset).mono ?_ ?_
  · rintro r w₁ ⟨htab, hdata, hself, hother, _⟩
    have hrel : Relinks noFile w w₁ := (Relinks.refl hok).congr htab hdata
    cases r with
    | none => exact ⟨hrel, slots_of_call hu hself hother⟩
    | some ix =>
        dsimp only
        rw [ends_bind]
        refine ((preadLoop_keeps.zoom (fun _ => rfl)) w₁).mono ?_ ?_
        · rintro data w₂ rfl
          rw [run_ite]
          split
          · rw [setFddes_eq hu.pos hu.lt]
            refine ⟨hrel.congr rfl rfl, slots_of_call hu ?_ ?_⟩
            · simpa [World.setFd] using hself.stamp
            · intro i hi
              rw [← hother i hi]
              simp [World.setFd, hi]
          · exact ⟨hrel, slots_of_call hu hself hother⟩
        · rintro e w₂ rfl u _
          exact hrel
  · rintro e w₁ ⟨htab, hdata⟩ u _
    exact (Relinks.refl hok).congr htab hdata

/-- Where the negative offset -1 leads is outside every bucket. -/
theorem toSize_tmod_minus_one : dbucketBufSize < toSize (Int.tmod (-1) dbucketBufSize) := by
  decide

theorem sysPwrite_links (hok : LinkOk w) (hcache : CachesOwned w.data w.fdTable) (fd : Int)
    (buf : List Byte) (offset : Int) :
    LinkEnds noFile w (sysPwrite defaultBuild env fd buf offset w) := by
  refine fdCall_links rfl hok (fun m hu => ?_)
  obtain ⟨rows, ch, wf⟩ := id hok
  dsimp only
  rw [LinkEnds, run_get_bind, hu.mindex, ends_bind]
  refine (locate_links wf hcache hu offset).mono ?_ ?_
  · rintro r w₁ ⟨htab, hdata, hself, hother, hfound⟩
    have hrel : Relinks noFile w w₁ := (Relinks.refl hok).congr htab hdata
    cases r with
    | none => exact ⟨hrel, slots_of_call hu hself hother⟩
    | some ix =>
        dsimp only
        have hloop : Ends (writeLoop defaultBuild env true (writeFuel buf) ix
            (toSize (offset.tmod dbucketBufSize)) buf w₁.data)
            (fun _ d' => Relinks noFile w { w₁ with data := d' })
            (fun e d' => ∀ u, e = .exit u → Relinks noFile w { w₁ with data := d' }) := by
          rw [hdata]
          rcases hfound ix rfl with rfl | ⟨hlt, hown⟩
          · rw [writeFuel, writeLoop, run_ite, if_pos ⟨rfl, rfl⟩]
            exact hrel.congr rfl hdata.symm
          · refine (writeLoop_grown true buf wf hlt (fun hin => hown ?_) (toSize_lt _)).mono ?_ ?_
            · rintro rfl
              exact absurd hin (Nat.not_le.mpr toSize_tmod_minus_one)
            · rintro r d' ⟨hgrown, _⟩
              exact hgrown.relinks.congr htab rfl
            · intro e d' he u hu
              exact (he u hu).relinks.congr htab rfl
        rw [ends_bind, onData, ends_zoom]
        refine hloop.mono ?_ (fun _ _ he => he)
        rintro r d' hrel'
        rw [run_ite]
        split
        · rw [setFddes_eq hu.pos hu.lt, mbModify, run_setMb, run_setMb]
          dsimp only [World.setFd]
          rw [setMb_setMb]
          have hstamp := hrel'.trans (Relinks.restamp hrel'.ok (Edited.setMb (m := m)
              (F := fun b => { b with consisent := false, s := growStat b.s r.sizeInd })
              (f := fun c => { c with size := growSize c.size r.sizeInd })
              (by simp [MetaBucket.core, growStat_size]))
            ⟨fun _ => rfl, fun _ => rfl, fun _ => rfl⟩ (fun _ => rfl) (fun _ => rfl))
          refine ⟨hstamp.congr rfl rfl, slots_of_call hu ?_ ?_⟩
          · simpa using hself.stamp
          · intro i hi
            rw [← hother i hi]
            simp [hi]
        · rw [run_setMb]
          have hstamp := hrel'.trans (Relinks.restamp hrel'.ok (Edited.setMb (m := m)
              (F := fun b => { b with s := growStat b.s r.sizeInd })
              (f := fun c => { c with size := growSize c.size r.sizeInd })
              (by simp [MetaBucket.core, growStat_size]))
            ⟨fun _ => rfl, fun _ => rfl, fun _ => rfl⟩ (fun _ => rfl) (fun _ => rfl))
          exact ⟨hstamp.congr rfl rfl, slots_of_call hu hself hother⟩
  · rintro e w₁ ⟨htab, hdata⟩ u _
    exact (Relinks.refl hok).congr htab hdata

end Spacefish
