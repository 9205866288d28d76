import Spacefish.LinkCalls
import Spacefish.TablePaths

/-!
What a call that names a file by its path does to the links of the store, and the
statement for all calls together.
-/

namespace Spacefish

open LinkedArray Program Buffer

variable {w w₁ w' : World} {gone : Int → Prop} {rows : Nat → List Int} {ch : Int → List Nat}
  {s : Store} {env : Env} {m : Int} {d d' : DataShm} {ix prev h : Nat} {p pathname : Path}
  {rest : List Byte} {new : List Nat} {done : Bool}

/-- How a part of a call ends that keeps the links in order; `Q` says what it
returns. -/
def PartEnds {α : Type} (w : World) (r : EStateM.Result Halt World α) (Q : α → World → Prop) :
    Prop :=
  Ends r (fun a w' => Relinks noFile w w' ∧ w'.fdTable = w.fdTable ∧ Q a w')
    (fun e w' => ∀ u, e = .exit u → Relinks noFile w w')

/-! Making files. -/

theorem Relinks.created {t₁ : MetaShm} (wf : LinkWf (w.store rows ch))
    (hc : Created w.table t₁ rows h m) : Relinks noFile w { w with table := t₁ } := by
  refine .retable ⟨_, _, wf.create hc⟩ rfl (fun a ha _ => ?_)
  have ham : a ≠ m := by
    rintro rfl
    rw [hc.fresh] at ha
    cases ha
  have hs := hc.same a ham
  exact ⟨hs.inUse.trans ha, fun _ => hs.firstDbucket⟩

/-- A file without data gets the bucket that the allocator has handed out. -/
theorem Relinks.adopt {t' : MetaShm} {f : FileCore → FileCore} (hok : LinkOk w)
    (huse : (w.table.mb m).inUse = true) (hnone : (w.table.mb m).firstDbucket = noIx)
    (hix : ix < totBuckets) (hfree : (w.data.bucket ix).inUse = false)
    (he : Edited w.table t' m f) (hf : Stays f) (hfirst : ∀ c, (f c).first = ix)
    (hlast : ∀ c, (f c).last = c.last) :
    Relinks noFile w { w with table := t', data := w.data.take ix } := by
  obtain ⟨rows, ch, wf⟩ := hok
  have hch : ch m = [] := by
    have hl : Linked w.data.next noIx (w.table.mb m).firstDbucket (ch m) := wf.linked m huse
    rw [hnone] at hl
    exact Linked.unique hl (show Linked w.data.next noIx noIx [] from rfl)
  have hcur : (w.table.mb m).lastDbucket = noIx := by
    refine (wf.onChain m huse).resolve_right (fun hmem => ?_)
    rw [show (w.store rows ch).ch m = [] from hch] at hmem
    cases hmem
  have hown : (w.data.take ix).Owned ix := ⟨hix, by rw [take_inUse, if_pos rfl]⟩
  have hend : (w.data.take ix).next ix = noIx := by
    rw [take_next]
    exact wf.links.fresh ix hfree
  have wf' := (wf.take hix).adopt huse hch hown hend
    (fun a ha hmem => wf.not_fresh ha hmem hfree) he hf (hfirst _)
    (Or.inl ((hlast _).trans hcur))
  have hself : (t'.mb m).firstDbucket = ix := (congrArg FileCore.first he.self).trans (hfirst _)
  refine ⟨⟨rows, _, wf'⟩, .take _ _, fun a ha _ => ?_, fun c hc => ?_⟩
  · refine ⟨(he.inUse hf a).trans ha, fun hne => ?_⟩
    have ham : a ≠ m := by
      rintro rfl
      exact hne hnone
    exact congrArg FileCore.first (he.other a ham)
  · by_cases hcix : c = ix
    · subst hcix
      refine Or.inl ⟨m, (he.inUse hf m).trans huse, ?_⟩
      dsimp only
      rw [hself]
      exact ⟨hown.ne_noIx, .refl⟩
    · refine Or.inr ⟨c, ⟨hc.1, ?_⟩, .refl⟩
      have h := hc.2
      rw [take_inUse, if_neg hcix] at h
      exact h

/-- The rounds of an upload link fresh buckets behind the one before. -/
theorem Laid.grown (hl : Laid d prev rest d' done new) (wf : LinkWf s) (hd : s.data = d)
    (hprev : s.data.Owned prev) (hend : s.data.next prev = noIx) : Grown s d' := by
  induction hl generalizing s with
  | done =>
      subst hd
      exact .sameLinks wf (.refl _)
  | full _ _ =>
      subst hd
      exact .sameLinks wf (.refl _)
  | @next d prev rest ix d' done new hne hix hfree hrest ih =>
      subst hd
      have hixne : ix ≠ prev := by
        rintro rfl
        rw [hprev.2] at hfree
        cases hfree
      have hfill : SameLinks (s.data.grow prev ix)
          ((s.data.grow prev ix).fill ix (rest.take dbucketBufSize)) :=
        .set _ _ (fun _ => ⟨rfl, rfl, rfl⟩)
      have wf₁ := (wf.grow hprev.2 hend hix hfree).sameData hfill
      have hown : ((s.data.grow prev ix).fill ix (rest.take dbucketBufSize)).Owned ix :=
        ⟨hix, by rw [fill_inUse, grow_inUse, if_pos rfl]⟩
      refine ((ih wf₁ rfl hown ?_).step hprev ((DataGrows.link hixne hend).trans hfill.grows)
        (fun c hc => ?_) ?_ hown.ne_noIx).1
      · dsimp only
        rw [fill_next, grow_next hixne, if_neg hixne]
        exact wf.links.fresh ix hfree
      · by_cases hcix : c = ix
        · exact Or.inr hcix
        · refine Or.inl ⟨hc.1, ?_⟩
          have h := hc.2
          rw [fill_inUse, grow_inUse, if_neg hcix] at h
          exact h
      · rw [fill_next, grow_next hixne, if_pos rfl]

/-- The data part of an upload to a file that has none. -/
theorem LaidFile.relinks {buf : List Byte} (hl : LaidFile w m buf done w') (hok : LinkOk w)
    (huse : (w.table.mb m).inUse = true) (hnone : (w.table.mb m).firstDbucket = noIx) :
    Relinks noFile w w' := by
  obtain ⟨ix, new, hix, hfree, hlaid, htab, hfds⟩ := hl
  have hadopt := Relinks.adopt hok huse hnone hix hfree
    (Edited.setMb (F := fun b => { b with firstDbucket := ix })
      (f := fun c => { c with first := ix }) rfl)
    ⟨fun _ => rfl, fun _ => rfl, fun _ => rfl⟩ (fun _ => rfl) (fun _ => rfl)
  obtain ⟨rows, ch, wf⟩ := id hok
  obtain ⟨rows', ch', wf'⟩ := hadopt.ok
  have hfill : SameLinks (w.data.take ix) ((w.data.take ix).fill ix (buf.take dbucketBufSize)) :=
    .set _ _ (fun _ => ⟨rfl, rfl, rfl⟩)
  have hgrown := hlaid.grown (wf'.sameData hfill) rfl
    ⟨hix, by rw [fill_inUse, take_inUse, if_pos rfl]⟩ (by
      dsimp only
      rw [fill_next, take_next]
      exact wf.links.fresh ix hfree)
  have hstep : Relinks noFile { w with
        table := w.table.setMb m (fun b => { b with firstDbucket := ix })
        data := w.data.take ix }
      { w with
        table := w.table.setMb m (fun b => { b with firstDbucket := ix })
        data := (w.data.take ix).fill ix (buf.take dbucketBufSize) } :=
    (Grown.sameLinks wf' hfill).relinks
  have hrest : Relinks noFile { w with
        table := w.table.setMb m (fun b => { b with firstDbucket := ix })
        data := (w.data.take ix).fill ix (buf.take dbucketBufSize) }
      { w with
        table := w.table.setMb m (fun b => { b with firstDbucket := ix })
        data := w'.data } := hgrown.relinks
  exact ((hadopt.trans hstep).trans hrest).congr htab rfl

theorem RowStop.not_exit_table {t t' : MetaShm} {e : Halt} (hs : RowStop t p e t') {u : UErr}
    (hu : e = .exit u) : t' = t := by
  rcases hs with ⟨rfl, _⟩ | ⟨_, rfl, _⟩
  · cases hu
  · rfl

/-- The bucket of a new file is free of data. -/
theorem Created.bare {t₁ : MetaShm} (wf : LinkWf (w.store rows ch))
    (hc : Created w.table t₁ rows h m) :
    (t₁.mb m).inUse = true ∧ (t₁.mb m).firstDbucket = noIx :=
  ⟨hc.new.inUse, hc.new.firstDbucket.trans (wf.table.free m hc.fresh).2⟩

theorem createNewFile_links (hok : LinkOk w) (p : Path) (mode : Nat) :
    PartEnds w (createNewFile defaultBuild env p mode w)
      (fun r w' => ∀ m, r = .ok m → (w'.table.mb m).inUse = true) := by
  obtain ⟨rows, ch, wf⟩ := id hok
  unfold createNewFile
  rw [PartEnds, ends_bind, onMeta, ends_zoom]
  refine (strictCreateMbucket_ends wf.table env.mrand p).mono ?_ ?_
  · rintro r t₁ ⟨h, hhash, ⟨rfl, rfl, hwhy⟩ | ⟨m, rfl, hnone, hc⟩⟩
    · exact ⟨.refl hok, rfl, fun m h => by cases h⟩
    · have hmade := Relinks.created wf hc
      obtain ⟨huse, hfirst⟩ := hc.bare wf
      change Ends ((onData (bucketIxAllocAllRandom (env.rand 0)) >>= _) { w with table := t₁ }) _ _
      rcases bucketIxAllocAllRandom_cases wf.links (env.rand 0) with
        ⟨ix, hix, hfree, halloc⟩ | ⟨hover, halloc⟩
      · rw [bind_of_ok (onData_of_ok (w := { w with table := t₁ }) halloc), run_setMb]
        by_cases hp : p.length < pathMax
        · rw [strcpyPath_eq hp, run_setMb, mbModify, run_setMb]
          dsimp only
          rw [setMb_setMb, setMb_setMb, setMb_setMb]
          refine ⟨(hmade.trans (Relinks.adopt hmade.ok huse hfirst hix hfree
            (Edited.setMb (f := filledCore p ix 0) ?_) (filledCore_stays _ _ _) (fun _ => rfl)
            (fun _ => rfl))).congr rfl rfl, rfl, fun a ha => ?_⟩
          · rfl
          · obtain rfl := Except.ok.inj ha
            dsimp only
            rw [setMb_mb_self]
            exact huse
        · rw [strcpyPath_undef hp]
          exact fun u h => by cases h
      · rw [bind_of_error (onData_of_error (w := { w with table := t₁ }) halloc)]
        exact fun u _ => hmade
  · intro e t' hs u hu
    rw [hs.not_exit_table hu]
    exact .refl hok

theorem uploadFile_links (hok : LinkOk w) (p : Path) :
    PartEnds w (uploadFile defaultBuild env p w)
      (fun r w' => ∀ m, r = .ok m → (w'.table.mb m).inUse = true) := by
  obtain ⟨rows, ch, wf⟩ := id hok
  have hsame : ∀ e : Errno, PartEnds w (.ok (.error e) w : EStateM.Result Halt World (Except Errno Int))
      (fun r w' => ∀ m, r = .ok m → (w'.table.mb m).inUse = true) :=
    fun e => ⟨.refl hok, rfl, fun m h => by cases h⟩
  unfold uploadFile
  cases hstat : env.realStat p with
  | error e => exact hsame e
  | ok st =>
      dsimp only
      rw [run_ite]
      by_cases hopen : env.realOpen p 0 < 0
      · rw [if_pos hopen]
        exact hsame _
      · rw [if_neg hopen, PartEnds, ends_bind, onMeta, ends_zoom]
        refine (strictCreateMbucket_ends wf.table env.mrand p).mono ?_ ?_
        · rintro r t₁ ⟨h, hhash, ⟨rfl, rfl, hwhy⟩ | ⟨m, rfl, hnone, hc⟩⟩
          · exact hsame _
          · have hmade := Relinks.created wf hc
            obtain ⟨huse, hfirst⟩ := hc.bare wf
            dsimp only
            rw [run_ite]
            by_cases hread : (env.realRead (env.realOpen p 0) st.stSize).1 ≠ st.stSize
            · rw [if_pos hread]
              exact ⟨hmade, rfl, fun m h => by cases h⟩
            · rw [if_neg hread]
              rw [not_not] at hread
              have hle := env.realRead_le (env.realOpen p 0) st.stSize
              have hlen := env.realRead_length (env.realOpen p 0) st.stSize
              rw [hread] at hle hlen
              rw [Int.toNat_natCast] at hlen
              have hbuf := hlen ▸ Int.ofNat_le.mp hle
              by_cases hp : p.length < pathMax
              · rw [strcpyPath_eq hp, run_setMb]
                dsimp only
                rw [setMb_setMb, ends_bind]
                have he : Edited t₁ (t₁.setMb m (fun b => { b with path := p, s := st })) m
                    (fun c => { c with path := p, size := st.stSize }) := Edited.setMb rfl
                have hnamed := hmade.trans (Relinks.restamp hmade.ok he
                  ⟨fun _ => rfl, fun _ => rfl, fun _ => rfl⟩ (fun _ => rfl) (fun _ => rfl))
                have huse₁ : ((t₁.setMb m (fun b => { b with path := p, s := st })).mb m).inUse =
                    true := by
                  rw [setMb_mb_self]
                  exact huse
                have hfirst₁ : ((t₁.setMb m (fun b =>
                    { b with path := p, s := st })).mb m).firstDbucket = noIx := by
                  rw [setMb_mb_self]
                  exact hfirst
                have hdata := uploadData_laid defaultBuild env m rfl
                  (w := { w with table := t₁.setMb m (fun b => { b with path := p, s := st }) })
                  wf.links hbuf
                rw [hlen] at hdata
                refine hdata.mono ?_ ?_
                · rintro _ w' hl
                  have hrel := hnamed.trans (hl.relinks hnamed.ok huse₁ hfirst₁)
                  obtain ⟨ix, new, _, _, _, htab, hfds⟩ := hl
                  refine ⟨hrel, hfds, fun a ha => ?_⟩
                  obtain rfl := Except.ok.inj ha
                  rw [htab, setMb_mb_self]
                  exact huse₁
                · rintro e w' ⟨rfl, ⟨_, rfl⟩ | hl⟩ u _
                  · exact hnamed
                  · exact hnamed.trans (hl.relinks hnamed.ok huse₁ hfirst₁)
              · rw [strcpyPath_undef hp]
                exact fun u h => by cases h
        · intro e t' hs u hu
          rw [hs.not_exit_table hu]
          exact .refl hok

/-! `open`. -/

/-- A file that `get_mbucket` finds is in use, and looking for it changes nothing. -/
theorem lookup_links {α : Type} {k : Option Int → Op World α} {Q : α → World → Prop}
    (hok : LinkOk w)
    (hk : ∀ r, (∀ m, r = some m → (w.table.mb m).inUse = true) → PartEnds w (k r w) Q) :
    PartEnds w ((onMeta (getMbucket p) >>= k) w) Q := by
  obtain ⟨rows, ch, wf⟩ := id hok
  have hwf : TableWf w.table rows := wf.table
  refine lookup_ends hwf ?_ (fun h hhash _ => hk _ (fun m hm => hwf.findPath_inUse hhash hm))
  intro e t' hs _ u hu
  rw [hs.not_exit_table hu]
  exact .refl hok

theorem openTrunc_links (hok : LinkOk w) (huse : (w.table.mb m).inUse = true) :
    PartEnds w ((do
        onData (truncChain defaultBuild (w.table.mb m).firstDbucket)
        setMb m (fun b =>
          { b with s := stamp env { b.s with stSize := 0, stBlocks := 1 } (stMod ||| stChg) })
        mbModify m
        return .ok m : Op World (Except Errno Int)) w)
      (fun r w' => ∀ m, r = .ok m → (w'.table.mb m).inUse = true) := by
  obtain ⟨rows, ch, wf⟩ := id hok
  have hsteps : w.data.dbucketSteps = totalStepsAllowed := wf.links.steps
  have hlinked : Linked w.data.next noIx (w.table.mb m).firstDbucket (ch m) := wf.linked m huse
  cases hch : ch m with
  | nil =>
      rw [hch] at hlinked
      have hfirst : (w.table.mb m).firstDbucket = noIx := hlinked
      rw [hfirst, PartEnds, bind_of_error (onData_of_error (truncChain_noIx wf.links.steps_le))]
      exact fun u _ => .refl hok
  | cons b l =>
      rw [hch] at hlinked
      obtain ⟨hb, hrest⟩ := hlinked
      have hrun : truncChain defaultBuild b w.data = .ok ⟨⟩ (w.data.clear (b :: l)) :=
        truncChain_eq rfl hsteps ⟨rfl, hrest⟩ (hch ▸ wf.owned m huse)
      rw [hb, PartEnds, bind_of_ok (onData_of_ok hrun), run_setMb, mbModify, run_setMb]
      dsimp only
      rw [setMb_setMb]
      have hclear : Relinks noFile w { w with data := w.data.clear (b :: l) } :=
        (Grown.sameLinks wf (.clear _ _)).relinks
      refine ⟨(hclear.trans (Relinks.restamp hclear.ok (Edited.setMb
          (f := fun c => { c with size := 0 }) ?_)
        ⟨fun _ => rfl, fun _ => rfl, fun _ => rfl⟩ (fun _ => rfl) (fun _ => rfl))).congr rfl rfl,
        rfl, fun a ha => ?_⟩
      · rfl
      · obtain rfl := Except.ok.inj ha
        dsimp only
        rw [setMb_mb_self]
        exact huse

theorem openResolve_links (hok : LinkOk w) (pathname p : Path) (flags mode : Nat) :
    PartEnds w (openResolve defaultBuild env pathname p flags mode w)
      (fun r w' => ∀ m, r = .ok m → (w'.table.mb m).inUse = true) := by
  have hfound : ∀ m, (w.table.mb m).inUse = true →
      PartEnds w (.ok (.ok m) w : EStateM.Result Halt World (Except Errno Int))
        (fun r w' => ∀ m, r = .ok m → (w'.table.mb m).inUse = true) := by
    intro m huse
    refine ⟨.refl hok, rfl, fun a ha => ?_⟩
    obtain rfl := Except.ok.inj ha
    exact huse
  have hfailed : ∀ e : Errno,
      PartEnds w (.ok (.error e) w : EStateM.Result Halt World (Except Errno Int))
        (fun r w' => ∀ m, r = .ok m → (w'.table.mb m).inUse = true) :=
    fun e => ⟨.refl hok, rfl, fun m h => by cases h⟩
  unfold openResolve
  rw [run_ite]
  split
  · refine lookup_links hok (fun r hr => ?_)
    cases r with
    | some m => exact hfound m (hr m rfl)
    | none => exact uploadFile_links hok p
  · rw [run_ite]
    split
    · refine lookup_links hok (fun r hr => ?_)
      cases r with
      | some m =>
          dsimp only
          rw [run_get_bind]
          exact openTrunc_links hok (hr m rfl)
      | none => exact createNewFile_links hok p mode
    · refine lookup_links hok (fun r hr => ?_)
      cases r with
      | some m =>
          dsimp only
          rw [run_ite]
          split
          · exact hfailed _
          · exact hfound m (hr m rfl)
      | none =>
          dsimp only
          cases env.realStat pathname with
          | ok st =>
              dsimp only
              rw [run_ite]
              split
              · exact hfailed _
              · exact uploadFile_links hok p
          | error e => exact createNewFile_links hok p mode

/-- `open` puts the cursor of its file to the start. -/
theorem Relinks.rewind (hok : LinkOk w) (huse : (w.table.mb m).inUse = true) :
    Relinks noFile w { w with table := w.table.setMb m (fun b =>
      { b with lastDbucket := b.firstDbucket, lastDbOffset := 0 }) } := by
  obtain ⟨rows, ch, wf⟩ := id hok
  have he : Edited w.table (w.table.setMb m (fun b =>
      { b with lastDbucket := b.firstDbucket, lastDbOffset := 0 })) m rewound := Edited.setMb rfl
  have hfirst : (w.table.mb m).firstDbucket = (ch m).head?.getD noIx :=
    (wf.linked m huse).head_eq
  refine .retable ⟨rows, ch, wf.edit huse he Seeks.rewound.toStays rfl ?_⟩ rfl (fun a ha _ => ?_)
  · change (w.table.mb m).firstDbucket = noIx ∨ (w.table.mb m).firstDbucket ∈ ch m
    rw [hfirst]
    cases ch m with
    | nil => exact Or.inl rfl
    | cons b l => exact Or.inr (by simp)
  · exact ⟨(he.inUse Seeks.rewound.toStays a).trans ha, fun _ => he.first rfl a⟩

theorem FdOpened.slots {i : Nat} (w : World) {fds fds' : Nat → FdInfo}
    (ho : FdOpened fds fds' i m) : ∀ j, SlotStep w (fds j) (fds' j) := by
  intro j
  by_cases hj : j = i
  · subst hj
    rw [ho.self]
    exact .opens _ ho.free
  · rw [ho.other j hj]
    exact .same

theorem FdForwarded.slots (w : World) {fds fds' : Nat → FdInfo} (hf : FdForwarded fds fds') :
    ∀ j, SlotStep w (fds j) (fds' j) := by
  intro j
  rcases hf with rfl | ⟨i, rfl⟩
  · exact .same
  · by_cases hj : j = i
    · subst hj
      rw [Function.update_self]
      exact .forwards
    · rw [Function.update_of_ne hj]
      exact .same

theorem sysOpen_links (hok : LinkOk w) (pathname : Path) (flags mode : Nat) :
    LinkEnds noFile w (sysOpen defaultBuild env pathname flags mode w) := by
  unfold sysOpen
  rw [LinkEnds, run_ite]
  split
  · refine (openExclusive_ends pathname flags).mono ?_ ?_
    · rintro r w' ⟨htab, hdata, hfds⟩
      exact ⟨(Relinks.refl hok).congr htab hdata, hfds.slots w⟩
    · rintro e w' rfl u hu
      cases hu
  · rw [run_ite]
    split
    · exact .same hok
    · rcases absPath_cases env pathname with ⟨p, _, hrun⟩ | ⟨e, _, _, hrun⟩
      · rw [bind_of_ok (hrun w), ends_bind]
        refine (openResolve_links hok pathname p flags mode).mono ?_ (fun _ _ he => he)
        rintro r w₁ ⟨hrel, hfds, huse⟩
        cases r with
        | error e => exact ⟨hrel, fun i => by rw [hfds]; exact .same⟩
        | ok m =>
            dsimp only
            rw [openPosition, bind_assoc, run_get_bind]
            split
            · obtain ⟨e, he, _⟩ := appendLoop_error walkFuel (w₁.table.mb m).firstDbucket w₁.data
              rw [bind_of_error (onData_of_error he)]
              exact fun u _ => hrel
            · rw [run_setMb]
              have hrew := hrel.trans (Relinks.rewind hrel.ok (huse m rfl))
              refine (openSlot_ends m).mono ?_ ?_
              · rintro r w' (⟨_, rfl, _⟩ | ⟨i, _, htab, hdata, hslot⟩)
                · exact ⟨hrew, fun i => by dsimp only; rw [hfds]; exact .same⟩
                · rw [show ({ w₁ with table := _ } : World).fdTable = w.fdTable from hfds] at hslot
                  exact ⟨hrew.congr htab hdata, hslot.slots w⟩
              · rintro e w' rfl u hu
                cases hu
      · rw [bind_of_error (hrun w)]
        exact fun u _ => .refl hok

/-! The other calls that name a file. -/

/-- The call frees the meta bucket `a`: an `unlink` of its path, or a `rename` of a
file with another path to it. -/
def FreesFile (env : Env) (t : MetaShm) (a : Int) : Call → Prop
  | .unlink pathname => pathname.length ≤ pathMax ∧
      ∃ p, absPath env pathname = .ok p ∧ samePath p (t.mb a).path = true
  | .rename old new => old.length ≤ pathMax ∧ new.length ≤ pathMax ∧
      ∃ p q, absPath env old = .ok p ∧ absPath env new = .ok q ∧ p ≠ q ∧
        (∃ m, (t.mb m).inUse = true ∧ samePath p (t.mb m).path = true) ∧
        samePath q (t.mb a).path = true
  | _ => False

theorem Relinks.stuck (hok : LinkOk w) (ho hn : Nat) :
    Relinks gone w { w with table := w.table.lockBoth ho hn } := by
  obtain ⟨rows, ch, wf⟩ := hok
  exact .retable ⟨rows, ch, wf.stuck ho hn⟩ rfl (fun _ ha _ => ⟨ha, fun _ => rfl⟩)

theorem TableStop.not_exit_table {t t' : MetaShm} {e : Halt} (hs : TableStop t e t') {u : UErr}
    (hu : e = .exit u) : t' = t := by
  rcases hs with rfl | ⟨_, rfl⟩
  · cases hu
  · rfl

theorem sysUnlink_links (hok : LinkOk w) (pathname : Path) :
    LinkEnds (fun a => FreesFile env w.table a (.unlink pathname)) w (sysUnlink env pathname w) := by
  obtain ⟨rows, ch, wf⟩ := id hok
  have hwf : TableWf w.table rows := wf.table
  unfold sysUnlink
  rw [LinkEnds, run_ite]
  split
  · exact .same hok
  · next hlen =>
    rcases absPath_cases env pathname with ⟨p, hpath, hrun⟩ | ⟨e, _, _, hrun⟩
    · rw [bind_of_ok (hrun w), ends_bind, onMeta, ends_zoom]
      refine (releaseMetaBucket_ends hwf p).mono ?_ ?_
      · rintro r t' ⟨h, hhash, ⟨rfl, rfl, _⟩ | ⟨m, rows', rfl, hfind, hr⟩⟩
        · exact .same hok
        · refine ⟨.retable ⟨rows', ch, wf.release hr⟩ rfl (fun a ha hno => ?_), fun _ => .same⟩
          have ham : a ≠ m := by
            rintro rfl
            exact hno ⟨Nat.not_lt.mp hlen, p, hpath, findPath_same hfind⟩
          have hs := hr.same a ham
          exact ⟨hs.inUse.trans ha, fun _ => hs.firstDbucket⟩
      · intro e t' hs u hu
        rw [hs.not_exit_table hu]
        exact .refl hok
    · rw [bind_of_error (hrun w)]
      exact fun u _ => .refl hok

/-- The end of a rename: the file that the new path leads to is marked. -/
theorem renameMark_links {ret : Int} (hrel : Relinks gone w w₁)
    (hfds : w₁.fdTable = w.fdTable) :
    LinkEnds gone w ((do
        match ← onMeta (getMbucket p) with
        | some mb =>
            mbModify mb
            return { ret := ret, err := .ok }
        | none => throw .undefined : Op World Ret) w₁) := by
  have hslots : ∀ i, SlotStep w (w.fdTable i) (w₁.fdTable i) := by
    intro i
    rw [hfds]
    exact .same
  have hmark : PartEnds w₁ ((do
        match ← onMeta (getMbucket p) with
        | some mb =>
            mbModify mb
            return { ret := ret, err := .ok }
        | none => throw .undefined : Op World Ret) w₁) (fun _ _ => True) := by
    refine lookup_links hrel.ok (fun r _ => ?_)
    cases r with
    | none => exact fun u h => by cases h
    | some m =>
        dsimp only
        rw [mbModify, PartEnds, run_setMb]
        exact ⟨.restamp hrel.ok (Edited.setMb (f := id) rfl)
          ⟨fun _ => rfl, fun _ => rfl, fun _ => rfl⟩ (fun _ => rfl) (fun _ => rfl), rfl, trivial⟩
  refine hmark.mono ?_ (fun e w' he u hu => hrel.trans (he u hu))
  rintro r w' ⟨hrel', hfds', _⟩
  refine ⟨hrel.trans hrel', fun i => ?_⟩
  rw [hfds']
  exact hslots i

theorem sysRename_links (hok : LinkOk w) (old new : Path) :
    LinkEnds (fun a => FreesFile env w.table a (.rename old new)) w (sysRename env old new w) := by
  obtain ⟨rows, ch, wf⟩ := id hok
  have hwf : TableWf w.table rows := wf.table
  unfold sysRename
  rw [LinkEnds, run_ite]
  split
  · exact .same hok
  · rw [run_ite]
    split
    · exact .same hok
    · next hlen =>
      rw [not_or, Nat.not_lt, Nat.not_lt] at hlen
      rcases absPath_cases env old with ⟨fold, hpathold, hold⟩ | ⟨e, _, _, hold⟩
      · rcases absPath_cases env new with ⟨fnew, hpath, hnew⟩ | ⟨e, _, _, hnew⟩
        · rw [bind_of_ok (hold w), bind_of_ok (hnew w), ends_bind, onMeta, ends_zoom]
          refine (mbChpath_ends hwf fold fnew).mono ?_ ?_
          · rintro r t' (⟨rfl, rfl, _⟩ | ⟨ho, hn, hokold, hoknew, hne, _, _, ⟨rfl, _, rfl⟩ |
              ⟨m, rows', rfl, hfind, hr⟩⟩)
            · rw [run_ite, if_neg (by decide)]
              exact renameMark_links (.refl hok) rfl
            · have hst : Relinks (fun a => FreesFile env w.table a (.rename old new)) w
                  { w with table := w.table.lockBoth ho hn } := .stuck hok ho hn
              rw [run_ite, if_pos (by decide), run_ite]
              split
              · have hlook : PartEnds { w with table := w.table.lockBoth ho hn } ((do
                    match ← onMeta (getMbucket fnew) with
                    | some _ => throw (.exit .unsupportedRename)
                    | none => return { ret := env.realRename old new, err := env.realErrno } :
                      Op World Ret) { w with table := w.table.lockBoth ho hn })
                    (fun _ _ => True) := by
                  refine lookup_links hst.ok (fun r _ => ?_)
                  cases r with
                  | none => exact ⟨.refl hst.ok, rfl, trivial⟩
                  | some m => exact fun u _ => .refl hst.ok
                refine hlook.mono ?_ (fun e w' he u hu => hst.trans (he u hu))
                rintro r w' ⟨hrel', hfds', _⟩
                refine ⟨hst.trans hrel', fun i => ?_⟩
                rw [hfds']
                exact .same
              · exact ⟨hst, fun _ => .same⟩
            · rw [run_ite, if_neg (by decide)]
              refine renameMark_links (.retable ⟨rows', ch, wf.rename hr⟩ rfl
                (fun a ha hno => ?_)) rfl
              have hover : findPath w.table fnew (rows hn) ≠ some a := by
                intro hao
                refine hno ⟨hlen.1, hlen.2, fold, fnew, hpathold, hpath, ?_,
                  ⟨m, hwf.findPath_inUse hokold hfind, findPath_same hfind⟩, findPath_same hao⟩
                rintro rfl
                exact hne (Except.ok.inj (hokold.symm.trans hoknew))
              by_cases ham : a = m
              · subst ham
                exact ⟨hr.moved.inUse.trans ha, fun _ => hr.moved.firstDbucket⟩
              · have hs := hr.same a ham hover
                exact ⟨hs.inUse.trans ha, fun _ => hs.firstDbucket⟩
          · intro e t' hs u hu
            rw [hs.not_exit_table hu]
            exact .refl hok
        · rw [bind_of_ok (hold w), bind_of_error (hnew w)]
          exact fun u _ => .refl hok
      · rw [bind_of_error (hold w)]
        exact fun u _ => .refl hok

/-- A part of a call that leaves the descriptors alone. -/
theorem PartEnds.linkEnds {r : EStateM.Result Halt World Ret} {Q : Ret → World → Prop}
    (hr : PartEnds w r Q) : LinkEnds noFile w r := by
  refine Ends.mono hr ?_ (fun _ _ he => he)
  rintro a w' ⟨hrel, hfds, _⟩
  refine ⟨hrel, fun i => ?_⟩
  rw [hfds]
  exact .same

theorem statPath_links (hok : LinkOk w) (real : Path → Except Errno Stat) (path : Path) :
    LinkEnds noFile w (statPath env real path w) := by
  unfold statPath
  rw [LinkEnds, run_ite]
  split
  · exact .same hok
  · rcases absPath_cases env path with ⟨p, _, hrun⟩ | ⟨e, _, _, hrun⟩
    · rw [bind_of_ok (hrun w)]
      refine (lookup_links (Q := fun _ _ => True) hok (fun r _ => ?_)).linkEnds
      cases r with
      | some a => exact ⟨.refl hok, rfl, trivial⟩
      | none =>
          dsimp only
          cases real path with
          | ok st => exact ⟨.refl hok, rfl, trivial⟩
          | error e => exact ⟨.refl hok, rfl, trivial⟩
    · rw [bind_of_error (hrun w)]
      exact fun u _ => .refl hok

theorem upload_links (hok : LinkOk w) (name : Path) :
    LinkEnds noFile w (callOp defaultBuild env (.upload name) w) := by
  unfold callOp
  rw [LinkEnds, ends_bind]
  refine (uploadFile_links hok name).mono ?_ (fun _ _ he => he)
  rintro r w' ⟨hrel, hfds, _⟩
  have hslots : ∀ i, SlotStep w (w.fdTable i) (w'.fdTable i) := by
    intro i
    rw [hfds]
    exact .same
  cases r with
  | ok m => exact ⟨hrel, hslots⟩
  | error e => exact ⟨hrel, hslots⟩

theorem sysFxstat_links (hok : LinkOk w) (fd : Int) :
    LinkEnds noFile w (sysFxstat env fd w) := by
  refine (sysFxstat_keeps env fd w).mono ?_ ?_
  · rintro r w' rfl
    exact .same hok
  · rintro e w' rfl u _
    exact .refl hok

/-- Every call keeps the links in order, whatever its arguments. -/
theorem callOp_links (env : Env) (call : Call) (hok : LinkOk w)
    (hcache : CachesOwned w.data w.fdTable) :
    LinkEnds (fun a => FreesFile env w.table a call) w (callOp defaultBuild env call w) := by
  cases call with
  | «open» pathname flags mode => exact sysOpen_links hok pathname flags mode
  | close fd => exact sysClose_links hok fd
  | read fd count => exact sysRead_links hok fd count
  | write fd buf => exact sysWrite_links hok fd buf
  | pread fd count offset => exact sysPread_links hok hcache fd count offset
  | pwrite fd buf offset => exact sysPwrite_links hok hcache fd buf offset
  | unlink pathname => exact sysUnlink_links hok pathname
  | rename old new => exact sysRename_links hok old new
  | xstat path => exact statPath_links hok env.realStat path
  | fxstat fd => exact sysFxstat_links hok fd
  | upload name => exact upload_links hok name

end Spacefish
