import Spacefish.TruncFreeChains

/-!
The calls of a build with `O_TRUNC_FREE` on a store with disjoint chains: `open`,
`close`, `read` and `write` keep the chains disjoint when the allocator hands out no
bucket with a link, and the bucket of a new file is the one that was handed out.
-/

namespace Spacefish

open LinkedArray Program Buffer

/-- The store that a process sees has disjoint chains. -/
def FreeOk (w : World) : Prop := ∃ rows ch, FreeWf w.table w.data rows ch

/-- How a part of a call ends that keeps the chains disjoint; `Q` says what it returns. -/
def FreeEnds {α : Type} (r : EStateM.Result Halt World α) (Q : α → World → Prop) : Prop :=
  Ends r Q (fun e w' => ∀ u, e = .exit u → FreeOk w')

/-- The file `m` is in use, and `b` is the last bucket of its chain. -/
def EndsAt (w : World) (m : Int) (b : Nat) : Prop :=
  ∃ rows ch pre, FreeWf w.table w.data rows ch ∧ (w.table.mb m).inUse = true ∧ ch m = pre ++ [b]

/-- The file `m` is in use and has no data bucket yet. -/
def NoData (w : World) (m : Int) : Prop :=
  FreeOk w ∧ (w.table.mb m).inUse = true ∧ (w.table.mb m).firstDbucket = noIx

variable {w w₁ w' : World} {m : Int} {b ix h prev mode : Nat} {rows : Nat → List Int}
  {ch : Int → List Nat} {env : Env} {fd : Int} {bld : Build} {fit : DataBucket → Bool}
  {p pathname : Path} {buf : List Byte} {flags : Nat}

theorem EndsAt.ok (he : EndsAt w m b) : FreeOk w := by
  obtain ⟨rows, ch, _, wf, _⟩ := he
  exact ⟨rows, ch, wf⟩

theorem EndsAt.inUse (he : EndsAt w m b) : (w.table.mb m).inUse = true := by
  obtain ⟨_, _, _, _, huse, _⟩ := he
  exact huse

/-- The bucket that ends a chain is filled. -/
theorem EndsAt.fill (he : EndsAt w m b) (F : DataBucket → DataBucket)
    (hF : ∀ x, (F x).inUse = x.inUse ∧ (F x).nextIx = x.nextIx ∧ (F x).lock = x.lock) :
    EndsAt { w with data := w.data.set b F } m b := by
  obtain ⟨rows, ch, pre, wf, huse, hsplit⟩ := he
  exact ⟨rows, ch, pre, wf.sameLinks (.set _ _ hF), huse, hsplit⟩

theorem EndsAt.held (he : EndsAt w m b) : w.data.Held b := by
  obtain ⟨_, ch, pre, wf, huse, hsplit⟩ := he
  exact wf.chains.live m huse b (by simp [hsplit])

/-- A file without data gets a bucket that is handed out. -/
theorem NoData.adopt (hno : NoData w m) {d' : DataShm} {f : FileCore → FileCore} {t' : MetaShm}
    (hd : Handed w.data d' ix) (hend : d'.next ix = noIx) (he : Edited w.table t' m f)
    (hf : Stays f) (hfirst : ∀ c, (f c).first = ix) (hlast : ∀ c, (f c).last = c.last) :
    EndsAt { w with table := t', data := d' } m ix := by
  obtain ⟨⟨rows, ch, wf⟩, huse, hnone⟩ := hno
  exact ⟨rows, _, [], (wf.keepsUsed hd.toKeepsUsed).adopt huse hnone he hf (hfirst _) (hlast _)
    (wf.fresh hd) hd.held hend, (he.inUse hf m).trans huse, Function.update_self ..⟩

/-- A file gets one more bucket that is handed out. -/
theorem EndsAt.link (he : EndsAt w m b) {d' : DataShm} (hd : Handed w.data d' ix)
    (hend : d'.next ix = noIx) :
    EndsAt { w with data := d'.set b (fun db => { db with nextIx := ix }) } m ix := by
  obtain ⟨rows, ch, pre, wf, huse, hsplit⟩ := he
  exact ⟨rows, _, pre ++ [b], (wf.keepsUsed hd.toKeepsUsed).link huse hsplit (wf.fresh hd) hd.held
    hend, huse, Function.update_self ..⟩

/-- An edit of a bucket, in use or not, that keeps its first data bucket and its cursor. -/
theorem FreeOk.restamp (hok : FreeOk w) {f : FileCore → FileCore} {t' : MetaShm}
    (he : Edited w.table t' m f) (hf : Stays f) (hfirst : ∀ c, (f c).first = c.first)
    (hlast : ∀ c, (f c).last = c.last) : FreeOk { w with table := t' } := by
  obtain ⟨rows, ch, wf⟩ := hok
  exact ⟨rows, ch, wf.edit he hf (hfirst _) (Or.inl (hlast _))⟩

/-- The cursor of a file is put to its start. -/
def World.rewind (w : World) (m : Int) : World :=
  { w with table := w.table.setMb m (fun b =>
      { b with lastDbucket := b.firstDbucket, lastDbOffset := 0 }) }

theorem FreeOk.rewind (hok : FreeOk w) (huse : (w.table.mb m).inUse = true) :
    FreeOk (w.rewind m) := by
  obtain ⟨rows, ch, wf⟩ := hok
  have hl : Linked w.data.next noIx (w.table.mb m).firstDbucket (ch m) := wf.chains.linked m huse
  have he : Edited w.table (w.table.setMb m (fun b =>
      { b with lastDbucket := b.firstDbucket, lastDbOffset := 0 })) m rewound := Edited.setMb rfl
  refine ⟨rows, ch, wf.edit he Seeks.rewound.toStays rfl ?_⟩
  change (w.table.mb m).firstDbucket = (w.table.mb m).lastDbucket ∨ _ ∧
    (w.table.mb m).firstDbucket ∈ ch m
  rw [hl.head_eq]
  cases hch : ch m with
  | nil =>
      refine Or.inl ((wf.onChain m huse).resolve_right (fun hmem => ?_)).symm
      rw [hch] at hmem
      cases hmem
  | cons b l => exact Or.inr ⟨huse, by simp⟩

/-! The calls on a descriptor. -/

theorem fdCall_free {x : Op World Ret} {r₁ r₂ : Ret} {k : FdInfo → Op World Ret}
    (hx : x = fddes fd >>= fun f =>
      if f.exclusive then pure r₁ else if f.empty then pure r₂ else k f)
    (hok : FreeOk w)
    (hk : ∀ m, UserFd w fd m → FreeEnds (k (w.fdTable fd.toNat) w) (fun _ w' => FreeOk w')) :
    FreeEnds (x w) (fun _ w' => FreeOk w') := by
  rcases fdCall_cases (w := w) hx with ⟨m, hu, hrun⟩ | ⟨_, hrun | ⟨r, hrun⟩⟩
  · rw [hrun]
    exact hk m hu
  · rw [hrun]
    exact fun u h => by cases h
  · rw [hrun]
    exact hok

theorem sysClose_free (hok : FreeOk w) (fd : Int) :
    FreeEnds (sysClose env fd w) (fun _ w' => FreeOk w') := by
  refine (sysClose_ends env fd w).mono ?_ ?_
  · rintro r w' ⟨_, _, hclose⟩
    cases hclose with
    | kernel => exact hok
    | refused => exact hok
    | unopened => exact hok
    | store =>
        exact hok.restamp (edited_closeStamps _ _ _)
          ⟨fun _ => rfl, fun _ => rfl, fun _ => rfl⟩ (fun _ => rfl) (fun _ => rfl)
  · rintro e w' ⟨rfl, _, _⟩ u h
    cases h

theorem sysRead_free (hok : FreeOk w) (fd : Int) (count : UInt64) :
    FreeEnds (sysRead env fd count w) (fun _ w' => FreeOk w') := by
  refine fdCall_free rfl hok (fun m hu => ?_)
  obtain ⟨rows, ch, wf⟩ := id hok
  dsimp only
  rw [FreeEnds, run_get_bind, hu.mindex, ends_bind, onData, ends_zoom]
  by_cases hcur : (w.table.mb m).lastDbucket = noIx
  · rw [hcur, readLoop_noIx wf.steps_le]
    exact fun u _ => hok
  · obtain ⟨huse, hmem⟩ := wf.cursor hcur
    refine (readLoop_reach _ _ _ _ _ _).mono ?_ ?_
    · rintro r d' ⟨rfl, hr⟩
      rw [run_ite]
      split
      · rw [run_setMb, setFddes_eq hu.pos hu.lt]
        have he : Edited w.table (w.table.setMb m (fun b =>
            { b with lastDbucket := r.dbindex, lastDbOffset := toInt r.off })) m
            (fun c => { c with last := r.dbindex, off := toInt r.off }) := Edited.setMb rfl
        exact ⟨rows, ch, wf.edit he ⟨fun _ => rfl, fun _ => rfl, fun _ => rfl⟩ rfl
          (Or.inr ⟨huse, Linked.mem_of_reach (wf.chains.linked m huse) hmem hr⟩)⟩
      · exact hok
    · rintro e d' rfl u _
      exact hok

section

variable (hands : Hands bld fit) (hfit : ∀ db, fit db = true → db.nextIx = noIx)

include hands hfit

theorem sysWrite_free (hok : FreeOk w) (fd : Int) (buf : List Byte) :
    FreeEnds (sysWrite bld env fd buf w) (fun _ w' => FreeOk w') := by
  refine fdCall_free rfl hok (fun m hu => ?_)
  obtain ⟨rows, ch, wf⟩ := id hok
  dsimp only
  rw [FreeEnds, run_get_bind, hu.mindex, ends_bind, onData, ends_zoom]
  by_cases hcur : (w.table.mb m).lastDbucket = noIx
  · rw [hcur, writeLoop_noIx wf.steps_le]
    exact fun u _ => hok
  · obtain ⟨huse, hmem⟩ := wf.cursor hcur
    refine (writeLoop_free hands hfit wf huse hmem false).mono ?_ ?_
    · rintro r d' ⟨ch', wf', hr⟩
      rw [run_ite]
      split
      · rw [run_setMb, setFddes_eq hu.pos hu.lt, mbModify, run_setMb, run_setMb]
        dsimp only [World.setFd]
        rw [setMb_setMb, setMb_setMb]
        exact ⟨rows, ch', wf'.edit (Edited.setMb (F := fun b =>
            { b with lastDbucket := r.dbindex, lastDbOffset := toInt r.off, consisent := false,
                     s := growStat b.s r.sizeInd })
            (f := fun c => { c with last := r.dbindex, off := toInt r.off,
                                    size := growSize c.size r.sizeInd })
            (by simp [MetaBucket.core, growStat_size]))
          ⟨fun _ => rfl, fun _ => rfl, fun _ => rfl⟩ rfl (Or.inr ⟨huse, hr⟩)⟩
      · rw [run_setMb]
        exact ⟨rows, ch', wf'.edit (Edited.setMb (m := m)
            (F := fun b => { b with s := growStat b.s r.sizeInd })
            (f := fun c => { c with size := growSize c.size r.sizeInd })
            (by simp [MetaBucket.core, growStat_size]))
          ⟨fun _ => rfl, fun _ => rfl, fun _ => rfl⟩ rfl (Or.inl rfl)⟩
    · intro e d' he u hu
      obtain ⟨ch', wf'⟩ := he u hu
      exact ⟨rows, ch', wf'⟩

/-! Uploads. -/

/-- The rounds that fill whole buckets, from round `i` on. -/
theorem uploadRounds_free (n i : Nat)
    (hstart : (i = 0 ∧ NoData w m) ∨ (0 < i ∧ EndsAt w m prev)) :
    FreeEnds (uploadRounds bld env m buf n i prev w)
      (fun last w' => (0 < n ∧ EndsAt w' m last) ∨ (n = 0 ∧ last = prev ∧ w' = w)) := by
  induction n generalizing i prev w with
  | zero => exact Or.inr ⟨rfl, rfl, rfl⟩
  | succ n ih =>
      have hok : FreeOk w := by
        rcases hstart with ⟨_, hno⟩ | ⟨_, he⟩
        · exact hno.1
        · exact he.ok
      -- the rest of the round, once its bucket is the last one of the chain
      have hrest : ∀ {w₁ : World} {ix : Nat}, EndsAt w₁ m ix → FreeEnds ((do
          let _ ← onData (getDbucketPtr ix)
          onData (modify (·.set ix (fun db =>
            { db with buf := memcpy db.buf 0 ((buf.drop (i * dbucketBufSize)).take dbucketBufSize)
                      bytes := dbucketBufSize })))
          uploadRounds bld env m buf n (i + 1) ix : Op World Nat) w₁)
          (fun last w' => (0 < n + 1 ∧ EndsAt w' m last) ∨ (n + 1 = 0 ∧ last = prev ∧ w' = w)) := by
        intro w₁ ix hends
        rw [bind_of_ok (onData_of_ok (getDbucketPtr_held hends.held)), FreeEnds, ends_bind, onData,
          ends_zoom, ends_modify]
        have hfill := hends.fill (fun db =>
          { db with buf := memcpy db.buf 0 ((buf.drop (i * dbucketBufSize)).take dbucketBufSize)
                    bytes := dbucketBufSize }) (fun _ => ⟨rfl, rfl, rfl⟩)
        refine (ih (i + 1) (Or.inr ⟨Nat.succ_pos i, hfill⟩)).mono ?_ (fun _ _ he => he)
        rintro last w' (⟨_, hlast⟩ | ⟨_, rfl, rfl⟩)
        · exact Or.inl ⟨Nat.succ_pos n, hlast⟩
        · exact Or.inl ⟨Nat.succ_pos n, hfill⟩
      rw [uploadRounds, FreeEnds, ends_bind, onData, ends_zoom]
      refine (hands _ w.data).mono ?_ ?_
      · rintro ix d' ⟨hd, hix⟩
        rw [run_ite]
        rcases hstart with ⟨rfl, hno⟩ | ⟨hpos, hends⟩
        · rw [if_pos rfl]
          exact hrest (hno.adopt hd (hfit _ hix) (Edited.setMb
            (F := fun b => { b with firstDbucket := ix }) (f := fun c => { c with first := ix }) rfl)
            ⟨fun _ => rfl, fun _ => rfl, fun _ => rfl⟩ (fun _ => rfl) (fun _ => rfl))
        · rw [if_neg (Nat.ne_of_gt hpos)]
          exact hrest (hends.link hd (hfit _ hix))
      · intro e d' he u hu
        obtain ⟨rows, ch, wf⟩ := hok
        exact ⟨rows, ch, wf.keepsUsed (he u hu)⟩

theorem uploadFirst_free (hno : NoData w m) (rounds : Int) :
    FreeEnds (uploadFirst bld env m rounds w)
      (fun first w' => (rounds = 0 ∧ EndsAt w' m first) ∨ (rounds ≠ 0 ∧ w' = w)) := by
  rw [uploadFirst, FreeEnds, run_ite]
  split
  · next hrounds =>
    rw [ends_bind, onData, ends_zoom]
    refine (hands _ w.data).mono ?_ ?_
    · rintro ix d' ⟨hd, hix⟩
      have hends := (hno.adopt hd (hfit _ hix) (Edited.setMb
        (F := fun b => { b with firstDbucket := ix }) (f := fun c => { c with first := ix }) rfl)
        ⟨fun _ => rfl, fun _ => rfl, fun _ => rfl⟩ (fun _ => rfl) (fun _ => rfl)).fill
          (fun db => { db with bytes := 0 }) (fun _ => ⟨rfl, rfl, rfl⟩)
      rw [bind_of_ok (onData_of_ok (w := { w with data := d' }) (getDbucketPtr_held hd.held))]
      exact Or.inl ⟨hrounds, hends⟩
    · intro e d' he u hu
      obtain ⟨rows, ch, wf⟩ := hno.1
      exact ⟨rows, ch, wf.keepsUsed (he u hu)⟩
  · next hrounds => exact Or.inr ⟨hrounds, rfl⟩

theorem uploadTail_free (hok : FreeOk w) (rounds : Int) (off last : Nat)
    (hlast : 0 ≤ rounds → EndsAt w m last) :
    FreeEnds (uploadTail bld env buf rounds off last w)
      (fun _ w' => FreeOk w' ∧ w'.table = w.table) := by
  rw [uploadTail, FreeEnds, run_ite]
  split
  · exact ⟨hok, rfl⟩
  · rw [run_ite]
    split
    · exact fun u hu => by cases hu
    · next hrounds =>
      have hends := hlast (by omega)
      rw [run_get_bind, run_ite]
      split
      · rw [onData, ends_zoom, ends_modify]
        have hfill := hends.fill (fun db =>
          { db with buf := memcpy db.buf 0 (buf.take off), bytes := off }) (fun _ => ⟨rfl, rfl, rfl⟩)
        exact ⟨hfill.ok, rfl⟩
      · rw [ends_bind, onData, ends_zoom]
        refine (hands _ w.data).mono ?_ ?_
        · rintro ix d' ⟨hd, hix⟩
          have hlink := hends.link hd (hfit _ hix)
          have hfill := hlink.fill (fun db =>
            { db with buf := memcpy db.buf 0 ((buf.drop (rounds.toNat * dbucketBufSize)).take off)
                      bytes := off }) (fun _ => ⟨rfl, rfl, rfl⟩)
          rw [ends_bind, onData, ends_zoom, ends_modify,
            bind_of_ok (onData_of_ok (getDbucketPtr_held hlink.held)), onData, ends_zoom, ends_modify]
          exact ⟨hfill.ok, rfl⟩
        · intro e d' he u hu
          obtain ⟨rows, ch, wf⟩ := hok
          exact ⟨rows, ch, wf.keepsUsed (he u hu)⟩

/-- The data part of an upload to a file that has none. -/
theorem uploadData_free (hno : NoData w m) (size : Nat) :
    FreeEnds (uploadData bld env m buf size w)
      (fun _ w' => FreeOk w' ∧ (w'.table.mb m).inUse = true) := by
  unfold uploadData
  generalize toInt (size / dbucketBufSize : Nat) = rounds
  rw [FreeEnds, ends_bind]
  refine (uploadFirst_free hands hfit hno rounds).mono ?_ (fun _ _ he => he)
  intro first w₁ hfirst
  have hstart : ∀ n : Nat, n = rounds.toNat → FreeEnds (uploadRounds bld env m buf n 0 first w₁)
      (fun last w' => FreeOk w' ∧ (w'.table.mb m).inUse = true ∧
        (0 ≤ rounds → EndsAt w' m last)) := by
    rintro n rfl
    rcases hfirst with ⟨rfl, hends⟩ | ⟨hne, rfl⟩
    · exact ⟨hends.ok, hends.inUse, fun _ => hends⟩
    · refine (uploadRounds_free hands hfit rounds.toNat 0 (Or.inl ⟨rfl, hno⟩)).mono ?_
        (fun _ _ he => he)
      rintro last w' (⟨_, hends⟩ | ⟨hzero, rfl, rfl⟩)
      · exact ⟨hends.ok, hends.inUse, fun _ => hends⟩
      · exact ⟨hno.1, hno.2.1, fun hpos => absurd hpos (by omega)⟩
  rw [ends_bind]
  refine (hstart _ rfl).mono ?_ (fun _ _ he => he)
  rintro last w₂ ⟨hok, huse, hlast⟩
  refine (uploadTail_free hands hfit hok rounds _ last hlast).mono ?_ (fun _ _ he => he)
  rintro _ w' ⟨hok', htab⟩
  exact ⟨hok', htab ▸ huse⟩

/-! Making files. -/

theorem uploadFile_free (hok : FreeOk w) (p : Path) :
    FreeEnds (uploadFile bld env p w)
      (fun r w' => FreeOk w' ∧ ∀ m, r = .ok m → (w'.table.mb m).inUse = true) := by
  obtain ⟨rows, ch, wf⟩ := id hok
  have hsame : ∀ e : Errno, FreeEnds (.ok (.error e) w : EStateM.Result Halt World (Except Errno Int))
      (fun r w' => FreeOk w' ∧ ∀ m, r = .ok m → (w'.table.mb m).inUse = true) :=
    fun e => ⟨hok, fun m h => by cases h⟩
  unfold uploadFile
  cases hstat : env.realStat p with
  | error e => exact hsame e
  | ok st =>
      dsimp only
      rw [run_ite]
      split
      · exact hsame _
      · rw [FreeEnds, ends_bind, onMeta, ends_zoom]
        refine (strictCreateMbucket_ends wf.table env.mrand p).mono ?_ ?_
        · rintro r t₁ ⟨h, _, ⟨rfl, rfl, _⟩ | ⟨m, rfl, _, hc⟩⟩
          · exact hsame _
          · obtain ⟨wf₁, huse, hfirst⟩ := wf.create hc
            have hno : NoData { w with table := t₁ } m := ⟨⟨_, _, wf₁⟩, huse, hfirst⟩
            dsimp only
            rw [run_ite]
            split
            · exact ⟨hno.1, fun m h => by cases h⟩
            · by_cases hp : p.length < pathMax
              · rw [strcpyPath_eq hp, run_setMb]
                dsimp only
                rw [setMb_setMb, ends_bind]
                have he : Edited t₁ (t₁.setMb m (fun b => { b with path := p, s := st })) m
                    (fun c => { c with path := p, size := st.stSize }) := Edited.setMb rfl
                have hok₁ := hno.1.restamp he ⟨fun _ => rfl, fun _ => rfl, fun _ => rfl⟩
                  (fun _ => rfl) (fun _ => rfl)
                refine (uploadData_free hands hfit (w := { w with table := _ })
                  ⟨hok₁, ?_, ?_⟩ st.stSize).mono ?_ (fun _ _ he => he)
                · dsimp only
                  rw [setMb_mb_self]
                  exact huse
                · dsimp only
                  rw [setMb_mb_self]
                  exact hfirst
                · rintro _ w' ⟨hok', huse'⟩
                  refine ⟨hok', fun a ha => ?_⟩
                  obtain rfl := Except.ok.inj ha
                  exact huse'
              · rw [strcpyPath_undef hp]
                exact fun u h => by cases h
        · intro e t' hs u hu
          rw [hs.not_exit_table hu]
          exact hok

end

/-- The first bucket of every file that has come into use passes the test. -/
def NewFilesFit (fit : DataBucket → Bool) (w w' : World) : Prop :=
  ∀ a, (w.table.mb a).inUse = false → (w'.table.mb a).inUse = true →
    fit (w'.data.bucket (w'.table.mb a).firstDbucket) = true

theorem NewFilesFit.of_inUse (h : ∀ a, (w'.table.mb a).inUse = (w.table.mb a).inUse) :
    NewFilesFit fit w w' := by
  intro a hfree huse
  rw [h a, hfree] at huse
  cases huse

section

variable (hands : Hands bld fit) (hfit : ∀ db, fit db = true → db.nextIx = noIx)

include hands hfit

theorem createNewFile_free (hok : FreeOk w) (p : Path) (mode : Nat) :
    FreeEnds (createNewFile bld env p mode w)
      (fun r w' => FreeOk w' ∧ (∀ m, r = .ok m → (w'.table.mb m).inUse = true) ∧
        NewFilesFit fit w w') := by
  obtain ⟨rows, ch, wf⟩ := id hok
  unfold createNewFile
  rw [FreeEnds, ends_bind, onMeta, ends_zoom]
  refine (strictCreateMbucket_ends wf.table env.mrand p).mono ?_ ?_
  · rintro r t₁ ⟨h, _, ⟨rfl, rfl, _⟩ | ⟨m, rfl, _, hc⟩⟩
    · exact ⟨hok, (fun m h => by cases h), .of_inUse (fun _ => rfl)⟩
    · obtain ⟨wf₁, huse, hfirst⟩ := wf.create hc
      have hno : NoData { w with table := t₁ } m := ⟨⟨_, _, wf₁⟩, huse, hfirst⟩
      dsimp only
      rw [ends_bind, onData, ends_zoom]
      refine (hands _ w.data).mono ?_ ?_
      · rintro ix d' ⟨hd, hix⟩
        rw [run_setMb]
        by_cases hp : p.length < pathMax
        · rw [strcpyPath_eq hp, run_setMb, mbModify, run_setMb]
          dsimp only
          rw [setMb_setMb, setMb_setMb, setMb_setMb]
          refine ⟨?_, ?_, ?_⟩
          · exact (hno.adopt hd (hfit _ hix) (Edited.setMb (f := filledCore p ix 0) rfl)
              (filledCore_stays _ _ _) (fun _ => rfl) (fun _ => rfl)).ok
          · intro a ha
            obtain rfl := Except.ok.inj ha
            dsimp only
            rw [setMb_mb_self]
            exact huse
          · intro a hfree hused
            have ham : a = m := by
              by_contra hne
              dsimp only at hused
              rw [setMb_mb_of_ne _ hne, (hc.same a hne).inUse, hfree] at hused
              cases hused
            subst ham
            dsimp only
            rw [setMb_mb_self]
            exact hix
        · rw [strcpyPath_undef hp]
          exact fun u h => by cases h
      · intro e d' he u hu
        exact ⟨_, _, wf₁.keepsUsed (he u hu)⟩
  · intro e t' hs u hu
    rw [hs.not_exit_table hu]
    exact hok

/-! `open`. -/

/-- An `open` that makes a new file when its path leads to none. -/
def createsNew (env : Env) : Call → Bool
  | .open pathname flags _ =>
      hasFlag flags oCreat && (oTruncCheck flags || !(env.realStat pathname).isOk)
  | _ => false

/-- What the first half of `open` leaves; the second half puts the cursor to the start. -/
structure FreeResolved (fit : DataBucket → Bool) (creates : Bool) (w w' : World)
    (r : Except Errno Int) : Prop where
  failed : ∀ e, r = .error e → FreeOk w'
  found : ∀ m, r = .ok m → FreeOk (w'.rewind m)
  new : creates = true → NewFilesFit fit w w'

omit hands hfit in
theorem FreeResolved.of_ok {creates : Bool} {r : Except Errno Int} (hok : FreeOk w')
    (huse : ∀ m, r = .ok m → (w'.table.mb m).inUse = true)
    (hnew : creates = true → NewFilesFit fit w w') : FreeResolved fit creates w w' r :=
  ⟨fun _ _ => hok, fun m hm => hok.rewind (huse m hm), hnew⟩

omit hands hfit in
/-- A truncation leaves a chain of one bucket, once the cursor is put to the start. -/
theorem openTrunc_free {creates : Bool} (hbld : bld.oTruncFree = true) (hok : FreeOk w)
    (huse : (w.table.mb m).inUse = true) :
    FreeEnds ((do
        onData (truncChain bld (w.table.mb m).firstDbucket)
        setMb m (fun b =>
          { b with s := stamp env { b.s with stSize := 0, stBlocks := 1 } (stMod ||| stChg) })
        mbModify m
        return .ok m : Op World (Except Errno Int)) w)
      (fun r w' => FreeResolved fit creates w w' r) := by
  obtain ⟨rows, ch, wf⟩ := id hok
  rw [FreeEnds, ends_bind, onData, ends_zoom]
  refine (truncChain_free hbld wf huse).mono ?_ ?_
  · rintro _ d' ⟨hsteps, hchains⟩
    rw [run_setMb, mbModify, run_setMb]
    dsimp only
    rw [setMb_setMb]
    refine ⟨(fun e he => by cases he), fun a ha => ?_, fun _ => .of_inUse (fun a => ?_)⟩
    · obtain rfl := Except.ok.inj ha
      refine ⟨rows, _, wf.rewindCut huse hsteps hchains
        (f := fun c => { c with size := 0, last := c.first, off := 0 }) ?_
        ⟨fun _ => rfl, fun _ => rfl, fun _ => rfl⟩ rfl rfl⟩
      dsimp only [World.rewind]
      rw [setMb_setMb]
      exact Edited.setMb rfl
    · by_cases ham : a = m
      · subst ham
        dsimp only
        rw [setMb_mb_self]
      · dsimp only
        rw [setMb_mb_of_ne _ ham]
  · intro e d' he u hu
    obtain rfl := he u hu
    exact hok

theorem openResolve_free (hbld : bld.oTruncFree = true) (hok : FreeOk w)
    (pathname p : Path) (flags mode : Nat) :
    FreeEnds (openResolve bld env pathname p flags mode w)
      (fun r w' => FreeResolved fit (createsNew env (.open pathname flags mode)) w w' r) := by
  have hsame : ∀ r : Except Errno Int, (∀ m, r = .ok m → (w.table.mb m).inUse = true) →
      FreeEnds (.ok r w : EStateM.Result Halt World (Except Errno Int))
        (fun r w' => FreeResolved fit (createsNew env (.open pathname flags mode)) w w' r) :=
    fun r huse => .of_ok hok huse (fun _ => .of_inUse (fun _ => rfl))
  have hlookup : ∀ {k : Option Int → Op World (Except Errno Int)},
      (∀ r, (∀ m, r = some m → (w.table.mb m).inUse = true) → FreeEnds (k r w)
        (fun r w' => FreeResolved fit (createsNew env (.open pathname flags mode)) w w' r)) →
      FreeEnds ((onMeta (getMbucket p) >>= k) w)
        (fun r w' => FreeResolved fit (createsNew env (.open pathname flags mode)) w w' r) := by
    intro k hk
    obtain ⟨rows, ch, wf⟩ := id hok
    refine lookup_ends wf.table ?_
      (fun h hhash _ => hk _ (fun m hm => wf.table.findPath_inUse hhash hm))
    intro e t' hs _ u hu
    rw [hs.not_exit_table hu]
    exact hok
  have hcreate : FreeEnds (createNewFile bld env p mode w)
      (fun r w' => FreeResolved fit (createsNew env (.open pathname flags mode)) w w' r) :=
    (createNewFile_free hands hfit hok p mode).mono
      (fun r w' h => .of_ok h.1 h.2.1 (fun _ => h.2.2)) (fun _ _ he => he)
  have hupload : createsNew env (.open pathname flags mode) = false →
      FreeEnds (uploadFile bld env p w)
        (fun r w' => FreeResolved fit (createsNew env (.open pathname flags mode)) w w' r) :=
    fun hno => (uploadFile_free hands hfit hok p).mono
      (fun r w' h => .of_ok h.1 h.2 (fun hnew => by rw [hno] at hnew; cases hnew)) (fun _ _ he => he)
  unfold openResolve
  rw [FreeEnds, run_ite]
  split
  · next hcreat =>
    refine hlookup (fun r hr => ?_)
    cases r with
    | some m => exact hsame _ (fun a ha => by obtain rfl := Except.ok.inj ha; exact hr m rfl)
    | none =>
        refine hupload ?_
        rw [Bool.not_eq_true'] at hcreat
        simp [createsNew, hcreat]
  · rw [run_ite]
    split
    · refine hlookup (fun r hr => ?_)
      cases r with
      | some m =>
          dsimp only
          rw [run_get_bind]
          exact openTrunc_free hbld hok (hr m rfl)
      | none => exact hcreate
    · next htrunc =>
      refine hlookup (fun r hr => ?_)
      cases r with
      | some m =>
          dsimp only
          rw [run_ite]
          split
          · exact hsame _ (fun a ha => by cases ha)
          · exact hsame _ (fun a ha => by obtain rfl := Except.ok.inj ha; exact hr m rfl)
      | none =>
          dsimp only
          cases hstat : env.realStat pathname with
          | ok st =>
              dsimp only
              rw [run_ite]
              split
              · exact hsame _ (fun a ha => by cases ha)
              · refine hupload ?_
                rw [Bool.not_eq_true] at htrunc
                simp [createsNew, htrunc, hstat, Except.isOk, Except.toBool]
          | error e => exact hcreate

theorem sysOpen_free (hbld : bld.oTruncFree = true) (hok : FreeOk w) (pathname : Path)
    (mode : Nat) (happend : hasFlag flags oAppend = false) :
    FreeEnds (sysOpen bld env pathname flags mode w)
      (fun _ w' => FreeOk w' ∧
        (createsNew env (.open pathname flags mode) = true → NewFilesFit fit w w')) := by
  unfold sysOpen
  rw [FreeEnds, run_ite]
  split
  · refine (openExclusive_ends pathname flags).mono ?_ ?_
    · rintro r w' ⟨htab, hdata, _⟩
      refine ⟨?_, fun _ => .of_inUse (fun a => by rw [htab])⟩
      rw [FreeOk, htab, hdata]
      exact hok
    · rintro e w' rfl u hu
      cases hu
  · rw [run_ite]
    split
    · exact ⟨hok, fun _ => .of_inUse (fun _ => rfl)⟩
    · rcases absPath_cases env pathname with ⟨p, _, hrun⟩ | ⟨e, _, _, hrun⟩
      · rw [bind_of_ok (hrun w), ends_bind]
        refine (openResolve_free hands hfit hbld hok pathname p flags mode).mono ?_
          (fun _ _ he => he)
        intro r w₁ hres
        cases r with
        | error e => exact ⟨hres.failed e rfl, hres.new⟩
        | ok m =>
            have hrew : FreeOk (w₁.rewind m) := hres.found m rfl
            have hnew : createsNew env (.open pathname flags mode) = true →
                NewFilesFit fit w (w₁.rewind m) := by
              intro hcreates a hfree huse
              have hmb : ((w₁.rewind m).table.mb a).inUse = (w₁.table.mb a).inUse ∧
                  ((w₁.rewind m).table.mb a).firstDbucket = (w₁.table.mb a).firstDbucket := by
                by_cases ham : a = m
                · subst ham
                  simp [World.rewind]
                · simp [World.rewind, setMb_mb_of_ne _ ham]
              rw [hmb.1] at huse
              rw [hmb.2]
              exact hres.new hcreates a hfree huse
            dsimp only
            rw [openPosition, bind_assoc, run_get_bind, if_neg (by simp [happend]), run_setMb]
            refine (openSlot_ends m).mono ?_ ?_
            · rintro r w' (⟨_, rfl, _⟩ | ⟨i, _, htab, hdata, _⟩)
              · exact ⟨hrew, hnew⟩
              · refine ⟨?_, ?_⟩
                · rw [FreeOk, htab, hdata]
                  exact hrew
                · unfold NewFilesFit
                  rw [htab, hdata]
                  exact hnew
            · rintro e w' rfl u hu
              cases hu
      · rw [bind_of_error (hrun w)]
        exact fun u _ => hok

end

end Spacefish
