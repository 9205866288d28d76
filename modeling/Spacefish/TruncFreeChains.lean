import Spacefish.Lib.DisjointLists
import Spacefish.LinkPaths
import Spacefish.TruncFreeAlloc

/-!
The chains of the files in a store whose truncations release buckets. A bucket that
was released keeps its link, so nothing is known of the buckets that are not in use;
the chains stay disjoint as long as every bucket that is handed out has no link.
-/

namespace Spacefish

open LinkedArray Program

/-- The chains of the files in use. -/
def Chains (t : MetaShm) (d : DataShm) (ch : Int → List Nat) : Prop :=
  Lists d.next noIx d.Held (fun m => (t.mb m).inUse = true) (fun m => (t.mb m).firstDbucket) ch

/-- The rows of the table and the chains of the files are well formed, and the cursor of
a file stands on one of its buckets or nowhere. -/
structure FreeWf (t : MetaShm) (d : DataShm) (rows : Nat → List Int) (ch : Int → List Nat) :
    Prop where
  table : TableWf t rows
  steps_le : d.dbucketSteps ≤ maxDataBucketsSteps
  chains : Chains t d ch
  onChain : ∀ m, (t.mb m).inUse = true →
    (t.mb m).lastDbucket = noIx ∨ (t.mb m).lastDbucket ∈ ch m
  unused : ∀ m, (t.mb m).inUse = false → (t.mb m).lastDbucket = noIx

/-- The allocator of a build hands out free buckets, and they pass the test. -/
def Hands (bld : Build) (fit : DataBucket → Bool) : Prop :=
  ∀ draw d, Ends (bld.getFreeDbucketIx draw d)
    (fun ix d' => Handed d d' ix ∧ fit (d'.bucket ix) = true)
    (fun e d' => ∀ u, e = .exit u → KeepsUsed d d')

variable {t t' : MetaShm} {d d' : DataShm} {rows rows' : Nat → List Int} {ch : Int → List Nat}
  {m : Int} {b k ix h off fuel : Nat} {pre l : List Nat} {f : FileCore → FileCore} {env : Env}
  {bld : Build} {fit : DataBucket → Bool} {buf chunk : List Byte}

theorem DataShm.Held.ne_noIx (hb : d.Held b) (hle : d.dbucketSteps ≤ maxDataBucketsSteps) :
    b ≠ noIx := by
  have hlt : b < dataBucketsStep * maxDataBucketsSteps :=
    Nat.lt_of_lt_of_le hb.1 (Nat.mul_le_mul_left _ hle)
  rintro rfl
  exact absurd hlt (by decide)

theorem getDbucketPtr_held (hb : d.Held b) : getDbucketPtr b d = .ok (d.bucket b) d := by
  have hlt : ¬ b / dataBucketsStep ≥ d.dbucketSteps :=
    Nat.not_le.mpr (Nat.div_lt_of_lt_mul hb.1)
  rw [getDbucketPtr, run_get_bind, run_ite, if_neg hlt]
  rfl

/-! The data segment changes. -/

theorem SameLinks.held (hs : SameLinks d d') (hb : d.Held b) : d'.Held b := by
  refine ⟨?_, (hs.inUse b).trans hb.2⟩
  rw [DataShm.numBuckets, hs.steps]
  exact hb.1

theorem FreeWf.sameLinks (wf : FreeWf t d rows ch) (hs : SameLinks d d') : FreeWf t d' rows ch :=
  ⟨wf.table, hs.steps ▸ wf.steps_le, wf.chains.congr (fun c hc => ⟨hs.next c, hs.held hc⟩),
    wf.onChain, wf.unused⟩

theorem FreeWf.keepsUsed (wf : FreeWf t d rows ch) (hs : KeepsUsed d d') : FreeWf t d' rows ch := by
  refine ⟨wf.table, hs.steps_le wf.steps_le, wf.chains.congr (fun c hc => ⟨?_, hs.held hc⟩),
    wf.onChain, wf.unused⟩
  rw [DataShm.next, hs.bucket c hc]
  rfl

/-- A bucket that has just been handed out is on no chain. -/
theorem FreeWf.fresh (wf : FreeWf t d rows ch) (hd : Handed d d' ix) :
    ∀ a, (t.mb a).inUse = true → ix ∉ ch a :=
  fun a ha hmem => hd.free (wf.chains.live a ha ix hmem)

/-- A bucket without a link that is on no chain is linked behind the last one of a file. -/
theorem FreeWf.link (wf : FreeWf t d rows ch) (huse : (t.mb m).inUse = true)
    (hsplit : ch m = pre ++ [b]) (hfresh : ∀ a, (t.mb a).inUse = true → k ∉ ch a)
    (hk : d.Held k) (hend : d.next k = noIx) :
    FreeWf t (d.set b (fun db => { db with nextIx := k })) rows
      (Function.update ch m (pre ++ [b] ++ [k])) := by
  have hnext : (d.set b (fun db => { db with nextIx := k })).next = Function.update d.next b k := by
    funext c
    by_cases hc : c = b
    · subst hc
      simp [DataShm.next]
    · rw [DataShm.next, set_bucket_of_ne _ hc, Function.update_of_ne hc, DataShm.next]
  have hheld : ∀ c, d.Held c → (d.set b (fun db => { db with nextIx := k })).Held c := by
    intro c hc
    refine ⟨hc.1, ?_⟩
    by_cases hcb : c = b
    · subst hcb
      rw [set_bucket_self]
      exact hc.2
    · rw [set_bucket_of_ne _ hcb]
      exact hc.2
  have hlists := wf.chains.extend huse hsplit hfresh hk (hk.ne_noIx wf.steps_le) hend
  refine ⟨wf.table, wf.steps_le, hlists.congr (fun c hc => ⟨congrFun hnext c, hheld c hc⟩), ?_,
    wf.unused⟩
  intro a ha
  refine (wf.onChain a ha).imp id (fun hmem => ?_)
  by_cases ham : a = m
  · subst ham
    rw [Function.update_self, ← hsplit]
    exact List.mem_append_left _ hmem
  · rwa [Function.update_of_ne ham]

/-! The table changes. -/

/-- An edit that keeps the first data bucket and leaves the cursor on the chain. -/
theorem FreeWf.edit (wf : FreeWf t d rows ch) (he : Edited t t' m f) (hf : Stays f)
    (hfirst : (f (t.mb m).core).first = (t.mb m).firstDbucket)
    (hlast : (f (t.mb m).core).last = (t.mb m).lastDbucket ∨
      (t.mb m).inUse = true ∧ (f (t.mb m).core).last ∈ ch m) : FreeWf t' d rows ch := by
  have hin := he.inUse hf
  refine ⟨he.tableWf_of hf wf.table (fun _ => hfirst), wf.steps_le,
    wf.chains.keys (fun a ha => ⟨(hin a).symm.trans ha, he.first hfirst a⟩), ?_, ?_⟩
  · intro a ha
    have ha' := (hin a).symm.trans ha
    by_cases ham : a = m
    · subst ham
      rw [he.last]
      rcases hlast with hsame | ⟨_, hmem⟩
      · rw [hsame]
        exact wf.onChain a ha'
      · exact Or.inr hmem
    · rw [he.last_of_ne ham]
      exact wf.onChain a ha'
  · intro a ha
    have ha' := (hin a).symm.trans ha
    by_cases ham : a = m
    · subst ham
      rw [he.last]
      rcases hlast with hsame | ⟨huse, _⟩
      · exact hsame.trans (wf.unused a ha')
      · rw [huse] at ha'
        cases ha'
    · rw [he.last_of_ne ham]
      exact wf.unused a ha'

/-- A meta bucket made for a new file, without data. -/
theorem FreeWf.create (wf : FreeWf t d rows ch) (hc : Created t t' rows h m) :
    FreeWf t' d (Function.update rows h (rows h ++ [m])) (Function.update ch m []) ∧
      (t'.mb m).inUse = true ∧ (t'.mb m).firstDbucket = noIx := by
  have hfirst : (t'.mb m).firstDbucket = noIx :=
    hc.new.firstDbucket.trans (wf.table.free m hc.fresh).2
  have hlists : Chains t' d (Function.update ch m []) := wf.chains.begin
    (fun a ha huse => ⟨(hc.same a ha).inUse.symm.trans huse, (hc.same a ha).firstDbucket⟩) hfirst
  refine ⟨⟨hc.wf, wf.steps_le, hlists, fun a ha => ?_, fun a ha => ?_⟩, hc.new.inUse, hfirst⟩
  · by_cases ham : a = m
    · subst ham
      exact Or.inl (hc.new.lastDbucket.trans (wf.unused a hc.fresh))
    · rw [(hc.same a ham).lastDbucket, Function.update_of_ne ham]
      exact wf.onChain a ((hc.same a ham).inUse.symm.trans ha)
  · have ham : a ≠ m := by
      rintro rfl
      have := hc.new.inUse
      rw [ha] at this
      cases this
    rw [(hc.same a ham).lastDbucket]
    exact wf.unused a ((hc.same a ham).inUse.symm.trans ha)

/-- A file without data gets a bucket that is on no chain and has no link. -/
theorem FreeWf.adopt (wf : FreeWf t d rows ch) (huse : (t.mb m).inUse = true)
    (hnone : (t.mb m).firstDbucket = noIx) (he : Edited t t' m f) (hf : Stays f)
    (hfirst : (f (t.mb m).core).first = ix) (hlast : (f (t.mb m).core).last = (t.mb m).lastDbucket)
    (hfresh : ∀ a, (t.mb a).inUse = true → ix ∉ ch a) (hix : d.Held ix)
    (hend : d.next ix = noIx) : FreeWf t' d rows (Function.update ch m [ix]) := by
  have hin := he.inUse hf
  have hch : ch m = [] := by
    have hl : Linked d.next noIx (t.mb m).firstDbucket (ch m) := wf.chains.linked m huse
    rw [hnone] at hl
    exact Linked.unique hl (show Linked d.next noIx noIx [] from rfl)
  have hlists : Chains t' d (Function.update ch m [ix]) := wf.chains.adopt
    (fun a ha hused => ⟨(hin a).symm.trans hused, congrArg FileCore.first (he.other a ha)⟩)
    ((congrArg FileCore.first he.self).trans hfirst) hfresh hix (hix.ne_noIx wf.steps_le) hend
  refine ⟨he.tableWf hf wf.table huse, wf.steps_le, hlists, fun a ha => ?_, fun a ha => ?_⟩
  · by_cases ham : a = m
    · subst ham
      left
      rw [he.last, hlast]
      refine (wf.onChain a huse).resolve_right (fun hmem => ?_)
      rw [hch] at hmem
      cases hmem
    · rw [he.last_of_ne ham, Function.update_of_ne ham]
      exact wf.onChain a ((hin a).symm.trans ha)
  · have ha' := (hin a).symm.trans ha
    have ham : a ≠ m := by
      rintro rfl
      rw [huse] at ha'
      cases ha'
    rw [he.last_of_ne ham]
    exact wf.unused a ha'

/-- A cursor that stands somewhere belongs to a file in use and is on its chain. -/
theorem FreeWf.cursor (wf : FreeWf t d rows ch) (hcur : (t.mb m).lastDbucket ≠ noIx) :
    (t.mb m).inUse = true ∧ (t.mb m).lastDbucket ∈ ch m := by
  have huse : (t.mb m).inUse = true := by
    by_contra hno
    exact hcur (wf.unused m (Bool.eq_false_iff.mpr hno))
  exact ⟨huse, (wf.onChain m huse).resolve_left hcur⟩

/-! The loop of `write`. -/

theorem copyIn_ends (b off : Nat) (chunk : List Byte) (d : DataShm) :
    Ends (copyIn b off chunk d) (fun _ d' => d' = d.put b off chunk)
      (fun e _ => ∀ u, e ≠ .exit u) := by
  rw [copyIn, run_ite]
  split
  · exact rfl
  · exact fun u hu => by cases hu

section

variable (hands : Hands bld fit) (hfit : ∀ db, fit db = true → db.nextIx = noIx)

include hands hfit

/-- The next bucket of a chain, taken when there is none. -/
theorem nextOrNew_free (wf : FreeWf t d rows ch) (huse : (t.mb m).inUse = true) (hb : b ∈ ch m)
    (round : Nat) :
    Ends (writeLoop.nextOrNew bld env round b (d.next b) d)
      (fun c d' => ∃ ch', FreeWf t d' rows ch' ∧ c ∈ ch' m)
      (fun e d' => ∀ u, e = .exit u → FreeWf t d' rows ch) := by
  obtain ⟨pre, l, hsplit⟩ := List.append_of_mem hb
  have hnext : d.next b = l.head?.getD noIx := by
    have hl : Linked d.next noIx (t.mb m).firstDbucket (ch m) := wf.chains.linked m huse
    exact Linked.next_eq (hsplit ▸ hl)
  rw [writeLoop.nextOrNew, run_ite]
  split
  · next hnone =>
    cases l with
    | nil =>
        rw [ends_bind]
        refine (hands _ d).mono ?_ (fun e d' he u hu => wf.keepsUsed (he u hu))
        rintro ix d₁ ⟨hd, hix⟩
        refine ⟨_, (wf.keepsUsed hd.toKeepsUsed).link huse hsplit (wf.fresh hd) hd.held (hfit _ hix), ?_⟩
        rw [Function.update_self]
        exact List.mem_append_right _ (by simp)
    | cons c l =>
        have hc : d.Held c := wf.chains.live m huse c (by simp [hsplit])
        exact absurd (hnext.symm.trans hnone) (hc.ne_noIx wf.steps_le)
  · next hsome =>
    cases l with
    | nil => exact absurd hnext hsome
    | cons c l =>
        refine ⟨ch, wf, ?_⟩
        rw [hnext, hsplit]
        simp

theorem writeLoop_free (wf : FreeWf t d rows ch) (huse : (t.mb m).inUse = true) (hb : b ∈ ch m)
    (guarded : Bool) :
    Ends (writeLoop bld env guarded fuel b off buf d)
      (fun r d' => ∃ ch', FreeWf t d' rows ch' ∧ r.dbindex ∈ ch' m)
      (fun e d' => ∀ u, e = .exit u → ∃ ch', FreeWf t d' rows ch') := by
  induction fuel generalizing b off buf d ch with
  | zero => exact fun u hu => by cases hu
  | succ fuel ih =>
      have hheld : d.Held b := wf.chains.live m huse b hb
      have hne := hheld.ne_noIx wf.steps_le
      have hput : ∀ chunk, FreeWf t (d.put b off chunk) rows ch :=
        fun chunk => wf.sameLinks (.put d b off chunk)
      rw [writeLoop, run_ite, if_neg (by simp [hne]), bind_of_ok (getDbucketPtr_held hheld), run_ite]
      split
      · rw [ends_bind]
        refine (copyIn_ends b off buf d).mono ?_ (fun e d' he u hu => absurd hu (he u))
        rintro _ d₁ rfl
        exact ⟨ch, hput _, hb⟩
      · rw [ends_bind]
        refine (copyIn_ends b off _ d).mono ?_ (fun e d' he u hu => absurd hu (he u))
        rintro _ d₁ rfl
        have hstep : Ends (writeLoop.nextOrNew bld env fuel b _ _) _ _ :=
          nextOrNew_free hands hfit (hput (buf.take (usub dbucketBufSize off))) huse hb fuel
        rw [put_next] at hstep
        rw [ends_bind]
        refine hstep.mono ?_ (fun e d' he u hu => ⟨ch, he u hu⟩)
        rintro c d₂ ⟨ch', wf', hc⟩
        rw [ends_bind]
        exact (ih wf' hc).mono (fun r d' hr => hr) (fun e d' he => he)

end

/-! Truncation. -/

/-- `d'` is `d` with some buckets of `l` released. -/
structure FreedTail (d d' : DataShm) (l : List Nat) : Prop where
  steps : d'.dbucketSteps = d.dbucketSteps
  next : ∀ c, d'.next c = d.next c
  bucket : ∀ c ∉ l, d'.bucket c = d.bucket c

/-- `release_dbucket` keeps the link of the bucket. -/
theorem releaseDbucket_free (b : Nat) (d : DataShm) :
    Ends (releaseDbucket b d) (fun _ d' => FreedTail d d' [b]) (fun _ _ => False) := by
  rw [releaseDbucket, run_get_bind, run_ite]
  split
  · refine ⟨rfl, fun c => ?_, fun c hc => ?_⟩
    · by_cases hc : c = b
      · subst hc
        simp [DataShm.next, DataShm.set]
      · simp [DataShm.next, DataShm.set, hc]
    · have hne : c ≠ b := by simpa using hc
      simp [DataShm.set, hne]
  · exact ⟨rfl, fun _ => rfl, fun _ _ => rfl⟩

theorem truncLoop_free (hbld : bld.oTruncFree = true) (hl : Linked d.next noIx b l)
    (hin : ∀ c ∈ l, c < d.numBuckets) :
    Ends (truncLoop bld fuel b d) (fun _ d' => FreedTail d d' l) (fun e _ => ∀ u, e ≠ .exit u) := by
  induction fuel generalizing b d l with
  | zero => exact fun u hu => by cases hu
  | succ fuel ih =>
      rw [truncLoop, run_ite]
      cases l with
      | nil =>
          rw [if_pos (show b = noIx from hl)]
          exact ⟨rfl, fun _ => rfl, fun _ _ => rfl⟩
      | cons c l =>
          obtain ⟨rfl, hne, hrest⟩ := hl
          have hlt : ¬ b / dataBucketsStep ≥ d.dbucketSteps :=
            Nat.not_le.mpr (Nat.div_lt_of_lt_mul (hin b (by simp)))
          rw [if_neg hne, getDbucketPtr, bind_assoc, run_get_bind, if_neg hlt, run_pure_bind,
            hbld, run_ite, if_pos rfl, ends_bind]
          refine (releaseDbucket_free b d).mono ?_ (fun e d' he => he.elim)
          rintro _ d₁ hfreed
          have hnext : d₁.next = d.next := funext hfreed.next
          refine (ih (d := d₁) (l := l) (hnext ▸ hrest) (fun c hc => ?_)).mono ?_ (fun _ _ he => he)
          · rw [DataShm.numBuckets, hfreed.steps]
            exact hin c (by simp [hc])
          · rintro _ d₂ hrestd
            refine ⟨hrestd.steps.trans hfreed.steps,
              fun c => (hrestd.next c).trans (hfreed.next c), fun c hc => ?_⟩
            rw [List.mem_cons, not_or] at hc
            exact (hrestd.bucket c hc.2).trans (hfreed.bucket c (by simpa using hc.1))

/-- A truncation cuts the chain of the file behind its first bucket. -/
theorem truncChain_free (hbld : bld.oTruncFree = true) (wf : FreeWf t d rows ch)
    (huse : (t.mb m).inUse = true) :
    Ends (truncChain bld (t.mb m).firstDbucket d)
      (fun _ d' => d'.dbucketSteps = d.dbucketSteps ∧
        Chains t d' (Function.update ch m [(t.mb m).firstDbucket]))
      (fun e d' => ∀ u, e = .exit u → d' = d) := by
  have hl : Linked d.next noIx (t.mb m).firstDbucket (ch m) := wf.chains.linked m huse
  have hin : ∀ c ∈ ch m, d.Held c := wf.chains.live m huse
  generalize hb : (t.mb m).firstDbucket = b at hl ⊢
  cases hch : ch m with
  | nil =>
      rw [hch] at hl
      obtain rfl : b = noIx := hl
      rw [truncChain_noIx wf.steps_le]
      exact fun _ _ => rfl
  | cons c l =>
      rw [hch] at hl hin
      have hnodup := Linked.nodup hl
      obtain ⟨rfl, hne, hrest⟩ := hl
      have hbheld : d.Held b := hin b (by simp)
      have hbl : b ∉ l := (List.nodup_cons.mp hnodup).1
      have hsame : SameLinks d (d.set b (fun db => { db with bytes := 0 })) :=
        .set _ _ (fun _ => ⟨rfl, rfl, rfl⟩)
      have htail : Linked (d.set b (fun db => { db with bytes := 0 })).next noIx
          (d.bucket b).nextIx l := hrest.congr (fun c _ => hsame.next c)
      rw [truncChain, bind_of_ok (getDbucketPtr_held hbheld), run_modify_bind, ends_bind]
      refine (truncLoop_free hbld htail (fun c hc => ?_)).mono ?_
        (fun e d' he u hu => absurd hu (he u))
      · exact (hin c (by simp [hc])).1
      · rintro _ d₁ hfreed
        have hb₁ : d₁.Held b := by
          refine ⟨?_, ?_⟩
          · rw [DataShm.numBuckets, hfreed.steps]
            exact hbheld.1
          · rw [hfreed.bucket b hbl]
            exact (hsame.inUse b).trans hbheld.2
        rw [hbld, if_pos rfl, bind_of_ok (getDbucketPtr_held hb₁), ends_modify]
        refine ⟨hfreed.steps, wf.chains.cut huse hch (fun c hc => ?_) ?_ (fun c hc hcl => ?_)⟩
        · have hset := congrArg DataBucket.nextIx
            (set_bucket_of_ne (d := d₁) (fun db => { db with nextIx := noIx }) hc)
          exact hset.trans ((hfreed.next c).trans (hsame.next c))
        · simp [DataShm.next]
        · refine ⟨?_, ?_⟩
          · rw [DataShm.numBuckets, set_steps, hfreed.steps]
            exact hc.1
          · by_cases hcb : c = b
            · subst hcb
              rw [set_bucket_self]
              exact hb₁.2
            · rw [set_bucket_of_ne _ hcb, hfreed.bucket c hcl, hsame.inUse]
              exact hc.2

/-- The cursor of a file that was truncated is put to the start. -/
theorem FreeWf.rewindCut (wf : FreeWf t d rows ch) (huse : (t.mb m).inUse = true)
    (hsteps : d'.dbucketSteps = d.dbucketSteps)
    (hchains : Chains t d' (Function.update ch m [(t.mb m).firstDbucket]))
    (he : Edited t t' m f) (hf : Stays f)
    (hfirst : (f (t.mb m).core).first = (t.mb m).firstDbucket)
    (hlast : (f (t.mb m).core).last = (t.mb m).firstDbucket) :
    FreeWf t' d' rows (Function.update ch m [(t.mb m).firstDbucket]) := by
  have hin := he.inUse hf
  refine ⟨he.tableWf hf wf.table huse, hsteps ▸ wf.steps_le,
    hchains.keys (fun a ha => ⟨(hin a).symm.trans ha, he.first hfirst a⟩), fun a ha => ?_,
    fun a ha => ?_⟩
  · by_cases ham : a = m
    · subst ham
      rw [he.last, hlast, Function.update_self]
      exact Or.inr (List.mem_singleton.mpr rfl)
    · rw [he.last_of_ne ham, Function.update_of_ne ham]
      exact wf.onChain a ((hin a).symm.trans ha)
  · have ha' := (hin a).symm.trans ha
    have ham : a ≠ m := by
      rintro rfl
      rw [huse] at ha'
      cases ha'
    rw [he.last_of_ne ham]
    exact wf.unused a ha'

end Spacefish
