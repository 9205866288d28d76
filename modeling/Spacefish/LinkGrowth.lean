import Mathlib.Logic.Relation
import Spacefish.FileCalls

/-!
The links of the store under calls with any arguments. Nothing is said about
byte counts and offsets here: a cursor may stand behind the data of its bucket,
and a descriptor may refer to a file that is gone. What remains true is that no
bucket is given back, that links are only added, and that every new bucket hangs
behind an old one or is reached from a file.
-/

namespace Spacefish

open LinkedArray Program

/-- `c` is met on the way along the links from `b`. -/
def DataShm.Reach (d : DataShm) : Nat → Nat → Prop :=
  Relation.ReflTransGen (fun b c => d.next b = c ∧ c ≠ noIx)

/-- No bucket is given back, and no link that is set changes. -/
structure DataGrows (d d' : DataShm) : Prop where
  owned : ∀ c, d.Owned c → d'.Owned c
  next : ∀ c, d.next c ≠ noIx → d'.next c = d.next c

variable {s : Store} {d d₁ d' : DataShm} {b c ix off fuel : Nat} {m : Int} {env : Env}
  {w w₁ w' : World} {gone : Int → Prop} {rows : Nat → List Int} {ch : Int → List Nat}

theorem DataGrows.refl (d : DataShm) : DataGrows d d := ⟨fun _ h => h, fun _ _ => rfl⟩

theorem DataGrows.trans (h₁ : DataGrows d d₁) (h₂ : DataGrows d₁ d') : DataGrows d d' := by
  refine ⟨fun c hc => h₂.owned c (h₁.owned c hc), fun c hc => ?_⟩
  rw [h₂.next c (by rw [h₁.next c hc]; exact hc), h₁.next c hc]

theorem SameLinks.grows (hs : SameLinks d d') : DataGrows d d' :=
  ⟨fun _ => hs.owned, fun c _ => hs.next c⟩

theorem DataGrows.link (hne : ix ≠ b) (hend : d.next b = noIx) : DataGrows d (d.grow b ix) := by
  refine ⟨fun c hc => ⟨hc.1, ?_⟩, fun c hc => ?_⟩
  · rw [grow_inUse]
    split
    · rfl
    · exact hc.2
  · have hcb : c ≠ b := by
      rintro rfl
      exact hc hend
    rw [grow_next hne, if_neg hcb]

theorem DataGrows.take (d : DataShm) (ix : Nat) : DataGrows d (d.take ix) := by
  refine ⟨fun c hc => ⟨hc.1, ?_⟩, fun c _ => ?_⟩
  · by_cases hcix : c = ix
    · subst hcix
      simp [DataShm.take]
    · rw [DataShm.take, set_bucket_of_ne _ hcix]
      exact hc.2
  · by_cases hcix : c = ix
    · subst hcix
      simp [DataShm.take, DataShm.next]
    · rw [DataShm.take, DataShm.next, set_bucket_of_ne _ hcix, DataShm.next]

theorem DataShm.Reach.mono (hg : DataGrows d d') (hr : d.Reach b c) : d'.Reach b c := by
  refine Relation.ReflTransGen.mono ?_ _ _ hr
  rintro x y ⟨rfl, hne⟩
  exact ⟨hg.next x hne, hne⟩

/-- The walk from a bucket of a chain stays on the chain. -/
theorem Linked.mem_of_reach {i : Nat} {l : List Nat} (hl : Linked d.next noIx i l) (hb : b ∈ l)
    (hr : d.Reach b c) : c ∈ l := by
  induction hr with
  | refl => exact hb
  | @tail x y _ hlast ih =>
      obtain ⟨rfl, hne⟩ := hlast
      obtain ⟨l₁, l₂, rfl⟩ := List.append_of_mem ih
      have hnext := Linked.next_eq hl
      cases l₂ with
      | nil => exact absurd hnext hne
      | cons y l₂ =>
          rw [show d.next x = y from hnext]
          simp

/-- Every bucket of a chain is reached from its first one. -/
theorem Linked.reach_of_mem {i : Nat} {l : List Nat} (hl : Linked d.next noIx i l) (hc : c ∈ l) :
    d.Reach i c := by
  induction l generalizing i with
  | nil => cases hc
  | cons b l ih =>
      obtain ⟨rfl, hb, htail⟩ := hl
      rcases List.mem_cons.mp hc with rfl | hc
      · exact .refl
      · have hrest := ih htail hc
        refine .head ⟨rfl, ?_⟩ hrest
        cases l with
        | nil => cases hc
        | cons y l => exact htail.1 ▸ htail.2.1

/-! The loops. -/

/-- `read` ends on a bucket that its walk has met. -/
theorem readLoop_reach (env : Env) (fuel b off n : Nat) (d : DataShm) :
    Ends (readLoop env fuel b off n d) (fun r d' => d' = d ∧ d.Reach b r.dbindex)
      (fun _ d' => d' = d) := by
  induction fuel generalizing b off n with
  | zero => exact rfl
  | succ fuel ih =>
      unfold readLoop
      by_cases hb : b / dataBucketsStep ≥ d.dbucketSteps
      · rw [getDbucketPtr, bind_assoc, run_get_bind, if_pos hb]
        exact rfl
      · rw [getDbucketPtr, bind_assoc, run_get_bind, if_neg hb, run_pure_bind, run_ite]
        split
        · rw [ends_bind]
          refine (copyOut_keeps d).mono ?_ (fun _ _ h => h)
          rintro chunk d' rfl
          exact ⟨rfl, .refl⟩
        · rw [ends_bind]
          refine (copyOut_keeps d).mono ?_ (fun _ _ h => h)
          rintro chunk d' rfl
          rw [run_ite]
          split
          · next hne =>
            rw [ends_bind]
            refine (ih _ _ _).mono ?_ (fun _ _ h => h)
            rintro r d'' ⟨rfl, hr⟩
            exact ⟨rfl, .head ⟨rfl, hne⟩ hr⟩
          · exact ⟨rfl, .refl⟩

/-- What a loop leaves of the store `s`: a new bucket hangs behind an old one. -/
structure Grown (s : Store) (d' : DataShm) : Prop where
  wf : ∃ ch', LinkWf { s with data := d', ch := ch' }
  grows : DataGrows s.data d'
  new : ∀ c, d'.Owned c → ∃ a, s.data.Owned a ∧ d'.Reach a c

theorem Grown.sameLinks (wf : LinkWf s) (hs : SameLinks s.data d') : Grown s d' :=
  ⟨⟨s.ch, wf.sameData hs⟩, hs.grows, fun c hc => ⟨c, ⟨hc.1, (hs.inUse c).symm.trans hc.2⟩, .refl⟩⟩

/-- A loop goes on from the next bucket. -/
theorem Grown.step {n : Nat} {ch₁ : Int → List Nat} (hb : s.data.Owned b)
    (hs : DataGrows s.data d₁) (hnew : ∀ c, d₁.Owned c → s.data.Owned c ∨ c = n)
    (hnext : d₁.next b = n) (hn : n ≠ noIx)
    (hrest : Grown { s with data := d₁, ch := ch₁ } d') :
    Grown s d' ∧ ∀ c, d'.Reach n c → d'.Reach b c := by
  have hreach : ∀ c, d'.Reach n c → d'.Reach b c := by
    intro c hc
    refine .head ⟨?_, hn⟩ hc
    rw [← hnext]
    exact hrest.grows.next b (by rw [hnext]; exact hn)
  refine ⟨⟨hrest.wf, hs.trans hrest.grows, fun c hc => ?_⟩, hreach⟩
  obtain ⟨a, ha, hr⟩ := hrest.new c hc
  rcases hnew a ha with hold | rfl
  · exact ⟨a, hold, hr⟩
  · exact ⟨b, hb, hreach c hr⟩

/-- Behind the end of the buffer the copy of `write` and `pwrite` is undefined, or
it copies nothing. -/
theorem writeLoop_outside (guarded : Bool) (buf : List Byte) (wf : LinkWf s)
    (hb : b < totBuckets) (hoff : dbucketBufSize < off) (hlt : off < 2 ^ 64) :
    Ends (writeLoop defaultBuild env guarded fuel b off buf s.data)
      (fun r d' => SameLinks s.data d' ∧ r.dbindex = b)
      (fun e _ => ∀ u, e ≠ .exit u) := by
  cases fuel with
  | zero => exact fun u h => by cases h
  | succ fuel =>
      have hne : b ≠ noIx := by
        unfold totBuckets at hb
        unfold noIx
        omega
      have hsub : usub dbucketBufSize off = 2 ^ 64 + dbucketBufSize - off := by
        unfold usub
        unfold dbucketBufSize at hoff ⊢
        omega
      have hcopy : ∀ chunk : List Byte, Ends (copyIn b off chunk s.data)
          (fun _ d' => d' = s.data.put b off chunk) (fun e _ => ∀ u, e ≠ .exit u) := by
        intro chunk
        rw [copyIn, run_ite]
        split
        · exact rfl
        · exact fun u h => by cases h
      unfold writeLoop
      rw [run_ite, if_neg (by simp [hne]), bind_of_ok (getDbucketPtr_eq wf.links.steps hb), run_ite]
      split
      · rw [ends_bind]
        refine (hcopy buf).mono ?_ (fun _ _ h => h)
        rintro _ d' rfl
        exact ⟨.put _ _ _ _, rfl⟩
      · next hlong =>
        have hbad : ¬ ((buf.take (usub dbucketBufSize off)).length = 0 ∨
            off + (buf.take (usub dbucketBufSize off)).length ≤ dbucketBufSize) := by
          rw [List.length_take, hsub]
          rw [hsub] at hlong
          omega
        rw [copyIn, bind_of_error (by rw [run_ite, if_neg hbad]; rfl)]
        exact fun u h => by cases h

/-- The loop of `write` and `pwrite` from any position of a bucket. -/
theorem writeLoop_grown (guarded : Bool) (buf : List Byte) (wf : LinkWf s)
    (hb : b < totBuckets) (hown : off ≤ dbucketBufSize → s.data.Owned b) (hlt : off < 2 ^ 64) :
    Ends (writeLoop defaultBuild env guarded fuel b off buf s.data)
      (fun r d' => Grown s d' ∧ d'.Reach b r.dbindex)
      (fun e d' => ∀ u, e = .exit u → Grown s d') := by
  induction fuel generalizing s b off buf with
  | zero => exact fun u h => by cases h
  | succ fuel ih =>
      by_cases hoff : dbucketBufSize < off
      · refine (writeLoop_outside guarded buf wf hb hoff hlt).mono ?_ ?_
        · rintro r d' ⟨hs, rfl⟩
          exact ⟨.sameLinks wf hs, .refl⟩
        · exact fun e d' he u hu => absurd hu (he u)
      · have hbo := hown (by omega)
        have hsub : usub dbucketBufSize off = dbucketBufSize - off := usub_eq (by decide) (by omega)
        unfold writeLoop
        rw [run_ite, if_neg (by simp [hbo.ne_noIx]),
          bind_of_ok (getDbucketPtr_eq wf.links.steps hb), hsub, run_ite]
        split
        · next hfit =>
          rw [bind_of_ok (copyIn_eq (by omega))]
          exact ⟨.sameLinks wf (.put _ _ _ _), .refl⟩
        · next hlong =>
          have hlen : (buf.take (dbucketBufSize - off)).length = dbucketBufSize - off := by
            rw [List.length_take]
            omega
          rw [bind_of_ok (copyIn_eq (by omega)), writeLoop.nextOrNew]
          have hput : SameLinks s.data (s.data.put b off (buf.take (dbucketBufSize - off))) :=
            .put _ _ _ _
          have wf₁ := wf.sameData hput
          generalize s.data.put b off (buf.take (dbucketBufSize - off)) = d₁ at hput wf₁ ⊢
          by_cases hend : (s.data.bucket b).nextIx = noIx
          · rw [if_pos hend, ends_bind, ends_bind]
            rcases bucketIxAllocAllRandom_cases wf₁.links (env.rand fuel) with
              ⟨ix, hix, hfree, halloc⟩ | ⟨hover, halloc⟩
            · have huse : (d₁.bucket b).inUse = true := (hput.inUse b).trans hbo.2
              have hne : ix ≠ b := by
                rintro rfl
                rw [show (d₁.bucket ix).inUse = false from hfree] at huse
                cases huse
              have hend₁ : d₁.next b = noIx := (hput.next b).trans hend
              have wf₂ := wf₁.grow huse hend₁ hix hfree
              have hlink : (d₁.grow b ix).next b = ix := (grow_next hne).trans (if_pos rfl)
              have hixne : ix ≠ noIx := by
                unfold totBuckets at hix
                unfold noIx
                omega
              have hnew : ∀ c, (d₁.grow b ix).Owned c → s.data.Owned c ∨ c = ix := by
                intro c hc
                by_cases hcix : c = ix
                · exact Or.inr hcix
                · refine Or.inl ⟨hc.1, ?_⟩
                  have h₁ := hc.2
                  rw [grow_inUse, if_neg hcix, hput.inUse] at h₁
                  exact h₁
              have hgr := hput.grows.trans (.link hne hend₁)
              rw [show defaultBuild.getFreeDbucketIx (env.rand fuel) d₁ = _ from halloc, ends_ok,
                ends_bind, ends_modify, ends_pure, ends_bind]
              refine (ih (buf.drop (dbucketBufSize - off)) wf₂ hix
                (fun _ => ⟨hix, by rw [grow_inUse, if_pos rfl]⟩) (by decide)).mono ?_ ?_
              · rintro r d' ⟨hgrown, hr⟩
                obtain ⟨hdone, hreach⟩ := hgrown.step hbo hgr hnew hlink hixne
                exact ⟨hdone, hreach _ hr⟩
              · intro e d' he u hu
                exact ((he u hu).step hbo hgr hnew hlink hixne).1
            · rw [show defaultBuild.getFreeDbucketIx (env.rand fuel) d₁ = _ from halloc, ends_error]
              intro u _
              exact .sameLinks wf hput
          · have hnown : s.data.Owned (s.data.bucket b).nextIx :=
              (wf.links.target b).resolve_left hend
            have hlink : d₁.next b = (s.data.bucket b).nextIx := hput.next b
            have hnew : ∀ c, d₁.Owned c → s.data.Owned c ∨ c = (s.data.bucket b).nextIx :=
              fun c hc => Or.inl ⟨hc.1, (hput.inUse c).symm.trans hc.2⟩
            rw [if_neg hend, run_pure_bind, ends_bind]
            refine (ih (buf.drop (dbucketBufSize - off)) wf₁ hnown.1
              (fun _ => hput.owned hnown) (by decide)).mono ?_ ?_
            · rintro r d' ⟨hgrown, hr⟩
              obtain ⟨hdone, hreach⟩ := hgrown.step hbo hput.grows hnew hlink hend
              exact ⟨hdone, hreach _ hr⟩
            · intro e d' he u hu
              exact ((he u hu).step hbo hput.grows hnew hlink hend).1

end Spacefish
