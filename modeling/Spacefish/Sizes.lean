import Spacefish.SysRun

/-!
Sizes under the effects of the calls: `st_size` is the sum of the byte counts of
the chain, every file has a bucket, and the cursor of a file that was placed on
its chain stays on it.
-/

namespace Spacefish

open LinkedArray Program Buffer

/-- `st_size` is the number of bytes on the chain. -/
def Sized (s : Store) : Prop :=
  ∀ m, s.Used m → (s.table.mb m).s.stSize = total s.data (s.ch m)

/-- Every file has at least one bucket. -/
def Live (s : Store) : Prop := ∀ m, s.Used m → s.ch m ≠ []

variable {w : World} {rows : Nat → List Int} {ch : Int → List Nat} {env : Env} {call : Call}
  {done : Bool} {s st : Store} {m a : Int} {pre l new : List Nat} {off : Nat} {buf : List Byte}
  {d' : DataShm} {t t' : MetaShm} {out : WriteOut} {moves : Bool} {f : FileCore → FileCore}

theorem StoreWf.suffix_nodup (wf : StoreWf s) (huse : s.Used m) (hsplit : s.ch m = pre ++ l) :
    l.Nodup ∧ ∀ c ∈ l, s.data.Owned c := by
  have hnodup := wf.nodup huse
  rw [hsplit] at hnodup
  refine ⟨(List.nodup_append.mp hnodup).2.1, fun c hc => wf.owned m huse c ?_⟩
  rw [hsplit]
  exact List.mem_append_right _ hc

/-- No file is larger than the store. -/
theorem StoreWf.total_lt (wf : StoreWf s) (huse : s.Used m) : total s.data (s.ch m) < 2 ^ 32 := by
  have hlen := length_le_totBuckets (wf.nodup huse) (fun b hb => (wf.owned m huse b hb).1)
  have htot := total_le (d := s.data) (l := s.ch m) (fun b _ => wf.bytes_le b)
  unfold totBuckets at hlen
  unfold dbucketBufSize at htot
  omega

/-- The bytes on a chain after a copy into a part of it. -/
theorem StoreWf.copy_total (wf : StoreWf s) (huse : s.Used m) (hsplit : s.ch m = pre ++ l)
    (hcopy : Copy s.data l off buf d' (some out) new) :
    total d' (s.ch m ++ new) = total s.data (s.ch m) + out.sizeInd := by
  obtain ⟨hnodup, hown⟩ := wf.suffix_nodup huse hsplit
  have hpre : total d' pre = total s.data pre :=
    total_congr (fun c hc => by rw [wf.copy_before huse hsplit hcopy hc])
  rw [hsplit, List.append_assoc, total_append, hcopy.total_eq rfl wf.data hnodup hown, hpre,
    total_append]
  omega

theorem Edited.size (he : Edited t t' m f) : (t'.mb m).s.stSize = (f (t.mb m).core).size :=
  congrArg FileCore.size he.self

theorem Edited.size_of_ne (he : Edited t t' m f) (ham : a ≠ m) :
    (t'.mb a).s.stSize = (t.mb a).s.stSize := congrArg FileCore.size (he.other a ham)

/-- A file that a copy was made into has grown by what its buckets have. -/
theorem StoreWf.wrote_size (wf : StoreWf s) (huse : s.Used m) (hsplit : s.ch m = pre ++ l)
    (hcopy : Copy s.data l off buf d' (some out) new)
    (he : Edited s.table t' m (wroteBy (some out) moves))
    (hsmall : (s.table.mb m).s.stSize < 2 ^ 32) :
    (t'.mb m).s.stSize = (s.table.mb m).s.stSize + out.sizeInd := by
  have hua : (t'.mb m).inUse = true := (he.inUse (wroteBy_stays _ _) m).trans huse
  have htotal := wf.copy_total huse hsplit hcopy
  have hlt : total d' (s.ch m ++ new) < 2 ^ 32 := by
    have := (wf.wrote huse hsplit hcopy he).total_lt hua
    simpa only [Function.update_self] using this
  rw [he.size]
  change growSize (s.table.mb m).s.stSize out.sizeInd = _
  unfold growSize
  split
  · rw [uadd_eq (by omega)]
    omega
  · omega

theorem StoreWf.wrote_sized (wf : StoreWf s) (hs : Sized s) (huse : s.Used m)
    (hsplit : s.ch m = pre ++ l) (hcopy : Copy s.data l off buf d' (some out) new)
    (he : Edited s.table t' m (wroteBy (some out) moves)) :
    Sized ⟨t', d', s.rows, Function.update s.ch m (s.ch m ++ new)⟩ := by
  intro a ha
  have hua : s.Used a := (he.inUse (wroteBy_stays _ _) a).symm.trans ha
  by_cases ham : a = m
  · subst ham
    have hsize : (s.table.mb a).s.stSize = total s.data (s.ch a) := hs a huse
    have hlt := wf.total_lt huse
    simp only [Function.update_self]
    rw [wf.wrote_size huse hsplit hcopy he (by omega), hsize, wf.copy_total huse hsplit hcopy]
  · simp only [Function.update_of_ne ham]
    rw [he.size_of_ne ham, hs a hua]
    exact (total_congr (fun c hc => by rw [wf.copy_others huse hsplit hcopy hua ham hc])).symm

/-- A file just made holds what was copied into it. -/
theorem Filled.content_eq {p : Path} {h ix : Nat} {w₁ : World} (hd : DataWf w.data)
    (hf : Filled w rows p buf h m ix new (some out) w₁) : content w₁.data (ix :: new) = buf := by
  have hempty : ((w.data.take ix).bucket ix).bytes = 0 := by
    simpa [DataShm.take] using hd.empty ix hf.free
  have hown : ∀ c ∈ [ix], (w.data.take ix).Owned c := by
    intro c hc
    obtain rfl : c = ix := by simpa using hc
    exact ⟨hf.bound, by simp [DataShm.take]⟩
  have hcopy := hf.copy.content_eq rfl (hd.take hf.bound hf.free) (List.nodup_singleton ix) hown
    (List.pairwise_singleton _ _) (fun _ _ => Nat.zero_le _)
  have hnil : content (w.data.take ix) [ix] = [] := by
    refine content_eq_nil (fun c hc => ?_)
    obtain rfl : c = ix := by simpa using hc
    exact hempty
  rw [hnil] at hcopy
  simpa [overwrite] using hcopy

/-- The buckets of the other files when a file is made. -/
theorem Filled.bucket_eq {p : Path} {h ix : Nat} {w₁ : World} {r : Option WriteOut} {c : Nat}
    (wf : StoreWf (w.store rows ch)) (hf : Filled w rows p buf h m ix new r w₁)
    (ha : (w.table.mb a).inUse = true) (hc : c ∈ ch a) : w₁.data.bucket c = w.data.bucket c := by
  have hcix : c ≠ ix := by
    rintro rfl
    exact wf.not_fresh ha hc hf.free
  have htake : (w.data.take ix).bucket c = w.data.bucket c := set_bucket_of_ne _ hcix
  have huse : (w.data.bucket c).inUse = true := (wf.owned a ha c hc).2
  rw [hf.copy.frame (by simpa using hcix) ?_, htake]
  intro hmem
  have hfree := (hf.copy.fresh hmem).2
  rw [htake, huse] at hfree
  cases hfree

/-- The table entry of a file just made. -/
theorem Filled.core_eq {p : Path} {h ix : Nat} {w₁ : World} {r : Option WriteOut}
    (wf : StoreWf (w.store rows ch)) (hf : Filled w rows p buf h m ix new r w₁) :
    (w.table.mb m).inUse = false ∧ (w₁.table.mb m).core.inUse = true ∧
      (w₁.table.mb m).core.path = p ∧ (w₁.table.mb m).core.first = ix ∧
      (w₁.table.mb m).core.last = noIx ∧ (w₁.table.mb m).core.size = buf.length := by
  obtain ⟨t₁, hc, he⟩ := hf.file.edited
  have hlast : (t₁.mb m).lastDbucket = noIx :=
    hc.new.lastDbucket.trans (wf.unused m hc.fresh)
  rw [he.self]
  exact ⟨hc.fresh, hc.new.inUse, rfl, rfl, hlast, rfl⟩

/-- The table entries of the other files when a file is made. -/
theorem NewFile.core_eq {p : Path} {h : Nat} {w₁ : World} (hn : NewFile w rows p h m f w₁)
    (ham : a ≠ m) : (w₁.table.mb a).core =
      { (w.table.mb a).core with nextIx := (w₁.table.mb a).core.nextIx } := by
  obtain ⟨t₁, hc, he⟩ := hn.edited
  rw [he.other a ham]
  have hs := hc.same a ham
  simp only [MetaBucket.core]
  rw [hs.inUse, hs.path, hs.lock, hs.firstDbucket, hs.lastDbucket, hs.lastDbOffset, hs.s]

theorem Effect.sized (he : Effect w rows ch env call true st) (wf : StoreWf (w.store rows ch))
    (hs : Sized (w.store rows ch)) : Sized st := by
  generalize hdone : true = done at he
  cases he with
  | keep => exact hs
  | @edit _ m t' f huse he hf hlast hoff =>
      intro a ha
      have hua : (w.table.mb a).inUse = true := (he.inUse hf.toStays a).symm.trans ha
      have hsize : (t'.mb a).s.stSize = (w.table.mb a).s.stSize := by
        by_cases ham : a = m
        · subst ham
          exact he.size.trans (hf.size _)
        · exact he.size_of_ne ham
      exact hsize.trans (hs a hua)
  | @write fd buf m pre l new d' t' r hu huse hsplit hcopy he =>
      obtain ⟨out, rfl⟩ := Option.isSome_iff_exists.mp hdone.symm
      exact wf.wrote_sized hs huse hsplit hcopy he
  | @pwrite fd buf offset m b pre l new d' t' r hu huse hsplit hlen hcopy he =>
      obtain ⟨out, rfl⟩ := Option.isSome_iff_exists.mp hdone.symm
      exact wf.wrote_sized hs huse hsplit hcopy he
  | @fill _ p buf h m ix new r w₁ t' g hf he hg =>
      obtain ⟨out, rfl⟩ := Option.isSome_iff_exists.mp hdone.symm
      have hgs : Seeks g := by
        rcases hg with rfl | rfl
        · exact .id
        · exact .rewound
      intro a ha
      by_cases ham : a = m
      · subst ham
        have hcontent := hf.content_eq wf.data
        dsimp only
        rw [he.size, hgs.size, Function.update_self, (hf.core_eq wf).2.2.2.2.2, ← content_length,
          hcontent]
      · have hcore := hf.file.core_eq ham
        have hua : (w.table.mb a).inUse = true := by
          have h₁ := (he.inUse hgs.toStays a).symm.trans ha
          exact (congrArg FileCore.inUse hcore).symm.trans h₁
        dsimp only
        rw [he.size_of_ne ham, Function.update_of_ne ham,
          show (w₁.table.mb a).s.stSize = (w.table.mb a).s.stSize from
            congrArg FileCore.size hcore]
        have hsize : (w.table.mb a).s.stSize = total w.data (ch a) := hs a hua
        rw [hsize]
        exact (total_congr (fun c hc => by rw [hf.bucket_eq wf hua hc])).symm
  | bare _ _ _ => cases hdone
  | @truncate pathname flags mode m t' huse hflag hch he =>
      intro a ha
      have hua : (w.table.mb a).inUse = true :=
        (he.inUse ⟨fun _ => rfl, fun _ => rfl, fun _ => rfl⟩ a).symm.trans ha
      by_cases ham : a = m
      · subst ham
        dsimp only
        rw [he.size, total_clear]
        rfl
      · dsimp only
        rw [he.size_of_ne ham]
        have hsize : (w.table.mb a).s.stSize = total w.data (ch a) := hs a hua
        rw [hsize]
        refine (total_congr (fun c hc => ?_)).symm
        have hcm : c ∉ ch m := fun hcm => ham (wf.apart a m hua huse c hc hcm)
        rw [clear_of_not_mem hcm]
  | release _ _ _ hr =>
      intro a ha
      obtain ⟨_, hsb⟩ := hr.kept (a := a) ha
      have hua : (w.table.mb a).inUse = true := hsb.inUse.symm.trans ha
      dsimp only
      rw [hsb.s]
      exact hs a hua
  | @rename old new hn m b lost p t₁ t' rows' hpath hover hr huse he =>
      intro a ha
      have ha₁ : (t₁.mb a).inUse = true := (he.inUse .id a).symm.trans ha
      obtain ⟨_, huse', _, _, _, hstat⟩ := hr.kept ha₁
      have hsize : (t'.mb a).s.stSize = (t₁.mb a).s.stSize := by
        by_cases hab : a = b
        · subst hab
          exact he.size
        · exact he.size_of_ne hab
      dsimp only
      rw [hsize, hstat]
      exact hs a (huse'.symm.trans ha₁)
  | stuck ho hn => exact hs

theorem Effect.live (he : Effect w rows ch env call true st) (hl : Live (w.store rows ch)) :
    Live st := by
  generalize hdone : true = done at he
  have hgrow : ∀ (m : Int) (new : List Nat), (w.table.mb m).inUse = true → ∀ a,
      (w.table.mb a).inUse = true → Function.update ch m (ch m ++ new) a ≠ [] := by
    intro m new huse a ha
    by_cases ham : a = m
    · subst ham
      rw [Function.update_self]
      exact fun hnil => hl a huse (List.append_eq_nil_iff.mp hnil).1
    · rw [Function.update_of_ne ham]
      exact hl a ha
  cases he with
  | keep => exact hl
  | edit huse he hf _ _ => exact fun a ha => hl a ((he.inUse hf.toStays a).symm.trans ha)
  | write hu huse hsplit hcopy he =>
      exact fun a ha => hgrow _ _ huse a ((he.inUse (wroteBy_stays _ _) a).symm.trans ha)
  | pwrite hu huse hsplit hlen hcopy he =>
      exact fun a ha => hgrow _ _ huse a ((he.inUse (wroteBy_stays _ _) a).symm.trans ha)
  | @fill _ p buf h m ix new r w₁ t' g hf he hg =>
      have hgs : Stays g := by
        rcases hg with rfl | rfl
        · exact .id
        · exact Seeks.rewound.toStays
      intro a ha
      by_cases ham : a = m
      · subst ham
        simp
      · dsimp only
        rw [Function.update_of_ne ham]
        have h₁ := (he.inUse hgs a).symm.trans ha
        exact hl a ((congrArg FileCore.inUse (hf.file.core_eq ham)).symm.trans h₁)
  | bare _ _ _ => cases hdone
  | truncate huse _ _ he =>
      exact fun a ha => hl a
        ((he.inUse ⟨fun _ => rfl, fun _ => rfl, fun _ => rfl⟩ a).symm.trans ha)
  | release _ _ _ hr =>
      intro a ha
      have hsb := (hr.kept (a := a) ha).2
      exact hl a (hsb.inUse.symm.trans ha)
  | rename _ _ hr huse he =>
      intro a ha
      have ha₁ := (he.inUse .id a).symm.trans ha
      exact hl a ((hr.kept ha₁).2.1.symm.trans ha₁)
  | stuck ho hn => exact hl

/-- A write leaves the cursor of a file where it was or on a bucket of the file. -/
theorem Copy.last_ne {m : Int} {pre l new : List Nat} {off : Nat} {buf : List Byte} {d' : DataShm}
    {t' : MetaShm} {r : Option WriteOut} {moves : Bool} (hcopy : Copy w.data l off buf d' r new)
    (wf : StoreWf (w.store rows ch)) (hm : (w.table.mb m).inUse = true) (hsplit : ch m = pre ++ l)
    (he : Edited w.table t' m (wroteBy r moves)) (hlast : (w.table.mb a).lastDbucket ≠ noIx) :
    (t'.mb a).lastDbucket ≠ noIx := by
  by_cases ham : a = m
  · subst ham
    rw [he.last]
    cases r with
    | none => exact hlast
    | some out =>
        cases moves with
        | false => exact hlast
        | true =>
            obtain ⟨hnodup, hown⟩ := wf.suffix_nodup hm hsplit
            obtain ⟨l₁, l₂, hl', _⟩ := hcopy.cursor rfl wf.data hnodup hown
            have hmem : out.dbindex ∈ l ++ new := by
              rw [hl']
              simp
            rcases List.mem_append.mp hmem with hmem | hmem
            · exact (hown _ hmem).ne_noIx
            · have hlt := (hcopy.fresh hmem).1
              intro heq
              have heq' : out.dbindex = noIx := heq
              rw [heq'] at hlt
              exact absurd hlt (by decide)
  · rw [he.last_of_ne ham]
    exact hlast

/-- A cursor on the chain of a file stays on a chain. -/
theorem Effect.placed (he : Effect w rows ch env call done st) (wf : StoreWf (w.store rows ch))
    (hl : ch a ≠ []) (huse : (w.table.mb a).inUse = true) (ha : st.Used a)
    (hlast : (w.table.mb a).lastDbucket ≠ noIx) : (st.table.mb a).lastDbucket ≠ noIx := by
  cases he with
  | keep => exact hlast
  | @edit _ m t' f hm he hf hlast' hoff =>
      by_cases ham : a = m
      · subst ham
        dsimp only
        rw [he.last]
        rcases hlast' with hmem | ⟨_, hnil | hnil⟩
        · exact (wf.owned a hm _ hmem).ne_noIx
        · exact absurd hnil hl
        · exact absurd hnil hlast
      · dsimp only
        rw [he.last_of_ne ham]
        exact hlast
  | write hu hm hsplit hcopy he => exact hcopy.last_ne wf hm hsplit he hlast
  | pwrite hu hm hsplit hlen hcopy he => exact hcopy.last_ne wf hm hsplit he hlast
  | @fill _ p buf h m ix new r w₁ t' g hf he hg =>
      have ham : a ≠ m := by
        rintro rfl
        rw [(hf.core_eq wf).1] at huse
        cases huse
      dsimp only
      rw [he.last_of_ne ham]
      exact fun hnil => hlast ((congrArg FileCore.last (hf.file.core_eq ham)).symm.trans hnil)
  | @bare _ p h m f w₁ hn hf hsame =>
      have ham : a ≠ m := by
        rintro rfl
        obtain ⟨t₁, hc, _⟩ := hn.edited
        rw [hc.fresh] at huse
        cases huse
      exact fun hnil => hlast ((congrArg FileCore.last (hn.core_eq ham)).symm.trans hnil)
  | @truncate pathname flags mode m t' hm hflag hch he =>
      by_cases ham : a = m
      · subst ham
        dsimp only
        rw [he.last]
        have hfirst : (w.table.mb a).firstDbucket = (ch a).head?.getD noIx :=
          (wf.linked a hm).head_eq
        change (w.table.mb a).firstDbucket ≠ noIx
        have hmem : (w.table.mb a).firstDbucket ∈ ch a := by
          rw [hfirst]
          cases hca : ch a with
          | nil => exact absurd hca hch
          | cons b l => simp
        exact (wf.owned a hm _ hmem).ne_noIx
      · dsimp only
        rw [he.last_of_ne ham]
        exact hlast
  | release _ _ _ hr =>
      dsimp only
      rw [(hr.kept (a := a) ha).2.lastDbucket]
      exact hlast
  | @rename old new hn m b lost p t₁ t' rows' hpath hover hr hb he =>
      have ha₁ : (t₁.mb a).inUse = true := (he.inUse .id a).symm.trans ha
      have hsame : (t'.mb a).lastDbucket = (t₁.mb a).lastDbucket := by
        by_cases hab : a = b
        · subst hab
          exact he.last
        · exact he.last_of_ne hab
      dsimp only
      rw [hsame, (hr.kept ha₁).2.2.2.1]
      exact hlast
  | stuck ho hn => exact hlast

end Spacefish
