import Spacefish.FlatFiles
import Spacefish.LayoutRun

/-!
The calls on an open descriptor act on the flat file. The chains stay tight,
every bucket but the last one full, so that an offset determines its bucket; the
two places a cursor may have at the end of a full bucket are one position.
-/

namespace Spacefish

open LinkedArray Program Buffer

/-- The calls of the runs below. -/
def FlatCall : Call → Prop
  | .open _ flags _ => hasFlag flags oTrunc = false ∧ hasFlag flags oAppend = false
  | .close _ => True
  | .read _ _ => True
  | .write _ _ => True
  | .pread _ _ offset => 0 ≤ offset
  | .pwrite _ _ offset => 0 ≤ offset
  | _ => False

/-- Every chain is tight. -/
def AllTight (s : Store) : Prop := ∀ m, s.Used m → Tight s.data (s.ch m)

variable {w w' : World} {rows : Nat → List Int} {ch : Int → List Nat} {env : Env} {call : Call}
  {st : Store} {m : Int} {d d' : DataShm} {pre l new : List Nat} {b off : Nat} {offset : Int}
  {buf : List Byte} {t t' : MetaShm}

theorem FlatCall.not_truncates {pathname : Path} {flags mode : Nat}
    (hcall : FlatCall (.open pathname flags mode)) : truncates flags = false := by
  simp [truncates, oTruncCheck, hcall.1]

theorem Tight.congr (ht : Tight d l) (h : ∀ b ∈ l, (d'.bucket b).bytes = (d.bucket b).bytes) :
    Tight d' l :=
  ht.imp_of_mem (fun hb _ hfull => (h _ hb).trans hfull)

theorem Tight.full_before (ht : Tight d (pre ++ b :: l)) :
    ∀ c ∈ pre, (d.bucket c).bytes = dbucketBufSize :=
  fun c hc => (List.pairwise_append.mp ht).2.2 c hc b (by simp)

/-- The chain of a file stays tight when it is written. -/
theorem StoreWf.wrote_tight {s : Store} {r : Option WriteOut} (wf : StoreWf s) (huse : s.Used m)
    (hsplit : s.ch m = pre ++ b :: l) (hcopy : Copy s.data (b :: l) off buf d' r new)
    (ht : Tight s.data (s.ch m)) : Tight d' (s.ch m ++ new) := by
  obtain ⟨hnodup, hown⟩ := wf.suffix_nodup huse hsplit
  rw [hsplit] at ht
  have hfull : ∀ c ∈ pre, (d'.bucket c).bytes = dbucketBufSize := fun c hc => by
    rw [wf.copy_before huse hsplit hcopy hc]
    exact ht.full_before c hc
  have hlater := hcopy.tight wf.data hnodup hown (List.pairwise_append.mp ht).2.1
  rw [hsplit, List.append_assoc]
  refine List.pairwise_append.mpr ⟨?_, hlater, fun c hc _ _ => hfull c hc⟩
  exact List.pairwise_of_forall_mem_list (fun c hc _ _ => hfull c hc)

/-- A write overwrites the content of the file. -/
theorem StoreWf.wrote_content {s : Store} {out : WriteOut} (wf : StoreWf s) (huse : s.Used m)
    (hsplit : s.ch m = pre ++ b :: l) (hoff : off ≤ (s.data.bucket b).bytes)
    (hcopy : Copy s.data (b :: l) off buf d' (some out) new) (ht : Tight s.data (s.ch m)) :
    content d' (s.ch m ++ new) =
      overwrite (content s.data (s.ch m)) (total s.data pre + off) buf := by
  obtain ⟨hnodup, hown⟩ := wf.suffix_nodup huse hsplit
  rw [hsplit] at ht
  have hlater := hcopy.content_eq rfl wf.data hnodup hown
    (Tight.dense (List.pairwise_append.mp ht).2.1) (fun c hc => by
      obtain rfl : b = c := by simpa using hc
      exact hoff)
  have hbefore : content d' pre = content s.data pre :=
    content_congr (fun c hc => wf.copy_before huse hsplit hcopy hc)
  rw [hsplit, List.append_assoc, content_append, hlater, hbefore, content_append, ← content_length,
    overwrite_append_right]

/-- A write keeps every file tight. -/
theorem StoreWf.wrote_keeps_tight {s : Store} {r : Option WriteOut} {a : Int} (wf : StoreWf s)
    (huse : s.Used m) (hsplit : s.ch m = pre ++ b :: l)
    (hcopy : Copy s.data (b :: l) off buf d' r new) (hua : s.Used a)
    (ht : Tight s.data (s.ch a)) :
    Tight d' (Function.update s.ch m (s.ch m ++ new) a) := by
  by_cases ham : a = m
  · subst ham
    rw [Function.update_self]
    exact wf.wrote_tight huse hsplit hcopy ht
  · rw [Function.update_of_ne ham]
    exact ht.congr (fun c hc => by rw [wf.copy_others huse hsplit hcopy hua ham hc])

/-- The call truncates no file. -/
def Untruncated (call : Call) : Prop :=
  ∀ pathname flags mode, call = .open pathname flags mode → truncates flags = false

theorem FlatCall.untruncated (hcall : FlatCall call) : Untruncated call := by
  rintro pathname flags mode rfl
  exact hcall.not_truncates

/-- A file that was tight before a call, or was not there, is tight after it. -/
theorem Effect.tight {a : Int} (he : Effect w rows ch env call true st)
    (wf : StoreWf (w.store rows ch))
    (ht : (w.table.mb a).inUse = true → Untruncated call ∧ Tight w.data (ch a)) (ha : st.Used a) :
    Tight st.data (st.ch a) := by
  generalize hdone : true = done at he
  cases he with
  | keep => exact (ht ha).2
  | edit huse he hf hlast hoff => exact (ht ((he.inUse hf.toStays a).symm.trans ha)).2
  | write hu huse hsplit hcopy he =>
      have hua := (he.inUse (wroteBy_stays _ _) a).symm.trans ha
      exact wf.wrote_keeps_tight huse hsplit hcopy hua (ht hua).2
  | pwrite hu huse hsplit hlen hcopy he =>
      have hua := (he.inUse (wroteBy_stays _ _) a).symm.trans ha
      exact wf.wrote_keeps_tight huse hsplit hcopy hua (ht hua).2
  | @fill _ p buf h m ix new r w₁ t' g hf he hg =>
      have hstays : Stays g := by
        rcases hg with rfl | rfl
        · exact .id
        · exact Seeks.rewound.toStays
      by_cases ham : a = m
      · subst ham
        simp only [Function.update_self]
        have hown : ∀ c ∈ [ix], (w.data.take ix).Owned c := by
          intro c hc
          obtain rfl : c = ix := by simpa using hc
          exact ⟨hf.bound, by simp [DataShm.take]⟩
        exact hf.copy.tight (wf.data.take hf.bound hf.free) (List.nodup_singleton ix) hown
          (List.pairwise_singleton _ _)
      · have hua : (w.table.mb a).inUse = true :=
          (congrArg FileCore.inUse (hf.file.core_eq ham)).symm.trans
            ((he.inUse hstays a).symm.trans ha)
        simp only [Function.update_of_ne ham]
        exact (ht hua).2.congr
          (fun c hc => congrArg DataBucket.bytes (hf.bucket_eq wf hua hc))
  | bare => cases hdone
  | truncate huse hflag hch he =>
      have hua := (he.inUse ⟨fun _ => rfl, fun _ => rfl, fun _ => rfl⟩ a).symm.trans ha
      rw [(ht hua).1 _ _ _ rfl] at hflag
      cases hflag
  | release _ _ _ hr => exact (ht ((hr.kept (a := a) ha).2.inUse.symm.trans ha)).2
  | rename _ _ hr huse he =>
      have ha₁ := (he.inUse .id a).symm.trans ha
      exact (ht ((hr.kept ha₁).2.1.symm.trans ha₁)).2
  | stuck => exact (ht ha).2

theorem Effect.allTight (he : Effect w rows ch env call true st) (hcall : Untruncated call)
    (wf : StoreWf (w.store rows ch)) (hall : AllTight (w.store rows ch)) : AllTight st :=
  fun a ha => he.tight wf (fun hua => ⟨hcall, hall a hua⟩) ha

/-! Paths. -/

theorem Named.congr (hn : Named t rows) (hin : ∀ a, (t'.mb a).inUse = (t.mb a).inUse)
    (hpath : ∀ a, (t'.mb a).path = (t.mb a).path) : Named t' rows := by
  refine ⟨?_, ?_, ?_⟩
  · intro h hh a ha
    rw [hpath]
    exact hn.hashed h hh a ha
  · intro a ha
    rw [hin] at ha
    rw [hpath]
    exact hn.short a ha
  · intro a b ha hb hab
    rw [hin] at ha hb
    rw [hpath, hpath] at hab
    exact hn.unique a b ha hb hab

theorem Edited.path {f : FileCore → FileCore} (he : Edited t t' m f)
    (hf : ∀ c, (f c).path = c.path) (a : Int) : (t'.mb a).path = (t.mb a).path := by
  by_cases ha : a = m
  · subst ha
    exact (congrArg FileCore.path he.self).trans (hf _)
  · exact congrArg FileCore.path (he.other a ha)

/-- No file has the path for which a bucket is made. -/
theorem Named.absent {h : Nat} {p : Path} (hn : Named t rows) (wf : TableWf t rows)
    (hok : hash p = .ok h) (hnone : findPath t p (rows h) = none) (a : Int)
    (ha : (t.mb a).inUse = true) : (t.mb a).path ≠ p := by
  rintro rfl
  obtain ⟨h', hh', hmem⟩ := (wf.inUse_iff a).mp ha
  have hrow := hn.hashed h' hh' a hmem
  rw [hok] at hrow
  obtain rfl : h = h' := Except.ok.inj hrow
  have hno := findPath_eq_none.mp hnone a hmem
  simp [samePath] at hno

theorem wroteBy_path (r : Option WriteOut) (moves : Bool) (c : FileCore) :
    (wroteBy r moves c).path = c.path := by
  cases r <;> rfl

theorem Effect.named (he : Effect w rows ch env call true st) (hcall : FlatCall call)
    (wf : TableWf w.table rows) (hn : Named w.table rows) : Named st.table st.rows := by
  generalize hdone : true = done at he
  cases he with
  | keep => exact hn
  | edit huse he hf hlast hoff => exact hn.congr (he.inUse hf.toStays) (he.path hf.path)
  | write hu huse hsplit hcopy he =>
      exact hn.congr (he.inUse (wroteBy_stays _ _)) (he.path (wroteBy_path _ _))
  | pwrite hu huse hsplit hlen hcopy he =>
      exact hn.congr (he.inUse (wroteBy_stays _ _)) (he.path (wroteBy_path _ _))
  | @fill _ p buf h m ix new r w₁ t' g hf he hg =>
      obtain ⟨t₁, hc, he₁⟩ := hf.file.edited
      have hg' : Seeks g := by
        rcases hg with rfl | rfl
        · exact .id
        · exact .rewound
      have hnamed := (hc.named wf hn hf.file.hashed hf.short
        (hn.absent wf hf.file.hashed hf.file.absent)).2
      refine hnamed.congr (fun a => ?_) (fun a => ?_)
      · dsimp only
        rw [he.inUse hg'.toStays, he₁.inUse (filledCore_stays _ _ _)]
        by_cases ham : a = m
        · subst ham
          rw [setMb_mb_self]
        · rw [setMb_mb_of_ne _ ham]
      · dsimp only
        rw [he.path hg'.path]
        by_cases ham : a = m
        · subst ham
          rw [setMb_mb_self]
          exact congrArg FileCore.path he₁.self
        · rw [setMb_mb_of_ne _ ham]
          exact congrArg FileCore.path (he₁.other a ham)
  | bare => cases hdone
  | truncate huse hflag hch he =>
      rw [hcall.not_truncates] at hflag
      cases hflag
  | release => exact hcall.elim
  | rename => exact hcall.elim
  | stuck => exact hcall.elim

theorem Edited.idle {f : FileCore → FileCore} {h : Nat} (he : Edited t t' m f)
    (hidle : RowIdle t h) : RowIdle t' h := by
  rw [RowIdle, he.row]
  exact hidle

/-- No row is left locked. -/
theorem Effect.idle (he : Effect w rows ch env call true st) (hcall : FlatCall call)
    (hidle : ∀ h, RowIdle w.table h) (h : Nat) : RowIdle st.table h := by
  generalize hdone : true = done at he
  cases he with
  | keep => exact hidle h
  | edit _ he _ _ _ => exact he.idle (hidle h)
  | write _ _ _ _ he => exact he.idle (hidle h)
  | pwrite _ _ _ _ _ he => exact he.idle (hidle h)
  | fill hf he _ =>
      obtain ⟨t₁, hc, he₁⟩ := hf.file.edited
      exact he.idle (he₁.idle ((hc.locks h).trans (hidle h)))
  | bare => cases hdone
  | truncate _ hflag _ _ =>
      rw [hcall.not_truncates] at hflag
      cases hflag
  | release => exact hcall.elim
  | rename => exact hcall.elim
  | stuck => exact hcall.elim

/-! The place of an offset. -/

theorem hops_eq (hoff : 0 ≤ offset) (hlt : offset < 2 ^ 32) :
    (hops offset * dbucketBufSize : Nat) + within offset = offset.toNat := by
  have hdiv : offset.tdiv dbucketBufSize = offset / dbucketBufSize :=
    Int.tdiv_eq_ediv_of_nonneg hoff
  unfold hops within
  rw [hdiv]
  unfold toInt dbucketBufSize
  omega

/-- In a tight chain the bucket of an offset up to the end holds the byte at it, or
ends right before it. -/
theorem Tight.place (ht : Tight d (pre ++ b :: l)) (hlen : pre.length = hops offset)
    (hoff : 0 ≤ offset) (hlt : offset < 2 ^ 32)
    (hin : offset.toNat ≤ total d (pre ++ b :: l)) :
    total d pre + within offset = offset.toNat ∧ within offset ≤ (d.bucket b).bytes := by
  have hpre := total_of_full ht.full_before
  have hhops := hops_eq hoff hlt
  rw [← hlen] at hhops
  have hw := within_lt offset
  refine ⟨by omega, ?_⟩
  cases l with
  | nil =>
      rw [total_append, total_cons, total_nil] at hin
      omega
  | cons c l =>
      have hfull := (List.pairwise_cons.mp (List.pairwise_append.mp ht).2.1).1 c (by simp)
      omega

/-- No offset inside a file has its bucket behind the chain. -/
theorem total_le_of_short (hle : ∀ b, (d.bucket b).bytes ≤ dbucketBufSize) (hoff : 0 ≤ offset)
    (hshort : l.length ≤ hops offset) : total d l ≤ offset.toNat := by
  have h₁ := total_le (l := l) (fun b _ => hle b)
  have h₂ := hops_le hoff
  have h₃ := Nat.mul_le_mul_right dbucketBufSize hshort
  omega

end Spacefish
