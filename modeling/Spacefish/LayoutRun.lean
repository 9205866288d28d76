import Spacefish.Layout

/-!
The layout of files over whole runs. `write` continues at the shared cursor, and
`read` moves that cursor over the empty buckets a truncation leaves; a `write`
that starts behind a bucket which is not full breaks the layout. As long as no
call does this, every file is laid out by offset, also after calls that ended
their process.
-/

namespace Spacefish

open LinkedArray Program Buffer

/-- The size of a file is covered by its buckets: by the bytes in them, or, when
an upload ran out of buckets, by nothing but full ones, which then are all the
file will ever have. -/
def Covered (s : Store) (m : Int) : Prop :=
  (s.table.mb m).s.stSize ≤ total s.data (s.ch m) ∨
    ((∀ b ∈ s.ch m, (s.data.bucket b).bytes = dbucketBufSize) ∧ (s.ch m = [] ∨ DataFull s.data))

/-- Every file is dense. -/
def AllDense (s : Store) : Prop := ∀ m, s.Used m → Dense s.data (s.ch m) ∧ Covered s m

variable {w : World} {rows : Nat → List Int} {ch : Int → List Nat} {env : Env} {call : Call}
  {done : Bool} {s st : Store} {m a : Int} {pre l new : List Nat} {off : Nat} {buf : List Byte}
  {d d' : DataShm} {t t' : MetaShm} {r : Option WriteOut} {moves : Bool}

/-! Copies in a full store. -/

theorem DataFull.copy (hfull : DataFull d) (hcopy : Copy d l off buf d' r new) : DataFull d' :=
  fun b hb => hcopy.inUse.mpr (Or.inl (hfull b hb))

theorem DataFull.no_new (hfull : DataFull d) (hcopy : Copy d l off buf d' r new) : new = [] := by
  cases new with
  | nil => rfl
  | cons c new =>
      obtain ⟨hlt, hfree⟩ := hcopy.fresh (List.mem_cons_self ..)
      rw [hfull c hlt] at hfree
      cases hfree

/-- A copy that ran out of buckets has filled the whole chain and the store. -/
theorem Copy.full_of_none (hcopy : Copy d l off buf d' r new) (hr : r = none) (hd : DataWf d)
    (hnodup : l.Nodup) (hown : ∀ a ∈ l, d.Owned a) :
    DataFull d' ∧ ∀ b ∈ l ++ new, (d'.bucket b).bytes = dbucketBufSize := by
  induction hcopy with
  | last hfit => cases hr
  | @next d b c l off chunk buf d' r new hfull hmore hrest ih =>
      obtain ⟨hb, htail⟩ := List.nodup_cons.mp hnodup
      have huse := (hown b (by simp)).2
      obtain ⟨hover, hall⟩ := ih (Option.map_eq_none_iff.mp hr) (hd.put huse (by omega)) htail
        (owned_put (fun a ha => hown a (List.mem_cons_of_mem _ ha)))
      refine ⟨hover, ?_⟩
      intro a ha
      rcases List.mem_cons.mp ha with rfl | ha
      · have := hd.bytes_le a
        rw [hrest.bucket_done hb (by rw [put_inUse]; exact huse), put_bytes_self (by omega), hfull]
        omega
      · exact hall a ha
  | @grow d b ix off chunk buf d' r new hfull hmore hix hfree hrest ih =>
      have huse := (hown b (by simp)).2
      have hb := grow_not_mem huse hfree
      have hne : ix ≠ b := fun heq => hb (by simp [heq])
      obtain ⟨hover, hall⟩ := ih (Option.map_eq_none_iff.mp hr)
        ((hd.put huse (by omega)).grow (by rw [put_inUse]; exact huse) hix
          (by rw [put_inUse]; exact hfree)) (List.nodup_singleton ix) (owned_grow hix)
      refine ⟨hover, ?_⟩
      intro a ha
      rcases List.mem_cons.mp ha with rfl | ha
      · have := hd.bytes_le a
        rw [hrest.bucket_done hb (by rw [grow_inUse, if_neg hne.symm, put_inUse]; exact huse),
          grow_bytes, put_bytes_self (by omega), hfull]
        omega
      · exact hall a ha
  | @full d b off chunk buf hfull hmore hover =>
      refine ⟨fun c hc => by rw [put_inUse]; exact hover c hc, ?_⟩
      intro a ha
      obtain rfl : a = b := by simpa using ha
      have := hd.bytes_le a
      rw [put_bytes_self (by omega), hfull]
      omega

/-! One write. -/

theorem Copy.total_mono (hcopy : Copy d l off buf d' r new) (k : List Nat) :
    total d k ≤ total d' k := by
  induction k with
  | nil => exact Nat.le_refl 0
  | cons b k ih =>
      have hb : (d.bucket b).bytes ≤ (d'.bucket b).bytes := hcopy.bytes_ge
      rw [total_cons, total_cons]
      omega

theorem growSize_le (size ind : Nat) : growSize size ind ≤ size + ind := by
  unfold growSize uadd
  split
  · have := Nat.mod_le (ind + size) (2 ^ 64)
    omega
  · omega

/-- The size of a file stays covered when it is written. -/
theorem StoreWf.wrote_covered (wf : StoreWf s) (hcov : Covered s m) (huse : s.Used m)
    (hsplit : s.ch m = pre ++ l) (hcopy : Copy s.data l off buf d' r new)
    (he : Edited s.table t' m (wroteBy r moves)) :
    Covered ⟨t', d', s.rows, Function.update s.ch m (s.ch m ++ new)⟩ m := by
  unfold Covered
  simp only [Function.update_self]
  rw [he.size]
  rcases hcov with hsize | ⟨hfull, hnil | hover⟩
  · refine Or.inl ?_
    cases r with
    | none =>
        have hmono := hcopy.total_mono (s.ch m)
        change (s.table.mb m).s.stSize ≤ _
        rw [total_append]
        omega
    | some out =>
        have hgrow := growSize_le (s.table.mb m).s.stSize out.sizeInd
        rw [wf.copy_total huse hsplit hcopy]
        change growSize (s.table.mb m).s.stSize out.sizeInd ≤ _
        omega
  · rw [hsplit, List.append_eq_nil_iff] at hnil
    rw [hnil.2] at hcopy
    cases hcopy
  · refine Or.inr ⟨?_, Or.inr (hover.copy hcopy)⟩
    rw [hover.no_new hcopy, List.append_nil]
    intro b hb
    have hge : (s.data.bucket b).bytes ≤ (d'.bucket b).bytes := hcopy.bytes_ge
    have hle : (d'.bucket b).bytes ≤ dbucketBufSize := (wf.copy _ huse hsplit hcopy).bytes_le b
    rw [hfull b hb] at hge
    omega

/-- A file that a call leaves alone. -/
theorem AllDense.other (hall : AllDense s) (ha : s.Used a)
    (hsize : (t'.mb a).s.stSize = (s.table.mb a).s.stSize)
    (hbucket : ∀ c ∈ s.ch a, (d'.bucket c).bytes = (s.data.bucket c).bytes)
    (hfull : DataFull s.data → DataFull d') :
    Dense d' (s.ch a) ∧ ((t'.mb a).s.stSize ≤ total d' (s.ch a) ∨
      ((∀ b ∈ s.ch a, (d'.bucket b).bytes = dbucketBufSize) ∧ (s.ch a = [] ∨ DataFull d'))) := by
  obtain ⟨hdense, hcov⟩ := hall a ha
  refine ⟨hdense.imp_of_mem ?_, ?_⟩
  · intro b c hb hc h
    rw [hbucket b hb, hbucket c hc]
    exact h
  · rw [hsize, total_congr hbucket]
    refine hcov.imp id (fun ⟨h₁, h₂⟩ => ⟨fun b hb => (hbucket b hb).trans (h₁ b hb), ?_⟩)
    exact h₂.imp id hfull

/-- An edit of the table that changes no size. -/
theorem AllDense.unchanged (hall : AllDense s)
    (huse : ∀ a, (t'.mb a).inUse = (s.table.mb a).inUse)
    (hsize : ∀ a, (t'.mb a).s.stSize = (s.table.mb a).s.stSize) :
    AllDense { s with table := t' } :=
  fun a ha => hall.other ((huse a).symm.trans ha) (hsize a) (fun _ _ => rfl) id

/-- A write that starts behind full buckets only keeps the files dense. -/
theorem StoreWf.wrote_dense (wf : StoreWf s) (hall : AllDense s) (huse : s.Used m)
    (hsplit : s.ch m = pre ++ l) (hpre : ∀ b ∈ pre, (s.data.bucket b).bytes = dbucketBufSize)
    (hcopy : Copy s.data l off buf d' r new) (he : Edited s.table t' m (wroteBy r moves)) :
    AllDense ⟨t', d', s.rows, Function.update s.ch m (s.ch m ++ new)⟩ := by
  intro a ha
  have hua : s.Used a := (he.inUse (wroteBy_stays _ _) a).symm.trans ha
  by_cases ham : a = m
  · subst ham
    refine ⟨?_, wf.wrote_covered (hall a huse).2 huse hsplit hcopy he⟩
    obtain ⟨hnodup, hown⟩ := wf.suffix_nodup huse hsplit
    have hdense := (hall a huse).1
    rw [hsplit] at hdense
    have hlater := hcopy.dense wf.data hnodup hown (List.pairwise_append.mp hdense).2.1
    simp only [Function.update_self]
    rw [hsplit, List.append_assoc]
    have hfull : ∀ b ∈ pre, (d'.bucket b).bytes = dbucketBufSize := fun b hb => by
      rw [wf.copy_before huse hsplit hcopy hb]
      exact hpre b hb
    refine List.pairwise_append.mpr ⟨?_, hlater, ?_⟩
    · refine List.pairwise_of_forall_mem_list (fun b hb c _ hlt => ?_)
      rw [hfull b hb] at hlt
      exact absurd hlt (Nat.lt_irrefl _)
    · intro b hb c _ hlt
      rw [hfull b hb] at hlt
      exact absurd hlt (Nat.lt_irrefl _)
  · have hother := hall.other hua (he.size_of_ne ham)
      (fun c hc => by rw [wf.copy_others huse hsplit hcopy hua ham hc])
      (fun hfull => hfull.copy hcopy)
    simpa only [Covered, Function.update_of_ne ham] using hother

/-- A copy of nothing. -/
theorem Copy.eq_of_nil (hcopy : Copy d l off [] d' r new)
    (hoff : ∀ b ∈ l.head?, off ≤ (d.bucket b).bytes) :
    d' = d ∧ new = [] ∧ ∃ out, r = some out ∧ out.sizeInd = 0 := by
  generalize hbuf : ([] : List Byte) = buf at hcopy
  cases hcopy with
  | @last _ b l off buf hfit =>
      subst hbuf
      have hb := hoff b (by simp)
      refine ⟨put_nil hb, rfl, _, rfl, ?_⟩
      simp only [DataShm.gain, List.length_nil]
      omega
  | next hfull hmore hrest => exact absurd (List.append_eq_nil_iff.mp hbuf.symm).2 hmore
  | grow hfull hmore hix hfree hrest => exact absurd (List.append_eq_nil_iff.mp hbuf.symm).2 hmore
  | full hfull hmore hover => exact absurd (List.append_eq_nil_iff.mp hbuf.symm).2 hmore

/-- Where a write may start: `write` at a cursor with nothing but full buckets
before it, unless there is nothing to write; `pwrite` at an offset that does not
lie behind the end of the file. -/
def StartsOk (w : World) (ch : Int → List Nat) : Call → Prop
  | .write fd buf => buf ≠ [] → ∀ m : Nat, UserFd w fd m → ∀ pre l,
      ch m = pre ++ (w.table.mb m).lastDbucket :: l →
      ∀ b ∈ pre, (w.data.bucket b).bytes = dbucketBufSize
  | .pwrite fd _ offset => ∀ m : Nat, UserFd w fd m → offset ≤ (w.table.mb m).s.stSize
  | .unlink _ => False
  | .rename _ _ => False
  | _ => True

/-- The buckets before an offset inside a dense file are full. -/
theorem Dense.full_before {b : Nat} (hl : Dense d (pre ++ b :: l))
    (hle : ∀ b, (d.bucket b).bytes ≤ dbucketBufSize)
    (hlen : pre.length * dbucketBufSize ≤ total d (pre ++ b :: l)) :
    ∀ c ∈ pre, (d.bucket c).bytes = dbucketBufSize := by
  induction pre with
  | nil => simp
  | cons c pre ih =>
      rw [List.cons_append] at hl hlen
      obtain ⟨hc, htail⟩ := dense_cons.mp hl
      have hcle := hle c
      have hfull : (d.bucket c).bytes = dbucketBufSize := by
        by_contra hne
        have hnil := congrArg List.length (hc (by omega))
        rw [content_length, List.length_nil] at hnil
        rw [total_cons, hnil, List.length_cons, Nat.succ_mul] at hlen
        have := Nat.zero_le (pre.length * dbucketBufSize)
        omega
      intro a ha
      rcases List.mem_cons.mp ha with rfl | ha
      · exact hfull
      · refine ih htail ?_ a ha
        rw [total_cons, hfull, List.length_cons, Nat.succ_mul] at hlen
        omega

theorem hops_le {offset : Int} (hoff : 0 ≤ offset) : (hops offset * dbucketBufSize : Nat) ≤ offset := by
  have hdiv : offset.tdiv dbucketBufSize = offset / dbucketBufSize := Int.tdiv_eq_ediv_of_nonneg hoff
  unfold hops
  rw [hdiv]
  unfold toInt dbucketBufSize
  omega

/-- The buckets before the place of an offset that does not lie behind the end
of the file. -/
theorem AllDense.full_before {offset : Int} {b : Nat} (wf : StoreWf s) (hall : AllDense s)
    (huse : s.Used m) (hsplit : s.ch m = pre ++ b :: l) (hlen : pre.length = hops offset)
    (hoff : 0 ≤ offset) (hin : offset ≤ (s.table.mb m).s.stSize) :
    ∀ c ∈ pre, (s.data.bucket c).bytes = dbucketBufSize := by
  obtain ⟨hdense, hsize | ⟨hfull, _⟩⟩ := hall m huse
  · rw [hsplit] at hdense hsize
    refine hdense.full_before wf.bytes_le ?_
    have hhops := hops_le hoff
    rw [hlen]
    omega
  · intro c hc
    exact hfull c (by rw [hsplit]; exact List.mem_append_left _ hc)

/-- A file just made is dense. -/
theorem Filled.allDense {p : Path} {h ix : Nat} {w₁ : World} {g : FileCore → FileCore}
    (wf : StoreWf (w.store rows ch)) (hall : AllDense (w.store rows ch))
    (hf : Filled w rows p buf h m ix new r w₁) (he : Edited w₁.table t' m g) (hg : Seeks g) :
    AllDense ⟨t', w₁.data, Function.update rows h (rows h ++ [m]),
      Function.update ch m (ix :: new)⟩ := by
  have hown : ∀ c ∈ [ix], (w.data.take ix).Owned c := by
    intro c hc
    obtain rfl : c = ix := by simpa using hc
    exact ⟨hf.bound, by simp [DataShm.take]⟩
  have hd := wf.data.take hf.bound hf.free
  intro a ha
  by_cases ham : a = m
  · subst ham
    have hdense : Dense w₁.data (ix :: new) :=
      hf.copy.dense hd (List.nodup_singleton ix) hown (List.pairwise_singleton _ _)
    simp only [Covered, Function.update_self]
    refine ⟨hdense, ?_⟩
    cases r with
    | some out =>
        refine Or.inl (Nat.le_of_eq ?_)
        rw [he.size, hg.size, (hf.core_eq wf).2.2.2.2.2, ← content_length, hf.content_eq wf.data]
    | none =>
        obtain ⟨hover, hfull⟩ := hf.copy.full_of_none rfl hd (List.nodup_singleton ix) hown
        exact Or.inr ⟨hfull, Or.inr hover⟩
  · have hcore := hf.file.core_eq ham
    have hua : (w.table.mb a).inUse = true :=
      (congrArg FileCore.inUse hcore).symm.trans ((he.inUse hg.toStays a).symm.trans ha)
    have hsize : (t'.mb a).s.stSize = (w.table.mb a).s.stSize :=
      (he.size_of_ne ham).trans (congrArg FileCore.size hcore)
    have hother := hall.other hua hsize (fun c hc => congrArg DataBucket.bytes (hf.bucket_eq wf hua hc))
      (fun hover => absurd ((hover ix hf.bound).symm.trans hf.free) (by simp))
    simp only [Covered, Function.update_of_ne ham]
    exact hother

theorem Effect.allDense (he : Effect w rows ch env call done st) (wf : StoreWf (w.store rows ch))
    (hall : AllDense (w.store rows ch)) (hok : CallOk call) (hstart : StartsOk w ch call) :
    AllDense st := by
  cases he with
  | keep => exact hall
  | @edit _ m t' f huse he hf hlast hoff =>
      refine hall.unchanged (he.inUse hf.toStays) (fun a => ?_)
      by_cases ham : a = m
      · subst ham
        exact he.size.trans (hf.size _)
      · exact he.size_of_ne ham
  | @write fd buf m pre l new d' t' r hu huse hsplit hcopy he =>
      by_cases hbuf : buf = []
      · subst hbuf
        have hcur : (w.table.mb m).lastDbucket ≠ noIx :=
          (wf.owned m huse _ (by rw [show (w.store rows ch).ch m = _ from hsplit]; simp)).ne_noIx
        have hin := (wf.inBucket m huse hcur).2
        obtain ⟨rfl, rfl, out, rfl, hgain⟩ := hcopy.eq_of_nil (fun b hb => by
          obtain rfl : (w.table.mb m).lastDbucket = b := by simpa using hb
          exact Int.toNat_le.mpr hin)
        rw [List.append_nil, Function.update_eq_self]
        refine hall.unchanged (he.inUse (wroteBy_stays _ _)) (fun a => ?_)
        by_cases ham : a = m
        · subst ham
          rw [he.size]
          change growSize (w.table.mb m).s.stSize out.sizeInd = _
          rw [hgain]
          rfl
        · exact he.size_of_ne ham
      · exact wf.wrote_dense hall huse hsplit (hstart hbuf m hu pre l hsplit) hcopy he
  | @pwrite fd buf offset m b pre l new d' t' r hu huse hsplit hlen hcopy he =>
      exact wf.wrote_dense hall huse hsplit
        (hall.full_before wf huse hsplit hlen hok (hstart m hu)) hcopy he
  | @fill _ p buf h m ix new r w₁ t' g hf he hg =>
      refine hf.allDense wf hall he ?_
      rcases hg with rfl | rfl
      · exact .id
      · exact .rewound
  | @bare _ p h m f w₁ hn hf hsame =>
      intro a ha
      by_cases ham : a = m
      · subst ham
        simp only [Covered, Function.update_self]
        exact ⟨List.Pairwise.nil, Or.inr ⟨by simp, Or.inl trivial⟩⟩
      · have hcore := hn.core_eq ham
        have hsize : (w₁.table.mb a).s.stSize = (w.table.mb a).s.stSize :=
          congrArg FileCore.size hcore
        have hother := hall.other ((congrArg FileCore.inUse hcore).symm.trans ha) hsize
          (fun _ _ => rfl) id
        simp only [Covered, Function.update_of_ne ham]
        exact hother
  | @truncate pathname flags mode m t' huse hflag hch he =>
      intro a ha
      have hua : (w.table.mb a).inUse = true :=
        (he.inUse ⟨fun _ => rfl, fun _ => rfl, fun _ => rfl⟩ a).symm.trans ha
      by_cases ham : a = m
      · subst ham
        refine ⟨?_, Or.inl ?_⟩
        · refine List.pairwise_of_forall_mem_list (fun b _ c hc _ => ?_)
          exact clear_bytes hc
        · rw [he.size]
          exact Nat.zero_le _
      · have hbucket : ∀ c ∈ ch a, ((w.data.clear (ch m)).bucket c).bytes =
            (w.data.bucket c).bytes := by
          intro c hc
          have hcm : c ∉ ch m := fun hcm => ham (wf.apart a m hua huse c hc hcm)
          rw [clear_of_not_mem hcm]
        refine hall.other hua (he.size_of_ne ham) hbucket ?_
        · intro hover b hb
          rw [clear_inUse]
          exact hover b hb
  | release hpath huse hname hr => exact absurd hstart id
  | rename hpath hover hr huse he => exact absurd hstart id
  | stuck ho hn => exact absurd hstart id

/-- The bytes of every file lie where their offsets say; equivalently, once a
bucket of a chain is not full, the later ones are empty. -/
def OffsetLayout (s : Sys) : Prop :=
  ∀ m, (s.table.mb m).inUse = true →
    (∀ k < (s.table.mb m).s.stSize, ∀ v, (content s.data (fileChain s m))[k]? = some v →
      ∃ b, (fileChain s m)[k / dbucketBufSize]? = some b ∧
        k % dbucketBufSize < (s.data.bucket b).bytes ∧
        (s.data.bucket b).buf (k % dbucketBufSize) = v) ∧
    Dense s.data (fileChain s m)

/-- The calls of the runs below: an `open` without `O_APPEND`, `close`, `read`,
`write`, and `pread` and `pwrite` at offsets from the start to the end of the
file. -/
def LayoutAllowed (s : Sys) (e : Event) (out : Out) : Prop :=
  (match e.call with
    | .open _ flags _ => hasFlag flags oAppend = false
    | .pread fd _ offset => 0 ≤ offset ∧
        ∀ m : Nat, UserFd (s.view e.pid) fd m → offset ≤ (s.table.mb m).s.stSize
    | .pwrite fd _ offset => 0 ≤ offset ∧
        ∀ m : Nat, UserFd (s.view e.pid) fd m → offset ≤ (s.table.mb m).s.stSize
    | .unlink _ => False
    | .rename _ _ => False
    | _ => True) ∧ ReturnsOrExits out

/-- A `write` with data starts behind full buckets only. -/
def WritesInOrder (s : Sys) (e : Event) : Prop :=
  match e.call with
  | .write fd buf => buf ≠ [] → ∀ m : Nat, UserFd (s.view e.pid) fd m → ∀ pre l,
      fileChain s m = pre ++ (s.table.mb m).lastDbucket :: l →
      ∀ b ∈ pre, (s.data.bucket b).bytes = dbucketBufSize
  | _ => True

structure LayoutInv (s : Sys) (rows : Nat → List Int) (ch : Int → List Nat) : Prop where
  wf : SysWf s rows ch
  dense : AllDense (s.store rows ch)

variable {σ σ' : Sys} {e : Event} {o : Out}

theorem LayoutAllowed.ok (hallow : LayoutAllowed σ e o) :
    CallOk e.call ∧ Spares σ e := by
  obtain ⟨hcall, _⟩ := hallow
  unfold Spares
  cases hc : e.call <;> rw [hc] at hcall <;> simp_all [CallOk, Hits]

theorem LayoutAllowed.starts (hallow : LayoutAllowed σ e o) (hord : WritesInOrder σ e)
    (hinv : LayoutInv σ rows ch) : StartsOk (σ.view e.pid) ch e.call := by
  obtain ⟨hcall, _⟩ := hallow
  unfold WritesInOrder at hord
  cases hc : e.call with
  | write fd buf =>
      rw [hc] at hord
      intro hbuf m hu pre l hsplit
      have huse := (hu.used (hinv.wf.slots e.pid _)).1
      have hchain : fileChain σ m = ch m := hinv.wf.store.toLinkWf.fileChain_eq huse
      exact hord hbuf m hu pre l (hchain.trans hsplit)
  | pwrite fd buf offset =>
      rw [hc] at hcall
      exact hcall.2
  | unlink pathname =>
      rw [hc] at hcall
      exact hcall
  | rename old new =>
      rw [hc] at hcall
      exact hcall
  | _ => trivial

theorem LayoutInv.step (hinv : LayoutInv σ rows ch) (hallow : LayoutAllowed σ e o)
    (hord : WritesInOrder σ e) (hexec : exec defaultBuild σ e = (o, σ')) :
    ∃ rows' ch', LayoutInv σ' rows' ch' := by
  obtain ⟨hok, hspares⟩ := hallow.ok
  obtain ⟨done, rows', ch', hstep⟩ := exec_step hinv.wf hok hexec hallow.2
  exact ⟨rows', ch', hstep.sysWf hinv.wf hspares,
    hstep.effect.allDense hinv.wf.store hinv.dense hok (hallow.starts hord hinv)⟩

theorem LayoutInv.layout (hinv : LayoutInv σ rows ch) : OffsetLayout σ := by
  intro m huse
  have wf := hinv.wf.store
  rw [wf.toLinkWf.fileChain_eq huse]
  have hdense := (hinv.dense m huse).1
  exact ⟨fun k _ v hv => hdense.laidOut wf.bytes_le k v hv, hdense⟩

theorem initSys_layoutInv : LayoutInv initSys (fun _ => []) (fun _ => []) :=
  ⟨initSys_wf, fun _ hm => absurd hm Bool.false_ne_true⟩

/-- In every state that such a run reaches the files are laid out by offset,
provided that no `write` starts behind a bucket that is not full. -/
theorem run_layout {s : Sys}
    (hrun : Run defaultBuild (fun s e out => LayoutAllowed s e out ∧ WritesInOrder s e) initSys s) :
    OffsetLayout s := by
  obtain ⟨rows, ch, hinv⟩ := hrun.invariant (P := fun s => ∃ rows ch, LayoutInv s rows ch)
    ⟨_, _, initSys_layoutInv⟩ (fun s e out s' hinv hallow hexec => by
      obtain ⟨rows, ch, hinv⟩ := hinv
      exact hinv.step hallow.1 hallow.2 hexec)
  exact hinv.layout

theorem run_layout_pwrite :
    OffsetLayout (afterCalls [.open pathA 66 0, .pwrite 1024 [1, 2, 3] 0]) := by
  refine run_layout (run_of_allReturn (by decide +kernel) ?_)
  intro c hc s out hout
  have hend := (Out.isRet_spec hout).1
  simp only [List.mem_cons, List.not_mem_nil, or_false] at hc
  rcases hc with rfl | rfl
  · exact ⟨⟨(by decide : hasFlag 66 oAppend = false), hend⟩, trivial⟩
  · exact ⟨⟨⟨Int.le_refl 0, fun _ _ => Int.natCast_nonneg _⟩, hend⟩, trivial⟩

/-- Fill a bucket and one byte of the next, truncate, write a byte, read past the
end of the file, and write another byte. -/
def readPastEnd : List Call :=
  [.open pathA 66 0, .write 1024 (List.replicate 4097 0), .open pathA 578 0, .write 1024 [1],
    .open pathA 66 0, .read 1024 2, .write 1024 [1]]

theorem readPastEnd_allowed : Run defaultBuild LayoutAllowed initSys (afterCalls readPastEnd) := by
  refine run_of_allReturn (by decide +kernel) ?_
  intro c hc s out hout
  have hend := (Out.isRet_spec hout).1
  simp only [readPastEnd, List.mem_cons, List.not_mem_nil, or_false] at hc
  rcases hc with rfl | rfl | rfl | rfl | rfl | rfl | rfl
  · exact ⟨(by decide : hasFlag 66 oAppend = false), hend⟩
  · exact ⟨trivial, hend⟩
  · exact ⟨(by decide : hasFlag 578 oAppend = false), hend⟩
  · exact ⟨trivial, hend⟩
  · exact ⟨(by decide : hasFlag 66 oAppend = false), hend⟩
  · exact ⟨trivial, hend⟩
  · exact ⟨trivial, hend⟩

/-- Such a run leaves one byte in each of the two buckets of the file. -/
theorem readPastEnd_breaks_layout :
    Run defaultBuild LayoutAllowed initSys (afterCalls readPastEnd) ∧
      ¬ OffsetLayout (afterCalls readPastEnd) := by
  refine ⟨readPastEnd_allowed, fun hlayout => ?_⟩
  have huse : ((afterCalls readPastEnd).table.mb 0).inUse = true := by decide +kernel
  have hchain : fileChain (afterCalls readPastEnd) 0 = [0, 1] := by decide +kernel
  have hfirst : ((afterCalls readPastEnd).data.bucket 0).bytes = 1 := by decide +kernel
  have hsecond : ((afterCalls readPastEnd).data.bucket 1).bytes = 1 := by decide +kernel
  have hdense := (hlayout 0 huse).2
  rw [hchain] at hdense
  have hzero := (List.pairwise_cons.mp hdense).1 1 (by simp)
  rw [hfirst, hsecond] at hzero
  exact absurd (hzero (by decide)) (by decide)

end Spacefish
