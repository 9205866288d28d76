import Spacefish.Store

/-!
The links of the store under the changes the calls make: growing a chain at its
end, making a meta bucket, giving it a first data bucket, releasing and
renaming. None of this looks at the byte counts or the offsets of the cursors.
-/

namespace Spacefish

open LinkedArray Program

/-- `d'` differs from `d` in the contents and byte counts of buckets only. -/
structure SameLinks (d d' : DataShm) : Prop where
  steps : d'.dbucketSteps = d.dbucketSteps
  counter : d'.dbucketsInUse = d.dbucketsInUse
  inUse : ∀ b, (d'.bucket b).inUse = (d.bucket b).inUse
  next : ∀ b, d'.next b = d.next b
  lock : ∀ b, (d'.bucket b).lock = (d.bucket b).lock

variable {s : Store} {t' : MetaShm} {d d' : DataShm} {rows' : Nat → List Int}
  {m : Int} {f : FileCore → FileCore} {h hn ix b off : Nat} {pre l new : List Nat}
  {buf chunk : List Byte} {r : Option WriteOut} {lost : Option Int} {p : Path}
  {ch' : Int → List Nat}

theorem SameLinks.refl (d : DataShm) : SameLinks d d :=
  ⟨rfl, rfl, fun _ => rfl, fun _ => rfl, fun _ => rfl⟩

theorem SameLinks.owned (hs : SameLinks d d') (hown : d.Owned b) : d'.Owned b :=
  ⟨hown.1, (hs.inUse b).trans hown.2⟩

theorem SameLinks.linksOk (hs : SameLinks d d') (hd : LinksOk d) : LinksOk d' := by
  refine ⟨hs.steps.trans hd.steps, hs.counter.trans hd.counter,
    fun b => (hs.lock b).trans (hd.unlocked b), ?_, ?_⟩
  · intro b hb
    rw [hs.inUse] at hb
    rw [hs.next]
    exact hd.fresh b hb
  · intro b
    rw [hs.next]
    exact (hd.target b).imp id hs.owned

theorem SameLinks.put (d : DataShm) (b off : Nat) (chunk : List Byte) :
    SameLinks d (d.put b off chunk) :=
  ⟨rfl, rfl, fun _ => put_inUse, fun _ => put_next, fun _ => put_lock⟩

theorem SameLinks.clear (d : DataShm) (l : List Nat) : SameLinks d (d.clear l) := by
  refine ⟨rfl, rfl, fun _ => clear_inUse, fun _ => clear_next, ?_⟩
  intro b
  by_cases hb : b ∈ l <;> simp [DataShm.clear, hb]

theorem SameLinks.set (d : DataShm) (b : Nat) {F : DataBucket → DataBucket}
    (hF : ∀ x, (F x).inUse = x.inUse ∧ (F x).nextIx = x.nextIx ∧ (F x).lock = x.lock) :
    SameLinks d (d.set b F) := by
  have hcase : ∀ c, ((d.set b F).bucket c).inUse = (d.bucket c).inUse ∧
      (d.set b F).next c = d.next c ∧ ((d.set b F).bucket c).lock = (d.bucket c).lock := by
    intro c
    by_cases hc : c = b
    · subst hc
      simpa [DataShm.next] using hF (d.bucket c)
    · simp [DataShm.next, set_bucket_of_ne _ hc]
  exact ⟨rfl, rfl, fun c => (hcase c).1, fun c => (hcase c).2.1, fun c => (hcase c).2.2⟩

/-- A bucket that is on a chain is not one that was free. -/
theorem LinkWf.not_fresh {a : Int} {c : Nat} (wf : LinkWf s) (ha : s.Used a) (hc : c ∈ s.ch a)
    (hfree : (s.data.bucket c).inUse = false) : False := by
  rw [(wf.owned a ha c hc).2] at hfree
  cases hfree

theorem LinkWf.nodup (wf : LinkWf s) (huse : s.Used m) : (s.ch m).Nodup :=
  (wf.linked m huse).nodup

theorem LinkWf.sameData (wf : LinkWf s) (hs : SameLinks s.data d') :
    LinkWf { s with data := d' } :=
  ⟨wf.table, hs.linksOk wf.links, fun a ha => (wf.linked a ha).congr (fun c _ => hs.next c),
    fun a ha c hc => hs.owned (wf.owned a ha c hc), wf.apart, wf.onChain, wf.unused⟩

/-- Only the chains of files in use matter. -/
theorem LinkWf.chains (ch' : Int → List Nat) (wf : LinkWf s) (hch : ∀ a, s.Used a → ch' a = s.ch a) :
    LinkWf { s with ch := ch' } := by
  refine ⟨wf.table, wf.links, ?_, ?_, ?_, ?_, wf.unused⟩
  · intro a ha
    dsimp only
    rw [hch a ha]
    exact wf.linked a ha
  · intro a ha
    dsimp only
    rw [hch a ha]
    exact wf.owned a ha
  · intro a a' ha ha'
    dsimp only
    rw [hch a ha, hch a' ha']
    exact wf.apart a a' ha ha'
  · intro a ha
    dsimp only
    rw [hch a ha]
    exact wf.onChain a ha

/-- The chain that contains `b` after `ix` was linked behind it. -/
def extendAt (ch : Int → List Nat) (b ix : Nat) (a : Int) : List Nat :=
  if b ∈ ch a then ch a ++ [ix] else ch a

theorem mem_extendAt {a : Int} {c : Nat} (hc : c ∈ extendAt s.ch b ix a) :
    c ∈ s.ch a ∨ (b ∈ s.ch a ∧ c = ix) := by
  unfold extendAt at hc
  split at hc
  · next hb =>
    rcases List.mem_append.mp hc with hc | hc
    · exact Or.inl hc
    · exact Or.inr ⟨hb, by simpa using hc⟩
  · exact Or.inl hc

/-- A fresh bucket linked behind the last bucket of a list, wherever that is. -/
theorem LinkWf.grow (wf : LinkWf s) (hb : (s.data.bucket b).inUse = true)
    (hend : s.data.next b = noIx) (hix : ix < totBuckets)
    (hfree : (s.data.bucket ix).inUse = false) :
    LinkWf { s with data := s.data.grow b ix, ch := extendAt s.ch b ix } := by
  have hne : ix ≠ b := by
    rintro rfl
    rw [hb] at hfree
    cases hfree
  have howned : ∀ c, s.data.Owned c → (s.data.grow b ix).Owned c := by
    intro c hc
    refine ⟨hc.1, ?_⟩
    rw [grow_inUse]
    split
    · rfl
    · exact hc.2
  refine ⟨wf.table, wf.links.grow hb hix hfree, ?_, ?_, ?_, ?_, wf.unused⟩
  · intro a ha
    have hl := wf.linked a ha
    by_cases hmem : b ∈ s.ch a
    · obtain ⟨pre, l, hsplit⟩ := List.append_of_mem hmem
      have hnext := Linked.next_eq (hsplit ▸ hl)
      obtain rfl : l = [] := by
        cases l with
        | nil => rfl
        | cons c l =>
            rw [hend] at hnext
            have hc := (wf.owned a ha c (by rw [hsplit]; simp)).ne_noIx
            exact absurd hnext.symm hc
      have hnodup := wf.nodup ha
      rw [hsplit] at hnodup hl
      have hbpre : b ∉ pre := fun hin => (List.nodup_append.mp hnodup).2.2 b hin b (by simp) rfl
      have htail : Linked s.data.next noIx ix [ix] := by
        refine ⟨rfl, ?_, wf.links.fresh ix hfree⟩
        unfold totBuckets at hix
        unfold noIx
        omega
      have hspl := Seg.splice hl hbpre htail (by simp [hne.symm])
      dsimp only
      rw [extendAt, if_pos hmem, hsplit]
      refine hspl.congr (fun c _ => ?_)
      rw [grow_next hne, Function.update_apply]
    · dsimp only
      rw [extendAt, if_neg hmem]
      refine hl.congr (fun c hc => ?_)
      have hcb : c ≠ b := by
        rintro rfl
        exact hmem hc
      rw [grow_next hne, if_neg hcb]
  · intro a ha c hc
    rcases mem_extendAt hc with hc | ⟨_, rfl⟩
    · exact howned c (wf.owned a ha c hc)
    · exact ⟨hix, by rw [grow_inUse, if_pos rfl]⟩
  · intro a a' ha ha' c hc hc'
    rcases mem_extendAt hc with hin | ⟨hba, rfl⟩ <;>
      rcases mem_extendAt hc' with hin' | ⟨hba', hcix⟩
    · exact wf.apart a a' ha ha' c hin hin'
    · exact absurd hfree (fun hf => wf.not_fresh ha hin (hcix ▸ hf))
    · exact absurd hfree (fun hf => wf.not_fresh ha' hin' hf)
    · exact wf.apart a a' ha ha' b hba hba'
  · intro a ha
    refine (wf.onChain a ha).imp id (fun hmem => ?_)
    dsimp only
    unfold extendAt
    split
    · exact List.mem_append_left _ hmem
    · exact hmem

/-- Extending the chain of one file by a copy. -/
theorem LinkWf.copy (pre : List Nat) (wf : LinkWf s) (huse : s.Used m)
    (hsplit : s.ch m = pre ++ l)
    (hcopy : Copy s.data l off buf d' r new) :
    LinkWf { s with data := d', ch := Function.update s.ch m (s.ch m ++ new) } := by
  generalize hd : s.data = d at hcopy
  induction hcopy generalizing s pre with
  | last hfit =>
      subst hd
      rw [List.append_nil, Function.update_eq_self]
      exact wf.sameData (.put _ _ _ _)
  | @next d b c l off chunk buf d' r new hfull hmore hrest ih =>
      subst hd
      exact ih (s := { s with data := s.data.put b off chunk }) (pre ++ [b])
        (wf.sameData (.put _ _ _ _)) huse (by simpa using hsplit) rfl
  | @grow d b ix off chunk buf d' r new hfull hmore hix hfree hrest ih =>
      subst hd
      have hb : b ∈ s.ch m := by
        rw [hsplit]
        simp
      have hend : s.data.next b = noIx := Linked.next_eq (hsplit ▸ wf.linked m huse)
      have wf₁ := (wf.sameData (.put s.data b off chunk)).grow (b := b)
        (put_inUse.trans (wf.owned m huse b hb).2) (put_next.trans hend) hix
        (put_inUse.trans hfree)
      have wf₂ := wf₁.chains (Function.update s.ch m (s.ch m ++ [ix])) (by
        intro a ha
        dsimp only
        by_cases ham : a = m
        · subst ham
          rw [Function.update_self, extendAt, if_pos hb]
        · rw [Function.update_of_ne ham, extendAt,
            if_neg (fun hba => ham (wf.apart a m ha huse b hba hb))])
      have hdone := ih _ wf₂ huse (Function.update_self ..) rfl
      simpa using hdone
  | full hfull hmore hover =>
      subst hd
      rw [List.append_nil, Function.update_eq_self]
      exact wf.sameData (.put _ _ _ _)

/-- A copy leaves the buckets of the other files alone. -/
theorem LinkWf.copy_others {a : Int} {c : Nat} (wf : LinkWf s) (huse : s.Used m)
    (hsplit : s.ch m = pre ++ l) (hcopy : Copy s.data l off buf d' r new) (ha : s.Used a)
    (ham : a ≠ m) (hc : c ∈ s.ch a) : d'.bucket c = s.data.bucket c := by
  refine hcopy.frame (fun hmem => ham ?_) (fun hmem => wf.not_fresh ha hc (hcopy.fresh hmem).2)
  exact wf.apart a m ha huse c hc (by rw [hsplit]; exact List.mem_append_right _ hmem)

/-- A copy leaves the buckets before its start alone. -/
theorem LinkWf.copy_before {c : Nat} (wf : LinkWf s) (huse : s.Used m)
    (hsplit : s.ch m = pre ++ l) (hcopy : Copy s.data l off buf d' r new) (hc : c ∈ pre) :
    d'.bucket c = s.data.bucket c := by
  have hmem : c ∈ s.ch m := by
    rw [hsplit]
    exact List.mem_append_left _ hc
  have hnodup := wf.nodup huse
  rw [hsplit] at hnodup
  exact hcopy.frame (fun hl => (List.nodup_append.mp hnodup).2.2 c hc c hl rfl)
    (fun hnew => wf.not_fresh huse hmem (hcopy.fresh hnew).2)

/-- A meta bucket made for a new file, without data. -/
theorem LinkWf.create (wf : LinkWf s) (hc : Created s.table t' s.rows h m) :
    LinkWf { s with table := t', rows := Function.update s.rows h (s.rows h ++ [m])
                    ch := Function.update s.ch m [] } := by
  have hin : ∀ a ≠ m, (t'.mb a).inUse = true → s.Used a := fun a ha huse =>
    ((hc.same a ha).inUse).symm.trans huse
  have hfirst : (t'.mb m).firstDbucket = noIx := by
    rw [hc.new.firstDbucket]
    exact (wf.table.free m hc.fresh).2
  have hlast : (t'.mb m).lastDbucket = noIx := by
    rw [hc.new.lastDbucket]
    exact wf.unused m hc.fresh
  refine ⟨hc.wf, wf.links, ?_, ?_, ?_, ?_, ?_⟩
  · intro a ha
    by_cases ham : a = m
    · subst ham
      simp only [Function.update_self]
      exact hfirst
    · simp only [Function.update_of_ne ham, (hc.same a ham).firstDbucket]
      exact wf.linked a (hin a ham ha)
  · intro a ha c hmem
    by_cases ham : a = m
    · subst ham
      simp at hmem
    · simp only [Function.update_of_ne ham] at hmem
      exact wf.owned a (hin a ham ha) c hmem
  · intro a a' ha ha' c hmem hmem'
    by_cases ham : a = m
    · subst ham
      simp at hmem
    · by_cases ham' : a' = m
      · subst ham'
        simp at hmem'
      · simp only [Function.update_of_ne ham] at hmem
        simp only [Function.update_of_ne ham'] at hmem'
        exact wf.apart a a' (hin a ham ha) (hin a' ham' ha') c hmem hmem'
  · intro a ha
    by_cases ham : a = m
    · subst ham
      exact Or.inl hlast
    · simp only [Function.update_of_ne ham, (hc.same a ham).lastDbucket]
      exact wf.onChain a (hin a ham ha)
  · intro a ha
    have ham : a ≠ m := by
      rintro rfl
      have := hc.new.inUse
      rw [ha] at this
      cases this
    rw [(hc.same a ham).inUse] at ha
    exact ((hc.same a ham).lastDbucket).trans (wf.unused a ha)

/-- The allocator has handed out a bucket that no chain holds yet. -/
theorem LinkWf.take (wf : LinkWf s) (hix : ix < totBuckets) :
    LinkWf { s with data := s.data.take ix } := by
  have hnext : ∀ c, (s.data.take ix).next c = s.data.next c := by
    intro c
    by_cases hc : c = ix
    · subst hc
      simp [DataShm.next, DataShm.take]
    · rw [DataShm.next, DataShm.take, set_bucket_of_ne _ hc, DataShm.next]
  have howned : ∀ c, s.data.Owned c → (s.data.take ix).Owned c := by
    intro c hc
    refine ⟨hc.1, ?_⟩
    by_cases hcix : c = ix
    · subst hcix
      simp [DataShm.take]
    · rw [DataShm.take, set_bucket_of_ne _ hcix]
      exact hc.2
  refine ⟨wf.table, ⟨wf.links.steps, wf.links.counter, ?_, ?_, ?_⟩, ?_, ?_, wf.apart, wf.onChain,
    wf.unused⟩
  · intro c
    by_cases hcix : c = ix
    · subst hcix
      simpa [DataShm.take] using wf.links.unlocked c
    · rw [DataShm.take, set_bucket_of_ne _ hcix]
      exact wf.links.unlocked c
  · intro c hc
    rw [hnext]
    refine wf.links.fresh c ?_
    have hcix : c ≠ ix := by
      rintro rfl
      simp [DataShm.take] at hc
    rwa [DataShm.take, set_bucket_of_ne _ hcix] at hc
  · intro c
    rw [hnext]
    exact (wf.links.target c).imp id (howned _)
  · exact fun a ha => (wf.linked a ha).congr (fun c _ => hnext c)
  · exact fun a ha c hc => howned c (wf.owned a ha c hc)

/-- A file without data gets a bucket that no chain holds. -/
theorem LinkWf.adopt (wf : LinkWf s) (huse : s.Used m) (hch : s.ch m = [])
    (hown : s.data.Owned ix) (hend : s.data.next ix = noIx)
    (hnone : ∀ a, s.Used a → ix ∉ s.ch a) (he : Edited s.table t' m f) (hf : Stays f)
    (hfirst : (f (s.table.mb m).core).first = ix)
    (hlast : (f (s.table.mb m).core).last = noIx ∨ (f (s.table.mb m).core).last = ix) :
    LinkWf { s with table := t', ch := Function.update s.ch m [ix] } := by
  have hin := he.inUse hf
  have hused : ∀ a, (t'.mb a).inUse = true → s.Used a := fun a ha => (hin a).symm.trans ha
  have hmem : ∀ a c, s.Used a → c ∈ Function.update s.ch m [ix] a →
      (a = m ∧ c = ix) ∨ (c ≠ ix ∧ c ∈ s.ch a) := by
    intro a c ha hc
    by_cases ham : a = m
    · subst ham
      rw [Function.update_self] at hc
      exact Or.inl ⟨rfl, by simpa using hc⟩
    · rw [Function.update_of_ne ham] at hc
      refine Or.inr ⟨?_, hc⟩
      rintro rfl
      exact hnone a ha hc
  refine ⟨he.tableWf hf wf.table huse, wf.links, ?_, ?_, ?_, ?_, ?_⟩
  · intro a ha
    by_cases ham : a = m
    · subst ham
      simp only [Function.update_self]
      exact ⟨(congrArg FileCore.first he.self).trans hfirst, hown.ne_noIx, hend⟩
    · simp only [Function.update_of_ne ham]
      rw [show (t'.mb a).firstDbucket = (s.table.mb a).firstDbucket from
        congrArg FileCore.first (he.other a ham)]
      exact wf.linked a (hused a ha)
  · intro a ha c hc
    rcases hmem a c (hused a ha) hc with ⟨_, rfl⟩ | ⟨_, hc⟩
    · exact hown
    · exact wf.owned a (hused a ha) c hc
  · intro a a' ha ha' c hc hc'
    rcases hmem a c (hused a ha) hc with ⟨h₁, h₂⟩ | ⟨h₁, h₂⟩ <;>
      rcases hmem a' c (hused a' ha') hc' with ⟨h₃, h₄⟩ | ⟨h₃, h₄⟩
    · rw [h₁, h₃]
    · exact absurd h₂ h₃
    · exact absurd h₄ h₁
    · exact wf.apart a a' (hused a ha) (hused a' ha') c h₂ h₄
  · intro a ha
    by_cases ham : a = m
    · subst ham
      simp only [Function.update_self, he.last, List.mem_singleton]
      exact hlast
    · simp only [Function.update_of_ne ham, he.last_of_ne ham]
      exact wf.onChain a (hused a ha)
  · intro a ha
    have ha' : (s.table.mb a).inUse = false := (hin a).symm.trans ha
    have ham : a ≠ m := by
      rintro rfl
      rw [show (s.table.mb a).inUse = true from huse] at ha'
      cases ha'
    exact (he.last_of_ne ham).trans (wf.unused a ha')

/-- Changes of the table that keep the files in use and their data. -/
theorem LinkWf.retable (wf : LinkWf s) (hwf : TableWf t' rows')
    (hin : ∀ a, (t'.mb a).inUse = true → s.Used a ∧
      (t'.mb a).firstDbucket = (s.table.mb a).firstDbucket ∧
      (t'.mb a).lastDbucket = (s.table.mb a).lastDbucket)
    (hout : ∀ a, (t'.mb a).inUse = false → (t'.mb a).lastDbucket = noIx) :
    LinkWf { s with table := t', rows := rows' } := by
  refine ⟨hwf, wf.links, ?_, ?_, ?_, ?_, hout⟩
  · intro a ha
    obtain ⟨ha', hfirst, _⟩ := hin a ha
    dsimp only
    rw [hfirst]
    exact wf.linked a ha'
  · exact fun a ha => wf.owned a (hin a ha).1
  · exact fun a a' ha ha' => wf.apart a a' (hin a ha).1 (hin a' ha').1
  · intro a ha
    obtain ⟨ha', _, hlast⟩ := hin a ha
    dsimp only
    rw [hlast]
    exact wf.onChain a ha'

/-- The files that a release leaves are as they were. -/
theorem Released.kept {t : MetaShm} {rows : Nat → List Int} {a : Int}
    (hr : Released t t' rows rows' m) (ha : (t'.mb a).inUse = true) :
    a ≠ m ∧ SameButLink (t'.mb a) (t.mb a) := by
  have ham : a ≠ m := by
    rintro rfl
    rw [hr.gone] at ha
    cases ha
  exact ⟨ham, hr.same a ham⟩

theorem LinkWf.release (wf : LinkWf s) (hr : Released s.table t' s.rows rows' m) :
    LinkWf { s with table := t', rows := rows' } := by
  refine wf.retable hr.wf ?_ ?_
  · intro a ha
    obtain ⟨_, hs⟩ := hr.kept ha
    exact ⟨hs.inUse.symm.trans ha, hs.firstDbucket, hs.lastDbucket⟩
  · intro a ha
    by_cases ham : a = m
    · subst ham
      rw [hr.gone]
      rfl
    · have hs := hr.same a ham
      exact hs.lastDbucket.trans (wf.unused a (hs.inUse.symm.trans ha))

/-- The files that a rename leaves have their data and their cursors. -/
theorem Renamed.kept {t : MetaShm} {rows : Nat → List Int} {a : Int}
    (hr : Renamed t t' rows rows' hn m lost p)
    (ha : (t'.mb a).inUse = true) : lost ≠ some a ∧
      (t'.mb a).inUse = (t.mb a).inUse ∧
      (t'.mb a).firstDbucket = (t.mb a).firstDbucket ∧
      (t'.mb a).lastDbucket = (t.mb a).lastDbucket ∧
      (t'.mb a).lastDbOffset = (t.mb a).lastDbOffset ∧
      (t'.mb a).s = (t.mb a).s := by
  have hao : lost ≠ some a := by
    intro hao
    rw [hr.gone a hao] at ha
    cases ha
  refine ⟨hao, ?_⟩
  by_cases ham : a = m
  · subst ham
    have hs := hr.moved
    exact ⟨hs.inUse, hs.firstDbucket, hs.lastDbucket, hs.lastDbOffset, hs.s⟩
  · have hs := hr.same a ham hao
    exact ⟨hs.inUse, hs.firstDbucket, hs.lastDbucket, hs.lastDbOffset, hs.s⟩

theorem LinkWf.rename (wf : LinkWf s) (hr : Renamed s.table t' s.rows rows' hn m lost p) :
    LinkWf { s with table := t', rows := rows' } := by
  refine wf.retable hr.wf ?_ ?_
  · intro a ha
    obtain ⟨_, huse, hfirst, hlast, _⟩ := hr.kept ha
    exact ⟨huse.symm.trans ha, hfirst, hlast⟩
  · intro a ha
    by_cases ham : a = m
    · subst ham
      have hs := hr.moved
      exact hs.lastDbucket.trans (wf.unused a (hs.inUse.symm.trans ha))
    · by_cases hao : lost = some a
      · rw [hr.gone a hao]
        rfl
      · have hs := hr.same a ham hao
        exact hs.lastDbucket.trans (wf.unused a (hs.inUse.symm.trans ha))

theorem LinkWf.stuck (wf : LinkWf s) (ho hn : Nat) :
    LinkWf { s with table := s.table.lockBoth ho hn } :=
  wf.retable (wf.table.lockBoth ho hn) (fun _ ha => ⟨ha, rfl, rfl⟩) wf.unused

end Spacefish
