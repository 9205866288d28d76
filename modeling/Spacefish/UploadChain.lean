import Spacefish.LinkRun
import Spacefish.Flush

/-!
The chain that `upload_file` builds, from any store that calls of the default
build reach: as many fresh buckets as the file needs, all but the last of them
full, holding what was read from the disk. Whatever the buckets held before does
not matter, and no other file is touched.
-/

namespace Spacefish

open LinkedArray Program Buffer

variable {d d' : DataShm} {prev ix c : Nat} {rest buf : List Byte} {done : Bool} {new : List Nat}
  {w w' : World} {rows : Nat → List Int} {ch : Int → List Nat} {env : Env} {name : Path}
  {s : Sys} {pid : Nat} {m a : Int}

/-! What the rounds leave. -/

theorem Laid.fresh (hl : Laid d prev rest d' done new) (hc : c ∈ new) :
    c < totBuckets ∧ (d.bucket c).inUse = false := by
  induction hl with
  | done => cases hc
  | full _ _ => cases hc
  | next hne hix hfree hrest ih =>
      rcases List.mem_cons.mp hc with rfl | hc
      · exact ⟨hix, hfree⟩
      · obtain ⟨hlt, huse⟩ := ih hc
        rw [fill_inUse, grow_inUse] at huse
        split at huse
        · cases huse
        · exact ⟨hlt, huse⟩

theorem Laid.frame (hl : Laid d prev rest d' done new) (hc : c ∉ new) (hne : c ≠ prev) :
    d'.bucket c = d.bucket c := by
  induction hl with
  | done => rfl
  | full _ _ => rfl
  | next _ hix hfree hrest ih =>
      rw [List.mem_cons, not_or] at hc
      rw [ih hc.2 hc.1, fill_bucket_of_ne hc.1, grow_bucket_of_ne hne hc.1]

/-- The bucket the rounds start behind gets a link at most. -/
theorem Laid.start (hl : Laid d prev rest d' done new) (huse : (d.bucket prev).inUse = true) :
    bucketData d' prev = bucketData d prev ∧ (d'.bucket prev).bytes = (d.bucket prev).bytes ∧
      d'.next prev = if new = [] then d.next prev else new.head?.getD noIx := by
  cases hl with
  | done => exact ⟨rfl, rfl, rfl⟩
  | full _ _ => exact ⟨rfl, rfl, rfl⟩
  | @next _ _ _ ix _ _ new _ hix hfree hrest =>
      have hne : prev ≠ ix := by
        rintro rfl
        rw [huse] at hfree
        cases hfree
      have hnew : prev ∉ new := by
        intro hmem
        have h := (hrest.fresh hmem).2
        rw [fill_inUse, grow_inUse, if_neg hne, huse] at h
        cases h
      have hsame := hrest.frame hnew hne
      rw [fill_bucket_of_ne hne] at hsame
      refine ⟨?_, ?_, ?_⟩
      · rw [bucketData, hsame, ← bucketData, grow_bucketData]
      · rw [hsame, grow_bytes]
      · rw [DataShm.next, hsame, if_neg (by simp)]
        exact (grow_next hne.symm).trans (if_pos rfl)

theorem Laid.linked (hl : Laid d prev rest d' done new) (hprev : d.Owned prev)
    (hend : d.next prev = noIx) (hfresh : ∀ b, (d.bucket b).inUse = false → d.next b = noIx) :
    Linked d'.next noIx prev (prev :: new) := by
  induction hl with
  | done => exact ⟨rfl, hprev.ne_noIx, hend⟩
  | full _ _ => exact ⟨rfl, hprev.ne_noIx, hend⟩
  | @next d prev rest ix d' done new hne hix hfree hrest ih =>
      have hixne : ix ≠ prev := by
        rintro rfl
        rw [hprev.2] at hfree
        cases hfree
      have htail := ih ⟨hix, by rw [fill_inUse, grow_inUse, if_pos rfl]⟩
        (by rw [fill_next, grow_next hixne, if_neg hixne]; exact hfresh ix hfree)
        (fun b hb => by
          rw [fill_inUse, grow_inUse] at hb
          split at hb
          · cases hb
          · have hbne : b ≠ prev := by
              rintro rfl
              rw [hprev.2] at hb
              cases hb
            rw [fill_next, grow_next hixne, if_neg hbne]
            exact hfresh b hb)
      obtain ⟨_, _, hnext⟩ := (Laid.next hne hix hfree hrest).start hprev.2
      rw [if_neg (by simp)] at hnext
      refine ⟨rfl, hprev.ne_noIx, ?_⟩
      rw [show d'.next prev = ix from hnext]
      exact htail

theorem Laid.keeps_inUse (hl : Laid d prev rest d' done new) (hc : (d.bucket c).inUse = true) :
    (d'.bucket c).inUse = true := by
  induction hl with
  | done => exact hc
  | full _ _ => exact hc
  | next _ hix hfree hrest ih =>
      refine ih ?_
      rw [fill_inUse, grow_inUse]
      split
      · rfl
      · exact hc

theorem Laid.inUse (hl : Laid d prev rest d' done new) (hc : c ∈ new) :
    (d'.bucket c).inUse = true := by
  induction hl with
  | done => cases hc
  | full _ _ => cases hc
  | next _ hix hfree hrest ih =>
      rcases List.mem_cons.mp hc with rfl | hc
      · exact hrest.keeps_inUse (by rw [fill_inUse, grow_inUse, if_pos rfl])
      · exact ih hc

/-- The number of buckets that `n` bytes fill. -/
def bucketsFor (n : Nat) : Nat := (n + (dbucketBufSize - 1)) / dbucketBufSize

theorem bucketsFor_drop (hne : rest ≠ []) :
    bucketsFor rest.length = bucketsFor (rest.drop dbucketBufSize).length + 1 := by
  have hpos : 0 < rest.length := List.length_pos_iff.mpr hne
  rw [List.length_drop]
  unfold bucketsFor dbucketBufSize
  omega

/-- A complete upload stores the rest, in as many buckets as it fills. -/
theorem Laid.content_eq (hl : Laid d prev rest d' done new) (hdone : done = true) :
    content d' new = rest ∧ Tight d' new ∧ new.length = bucketsFor rest.length := by
  induction hl with
  | done => exact ⟨rfl, List.Pairwise.nil, rfl⟩
  | full _ _ => cases hdone
  | @next d prev rest ix d' done new hne hix hfree hrest ih =>
      obtain ⟨hcontent, htight, hlen⟩ := ih hdone
      obtain ⟨hdata, hbytes, _⟩ := hrest.start (by rw [fill_inUse, grow_inUse, if_pos rfl])
      have hchunk : bucketData ((d.grow prev ix).fill ix (rest.take dbucketBufSize)) ix =
          rest.take dbucketBufSize := by
        rw [bucketData, fill_bytes, DataShm.fill, set_bucket_self]
        exact slice_memcpy_zero _ _
      refine ⟨?_, List.Pairwise.cons (fun c hc => ?_) htight, ?_⟩
      · rw [content_cons, hdata, hchunk, hcontent, List.take_append_drop]
      · rw [hbytes, fill_bytes, List.length_take]
        have hpos : 0 < new.length := List.length_pos_of_mem hc
        rw [hlen, List.length_drop] at hpos
        unfold bucketsFor dbucketBufSize at hpos
        unfold dbucketBufSize
        omega
      · rw [List.length_cons, hlen, bucketsFor_drop hne]

/-! Free buckets. -/

/-- The number of data buckets that are not in use. -/
def freeBuckets (d : DataShm) : Nat :=
  ((Finset.range totBuckets).filter (fun b => (d.bucket b).inUse = false)).card

/-- Taking a free bucket leaves one less. -/
theorem freeBuckets_taken (hix : ix < totBuckets) (hfree : (d.bucket ix).inUse = false)
    (htaken : ∀ b, (d'.bucket b).inUse = if b = ix then true else (d.bucket b).inUse) :
    freeBuckets d = freeBuckets d' + 1 := by
  have hset : (Finset.range totBuckets).filter (fun b => (d'.bucket b).inUse = false) =
      ((Finset.range totBuckets).filter (fun b => (d.bucket b).inUse = false)).erase ix := by
    ext b
    simp only [Finset.mem_filter, Finset.mem_erase, htaken]
    by_cases hb : b = ix
    · simp [hb]
    · simp [hb]
  have hmem : ix ∈ (Finset.range totBuckets).filter (fun b => (d.bucket b).inUse = false) :=
    Finset.mem_filter.mpr ⟨Finset.mem_range.mpr hix, hfree⟩
  rw [freeBuckets, freeBuckets, hset, Finset.card_erase_of_mem hmem]
  have := Finset.card_pos.mpr ⟨ix, hmem⟩
  omega

theorem freeBuckets_full (hfull : DataFull d) : freeBuckets d = 0 := by
  rw [freeBuckets, Finset.card_eq_zero, Finset.filter_eq_empty_iff]
  intro b hb
  rw [hfull b (Finset.mem_range.mp hb)]
  exact Bool.noConfusion

/-- An upload that ends early needed more buckets than were free. -/
theorem Laid.short (hl : Laid d prev rest d' done new) (hdone : done = false) :
    freeBuckets d < bucketsFor rest.length := by
  induction hl with
  | done => cases hdone
  | @full d prev rest hne hover =>
      have hzero := freeBuckets_full hover
      have hpos : 0 < rest.length := List.length_pos_iff.mpr hne
      rw [hzero]
      unfold bucketsFor dbucketBufSize
      omega
  | @next d prev rest ix d' done new hne hix hfree hrest ih =>
      have hstep : freeBuckets d =
          freeBuckets ((d.grow prev ix).fill ix (rest.take dbucketBufSize)) + 1 :=
        freeBuckets_taken hix hfree (fun b => fill_inUse.trans grow_inUse)
      have hlt := ih hdone
      rw [bucketsFor_drop hne, hstep]
      omega

/-! The call. -/

/-- What an upload of `data` under `name` is to make: a new file `m` with this path
and size, whose chain consists of as many fresh buckets as the data needs, all but
the last of them full, and holds the data; the other files are as before, but for
the link of a meta bucket to the next one of its row. -/
structure CanonicalUpload (w w' : World) (name : Path) (data : List Byte) (m : Int) : Prop where
  new : (w.table.mb m).inUse = false ∧ (w'.table.mb m).inUse = true
  path : (w'.table.mb m).path = name
  size : (w'.table.mb m).s.stSize = data.length
  chain : ∃ l, Linked w'.data.next noIx (w'.table.mb m).firstDbucket l ∧
    l.length = max 1 (bucketsFor data.length) ∧
    (∀ c ∈ l, c < totBuckets ∧ (w.data.bucket c).inUse = false ∧ (w'.data.bucket c).inUse = true) ∧
    Tight w'.data l ∧ content w'.data l = data
  others : ∀ a, (w.table.mb a).inUse = true → SameButLink (w'.table.mb a) (w.table.mb a) ∧
    ∃ l, Linked w.data.next noIx (w.table.mb a).firstDbucket l ∧
      Linked w'.data.next noIx (w'.table.mb a).firstDbucket l ∧
      ∀ c ∈ l, w'.data.bucket c = w.data.bucket c

/-- A file that the disk delivers completely. -/
theorem uploadFile_eq (hdisk : diskContent env name = some buf) (w : World) :
    ∃ st : Stat, st.stSize = buf.length ∧ buf.length ≤ maxRwCount ∧
      uploadFile defaultBuild env name w = (do
        match ← onMeta (strictCreateMbucket env.mrand name) with
        | none => return .error .eexist
        | some mb =>
            strcpyPath mb name
            setMb mb (fun m => { m with s := st })
            uploadData defaultBuild env mb buf buf.length
            return .ok mb : Op World (Except Errno Int)) w := by
  unfold diskContent at hdisk
  cases hstat : env.realStat name with
  | error e =>
      rw [hstat] at hdisk
      cases hdisk
  | ok st =>
      rw [hstat] at hdisk
      dsimp only at hdisk
      split at hdisk
      · cases hdisk
      · next hopen =>
        split at hdisk
        · next hread =>
          have hbuf := Option.some.inj hdisk
          have hle := env.realRead_le (env.realOpen name 0) st.stSize
          have hlen := env.realRead_length (env.realOpen name 0) st.stSize
          rw [hread] at hle hlen
          rw [hbuf, Int.toNat_natCast] at hlen
          refine ⟨st, hlen.symm, by omega, ?_⟩
          unfold uploadFile
          rw [hstat]
          dsimp only
          rw [if_neg hopen, hread, hbuf, hlen]
          refine congrArg (fun k => (onMeta (strictCreateMbucket env.mrand name) >>= k) w) ?_
          funext made
          cases made with
          | none => rfl
          | some mb => exact if_neg (not_not_intro rfl)
        · cases hdisk

/-- A file whose data was laid out completely is the one that was uploaded. -/
theorem LaidFile.canonical {t₁ : MetaShm} {h : Nat} {st : Stat} (wf : LinkWf (w.store rows ch))
    (hc : Created w.table t₁ rows h m) (hst : st.stSize = buf.length)
    (hl : LaidFile { w with table := t₁.setMb m (fun b => { b with path := name, s := st }) } m buf
      true w') : CanonicalUpload w w' name buf m := by
  obtain ⟨ix, new, hix, hfree, hlaid, htab, _⟩ := hl
  dsimp only at hfree hlaid htab
  rw [setMb_setMb] at htab
  have hself : (w'.table.mb m) =
      { t₁.mb m with path := name, s := st, firstDbucket := ix } := by
    rw [htab, setMb_mb_self]
  have hd : LinksOk w.data := wf.links
  have hown : ((w.data.take ix).fill ix (buf.take dbucketBufSize)).Owned ix :=
    ⟨hix, by rw [fill_inUse, take_inUse, if_pos rfl]⟩
  have hlinked := hlaid.linked hown
    (by rw [fill_next, take_next]; exact hd.fresh ix hfree)
    ((hd.take ix).fill ix _).fresh
  obtain ⟨hcontent, htight, hlen⟩ := hlaid.content_eq rfl
  obtain ⟨hdata, hbytes, _⟩ := hlaid.start hown.2
  have hchunk : bucketData ((w.data.take ix).fill ix (buf.take dbucketBufSize)) ix =
      buf.take dbucketBufSize := by
    rw [bucketData, fill_bytes, DataShm.fill, set_bucket_self]
    exact slice_memcpy_zero _ _
  have hnewfree : ∀ c ∈ new, c < totBuckets ∧ (w.data.bucket c).inUse = false := by
    intro c hmem
    obtain ⟨hlt, huse⟩ := hlaid.fresh hmem
    rw [fill_inUse, take_inUse] at huse
    split at huse
    · cases huse
    · exact ⟨hlt, huse⟩
  have hframe : ∀ c, (w.data.bucket c).inUse = true → w'.data.bucket c = w.data.bucket c := by
    intro c huse
    have hcix : c ≠ ix := by
      rintro rfl
      rw [hfree] at huse
      cases huse
    have hcnew : c ∉ new := fun hmem => by
      rw [(hnewfree c hmem).2] at huse
      cases huse
    rw [hlaid.frame hcnew hcix, fill_bucket_of_ne hcix, DataShm.take, set_bucket_of_ne _ hcix]
  refine ⟨⟨hc.fresh, ?_⟩, ?_, ?_, ?_, ?_⟩
  · rw [hself]
    exact hc.new.inUse
  · rw [hself]
  · rw [hself]
    exact hst
  · rw [hself]
    refine ⟨ix :: new, hlinked, ?_, ?_, ?_, ?_⟩
    · rw [List.length_cons, hlen, List.length_drop]
      unfold bucketsFor dbucketBufSize
      omega
    · intro c hmem
      rcases List.mem_cons.mp hmem with rfl | hmem
      · exact ⟨hix, hfree, hlaid.keeps_inUse hown.2⟩
      · exact ⟨(hnewfree c hmem).1, (hnewfree c hmem).2, hlaid.inUse hmem⟩
    · refine List.Pairwise.cons (fun c hmem => ?_) htight
      have hpos : 0 < new.length := List.length_pos_of_mem hmem
      rw [hlen, List.length_drop] at hpos
      rw [hbytes, fill_bytes, List.length_take]
      unfold bucketsFor dbucketBufSize at hpos
      unfold dbucketBufSize
      omega
    · rw [content_cons, hdata, hchunk, hcontent, List.take_append_drop]
  · intro a ha
    have ham : a ≠ m := by
      rintro rfl
      rw [hc.fresh] at ha
      cases ha
    have hsame : SameButLink (w'.table.mb a) (w.table.mb a) := by
      rw [htab, setMb_mb_of_ne _ ham]
      exact hc.same a ham
    have hl : Linked w.data.next noIx (w.table.mb a).firstDbucket (ch a) := wf.linked a ha
    have hkeep : ∀ c ∈ ch a, w'.data.bucket c = w.data.bucket c :=
      fun c hmem => hframe c (wf.owned a ha c hmem).2
    refine ⟨hsame, ch a, hl, ?_, hkeep⟩
    rw [hsame.firstDbucket]
    refine hl.congr (fun c hmem => ?_)
    rw [DataShm.next, hkeep c hmem, DataShm.next]

/-- The conditions on the name: it fits the `path` field, no byte of it is above 127
and nobody has left its row locked. -/
def Admitted (t : MetaShm) (name : Path) : Prop :=
  name.length < pathMax ∧ ∃ h, hash name = .ok h ∧ RowIdle t h

/-- For a name that hashes to a row which was left locked, or that has no hash, no
bucket is made. -/
theorem TableWf.create_stops {t : MetaShm} (wf : TableWf t rows) (rand : Nat)
    (hno : ¬ ∃ h, hash name = .ok h ∧ RowIdle t h) :
    ∃ e t', strictCreateMbucket rand name t = .error e t' := by
  rcases hash_cases name with ⟨h, _, hok⟩ | herr
  · have hstuck := (wf.rowLock h).resolve_left (fun hidle => hno ⟨h, hok, hidle⟩)
    obtain ⟨t', hhang⟩ := downWrite_stuck hstuck
    exact ⟨_, t', by rw [strictCreateMbucket, bind_of_ok (hashRow_eq hok), bind_of_error hhang]⟩
  · exact ⟨_, t, by rw [strictCreateMbucket, hashRow_error herr]⟩

/-- With enough free buckets the data part of an upload does not end early. -/
theorem uploadData_complete (env : Env) (wf : LinksOk w.data) (hmax : buf.length ≤ maxRwCount)
    (hroom : max 1 (bucketsFor buf.length) ≤ freeBuckets w.data) :
    ∃ w', uploadData defaultBuild env m buf buf.length w = .ok ⟨⟩ w' ∧
      LaidFile w m buf true w' := by
  have hdata := uploadData_laid defaultBuild env m rfl wf hmax
  cases hres : uploadData defaultBuild env m buf buf.length w with
  | ok u w' =>
      rw [hres] at hdata
      exact ⟨w', rfl, hdata⟩
  | error e w' =>
      rw [hres] at hdata
      obtain ⟨_, ⟨hover, _⟩ | ⟨ix, new, hix, hfree, hlaid, _⟩⟩ := hdata
      · rw [freeBuckets_full hover] at hroom
        omega
      · have hshort := hlaid.short rfl
        have htaken : freeBuckets w.data =
            freeBuckets ((w.data.take ix).fill ix (buf.take dbucketBufSize)) + 1 :=
          freeBuckets_taken hix hfree (fun b => fill_inUse.trans take_inUse)
        rw [List.length_drop] at hshort
        unfold bucketsFor dbucketBufSize at hshort hroom
        unfold dbucketBufSize at htaken
        omega

/-- From every store that calls reach, with enough free buckets and for a name that
no file has, `upload_file` makes the canonical file of what the disk delivers
exactly when the name is admitted. -/
theorem upload_canonical_iff (hrun : Run defaultBuild AnyCall initSys s) (pid : Nat) (env : Env)
    (name : Path) (data : List Byte) (hdisk : diskContent env name = some data)
    (habsent : ∀ m, (s.table.mb m).inUse = true → samePath name (s.table.mb m).path = false)
    (hmeta : ∃ m : Int, 0 ≤ m ∧ m < metaBuckets ∧ (s.table.mb m).inUse = false)
    (hroom : max 1 (bucketsFor data.length) ≤ freeBuckets s.data) :
    (∃ m w', uploadFile defaultBuild env name (s.view pid) = .ok (.ok m) w' ∧
      CanonicalUpload (s.view pid) w' name data m) ↔ Admitted s.table name := by
  obtain ⟨rows, ch, wf⟩ := (run_linkInv initSys_linkInv (fun _ _ _ h => h) hrun).links
  have hwf : TableWf s.table rows := wf.table
  obtain ⟨st, hst, hmax, heq⟩ := uploadFile_eq hdisk (s.view pid)
  rw [heq]
  clear heq
  by_cases hrow : ∃ h, hash name = .ok h ∧ RowIdle s.table h
  · obtain ⟨h, hok, hidle⟩ := id hrow
    have hnone : findPath s.table name (rows h) = none := by
      refine List.find?_eq_none.mpr (fun m hm => ?_)
      rw [habsent m ((hwf.inUse_iff m).mpr ⟨h, hash_lt hok, hm⟩)]
      exact Bool.false_ne_true
    rcases hwf.strictCreateMbucket_eq env.mrand hok hidle with
      ⟨_, hsome | hfull⟩ | ⟨m, t₁, hmade, _, hc⟩
    · rw [hnone] at hsome
      cases hsome
    · obtain ⟨m, h₁, h₂, h₃⟩ := hmeta
      rw [hfull m h₁ h₂] at h₃
      cases h₃
    · rw [bind_of_ok (onMeta_of_ok (w := s.view pid) hmade)]
      dsimp only
      by_cases hp : name.length < pathMax
      · refine iff_of_true ?_ ⟨hp, hrow⟩
        obtain ⟨w', hres, hlaid⟩ := uploadData_complete env (m := m)
          (w := { s.view pid with
            table := t₁.setMb m (fun b => { b with path := name, s := st }) }) wf.links hmax hroom
        rw [strcpyPath_eq hp, run_setMb]
        dsimp only
        rw [setMb_setMb, bind_of_ok hres]
        exact ⟨m, w', rfl, hlaid.canonical wf hc hst⟩
      · refine iff_of_false ?_ (fun hadm => hp hadm.1)
        rintro ⟨m', w', hrun', _⟩
        rw [strcpyPath_undef hp] at hrun'
        cases hrun'
  · refine iff_of_false ?_ (fun hadm => hrow hadm.2)
    rintro ⟨m', w', hrun', _⟩
    obtain ⟨e, t', hstop⟩ := hwf.create_stops env.mrand hrow
    rw [onMeta, bind_of_error (zoom_of_error (s := s.view pid) hstop)] at hrun'
    cases hrun'

/-! In the empty store, and behind a failed rename. -/

theorem freeBuckets_initData : freeBuckets initData = totBuckets := by
  have hall : ∀ b ∈ Finset.range totBuckets, (initData.bucket b).inUse = false := fun _ _ => rfl
  rw [freeBuckets, Finset.filter_true_of_mem hall, Finset.card_range]

/-- A file of two buckets, the second of them filled in part. -/
def twoBuckets : List Byte := List.replicate 5000 7

theorem twoBuckets_length : twoBuckets.length = 5000 := List.length_replicate

theorem twoBuckets_fits : twoBuckets.length ≤ maxRwCount := by
  rw [twoBuckets_length]
  decide

theorem upload_canonical_twoBuckets : ∃ m w',
    uploadFile defaultBuild (diskOf twoBuckets twoBuckets_fits) pathA (initSys.view 0) =
      .ok (.ok m) w' ∧ CanonicalUpload (initSys.view 0) w' pathA twoBuckets m := by
  refine (upload_canonical_iff .refl 0 (diskOf twoBuckets twoBuckets_fits) pathA twoBuckets
    (diskOf_content _) (fun m hm => Bool.noConfusion hm) ⟨0, by decide, by decide, rfl⟩ ?_).mpr
    ⟨by decide, 12469, by decide +kernel, rfl⟩
  rw [show initSys.data = initData from rfl, freeBuckets_initData, twoBuckets_length]
  decide

/-- The empty store after a process has renamed the absent `/b` to `/a`. -/
def renamedAbsent : Sys := afterCalls [.rename pathB pathA]

/-- The failed rename has left the row of `/a` locked: its upload does not return. -/
theorem upload_behind_rename : Run defaultBuild AnyCall initSys renamedAbsent ∧
    diskContent (diskOf [1, 2, 3] (by decide)) pathA = some [1, 2, 3] ∧
    (∀ m, (renamedAbsent.table.mb m).inUse = false) ∧
    freeBuckets renamedAbsent.data = totBuckets ∧
    ¬ ∃ m w', uploadFile defaultBuild (diskOf [1, 2, 3] (by decide)) pathA
      (renamedAbsent.view 0) = .ok (.ok m) w' ∧
        CanonicalUpload (renamedAbsent.view 0) w' pathA [1, 2, 3] m := by
  refine ⟨?_, diskOf_content _, fun m => rfl, freeBuckets_initData, ?_⟩
  · exact run_of_allReturn (by decide +kernel) (fun c _ s out hret => (Out.isRet_spec hret).1)
  · rintro ⟨m, w', hrun, _⟩
    have hhangs : Ends (uploadFile defaultBuild (diskOf [1, 2, 3] (by decide)) pathA
        (renamedAbsent.view 0)) (fun _ _ => False) (fun _ _ => True) := by decide +kernel
    rw [hrun] at hhangs
    exact hhangs

end Spacefish
