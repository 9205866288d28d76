import Spacefish.ReadWalk
import Spacefish.Upload

/-!
The data part of `upload_file`, from any data segment with sound links: buckets
are taken one after the other, linked behind the one before and filled from the
start. What a free bucket holds does not matter, since its byte count is set.
-/

namespace Spacefish

open LinkedArray Program Buffer

/-- Bucket `ix` filled from its start with `chunk` and nothing else. -/
def DataShm.fill (d : DataShm) (ix : Nat) (chunk : List Byte) : DataShm :=
  d.set ix (fun db => { db with buf := memcpy db.buf 0 chunk, bytes := chunk.length })

/-- `Laid d prev rest d' done new`: the `rest` of a file is stored in the fresh
buckets `new`, which are linked one after the other behind `prev`; `done` is false
when the store was full before the end. -/
inductive Laid : DataShm → Nat → List Byte → DataShm → Bool → List Nat → Prop where
  | done {d prev} : Laid d prev [] d true []
  | full {d prev rest} (hne : rest ≠ []) (hover : DataFull d) : Laid d prev rest d false []
  | next {d prev rest ix d' done new} (hne : rest ≠ []) (hix : ix < totBuckets)
      (hfree : (d.bucket ix).inUse = false)
      (hrest : Laid ((d.grow prev ix).fill ix (rest.take dbucketBufSize)) ix
        (rest.drop dbucketBufSize) d' done new) : Laid d prev rest d' done (ix :: new)

variable {d d' : DataShm} {b c ix off n i prev : Nat} {buf rest chunk : List Byte} {w : World}
  {env : Env} {mb : Int} {done : Bool} {new : List Nat}

theorem fill_bucket_of_ne (hne : c ≠ ix) : (d.fill ix chunk).bucket c = d.bucket c :=
  set_bucket_of_ne _ hne

@[simp] theorem fill_bytes : ((d.fill ix chunk).bucket ix).bytes = chunk.length := by
  simp [DataShm.fill]

@[simp] theorem fill_inUse : ((d.fill ix chunk).bucket c).inUse = (d.bucket c).inUse := by
  by_cases hne : c = ix
  · subst hne
    simp [DataShm.fill]
  · rw [fill_bucket_of_ne hne]

@[simp] theorem fill_next : (d.fill ix chunk).next c = d.next c := by
  by_cases hne : c = ix
  · subst hne
    simp [DataShm.fill, DataShm.next]
  · rw [DataShm.next, fill_bucket_of_ne hne, DataShm.next]

@[simp] theorem fill_lock : ((d.fill ix chunk).bucket c).lock = (d.bucket c).lock := by
  by_cases hne : c = ix
  · subst hne
    simp [DataShm.fill]
  · rw [fill_bucket_of_ne hne]

theorem LinksOk.fill (hd : LinksOk d) (ix : Nat) (chunk : List Byte) :
    LinksOk (d.fill ix chunk) := by
  refine ⟨hd.steps, hd.counter, fun c => by rw [fill_lock]; exact hd.unlocked c, ?_, ?_⟩
  · intro c hc
    rw [fill_inUse] at hc
    rw [fill_next]
    exact hd.fresh c hc
  · intro c
    simp only [fill_next, DataShm.Owned, fill_inUse]
    exact hd.target c

@[simp] theorem take_next : (d.take ix).next c = d.next c := by
  by_cases hc : c = ix
  · subst hc
    simp [DataShm.next, DataShm.take]
  · rw [DataShm.next, DataShm.take, set_bucket_of_ne _ hc, DataShm.next]

theorem take_inUse : ((d.take ix).bucket c).inUse = if c = ix then true else (d.bucket c).inUse := by
  by_cases hc : c = ix
  · subst hc
    simp [DataShm.take]
  · rw [DataShm.take, set_bucket_of_ne _ hc, if_neg hc]

theorem LinksOk.take (hd : LinksOk d) (ix : Nat) : LinksOk (d.take ix) := by
  refine ⟨hd.steps, hd.counter, ?_, ?_, ?_⟩
  · intro c
    by_cases hc : c = ix
    · subst hc
      simpa [DataShm.take] using hd.unlocked c
    · rw [DataShm.take, set_bucket_of_ne _ hc]
      exact hd.unlocked c
  · intro c hc
    rw [take_inUse] at hc
    split at hc
    · cases hc
    · rw [take_next]
      exact hd.fresh c hc
  · intro c
    rw [take_next]
    refine (hd.target c).imp id (fun hown => ⟨hown.1, ?_⟩)
    rw [take_inUse]
    split
    · rfl
    · exact hown.2

theorem run_setMb {β : Type} (f : MetaBucket → MetaBucket) (k : PUnit → Op World β)
    (w : World) : (setMb mb f >>= k) w = k ⟨⟩ { w with table := w.table.setMb mb f } := rfl

theorem onData_getDbucketPtr {β : Type} {k : DataBucket → Op World β}
    (hsteps : w.data.dbucketSteps = totalStepsAllowed) (hb : b < totBuckets) :
    (onData (getDbucketPtr b) >>= k) w = k (w.data.bucket b) w :=
  bind_of_ok (onData_of_ok (getDbucketPtr_eq hsteps hb))

/-- How the rounds behind the bucket `prev` end. -/
def LaidBehind (w : World) (prev : Nat) (rest : List Byte) (done : Bool) (w' : World) : Prop :=
  w'.table = w.table ∧ w'.fdTable = w.fdTable ∧ ∃ new, Laid w.data prev rest w'.data done new

/-- The rounds from the second bucket on, with the tail. -/
theorem uploadRounds_laid {bld : Build} (env : Env) (mb : Int)
    (hbld : bld.getFreeDbucketIx = bucketIxAllocAllRandom)
    (hd : LinksOk w.data) (hprev : w.data.Owned prev)
    (hfull : (w.data.bucket prev).bytes = dbucketBufSize) (hi : 0 < i)
    (hoff : off < dbucketBufSize) (hbuf : buf.length = (i + n) * dbucketBufSize + off) :
    Ends ((uploadRounds bld env mb buf n i prev >>=
        uploadTail bld env buf (i + n : Nat) off) w)
      (fun _ w' => LaidBehind w prev (buf.drop (i * dbucketBufSize)) true w')
      (fun e w' => e = .exit .dataBucketOverUse ∧
        LaidBehind w prev (buf.drop (i * dbucketBufSize)) false w') := by
  induction n generalizing i prev w with
  | zero =>
      rw [uploadRounds, run_pure_bind, uploadTail, Int.toNat_natCast]
      have hrest : (buf.drop (i * dbucketBufSize)).length = off := by
        rw [List.length_drop, hbuf, Nat.add_zero]
        omega
      by_cases hzero : off = 0
      · rw [run_ite, if_pos hzero]
        have hnil : buf.drop (i * dbucketBufSize) = [] :=
          List.length_eq_zero_iff.mp (by omega)
        rw [hnil]
        exact ⟨rfl, rfl, [], .done⟩
      · have hne : buf.drop (i * dbucketBufSize) ≠ [] := by
          intro hnil
          rw [hnil] at hrest
          simp at hrest
          omega
        rw [run_ite, if_neg hzero, run_ite, if_neg (by omega), run_get_bind, run_ite,
          if_neg (by rw [hfull]; decide), hbld]
        rcases bucketIxAllocAllRandom_cases hd (env.rand (i + 0)) with
          ⟨ix, hix, hfree, halloc⟩ | ⟨hover, halloc⟩
        · rw [bind_of_ok (onData_of_ok halloc), run_onData_modify,
            onData_getDbucketPtr (by exact hd.steps) hix, Nat.add_zero]
          have hend : (buf.drop (i * dbucketBufSize)).drop dbucketBufSize = [] :=
            List.drop_of_length_le (by omega)
          have hlast : (buf.drop (i * dbucketBufSize)).take dbucketBufSize =
              (buf.drop (i * dbucketBufSize)).take off := by
            rw [List.take_of_length_le (by omega), List.take_of_length_le (by omega)]
          refine ⟨rfl, rfl, [ix], .next hne hix hfree ?_⟩
          rw [hend, hlast, DataShm.fill, List.length_take, hrest, Nat.min_self]
          exact .done
        · rw [bind_of_error (onData_of_error halloc), ends_error]
          exact ⟨rfl, rfl, rfl, [], .full hne hover⟩
  | succ n ih =>
      have hrest : (buf.drop (i * dbucketBufSize)).length = (n + 1) * dbucketBufSize + off := by
        rw [List.length_drop, hbuf, Nat.add_mul]
        omega
      have hne : buf.drop (i * dbucketBufSize) ≠ [] := by
        intro hnil
        rw [hnil, Nat.add_mul] at hrest
        simp [dbucketBufSize] at hrest
        omega
      have hlen : ((buf.drop (i * dbucketBufSize)).take dbucketBufSize).length =
          dbucketBufSize := by
        rw [List.length_take, hrest, Nat.add_mul]
        omega
      have hdrop : (buf.drop (i * dbucketBufSize)).drop dbucketBufSize =
          buf.drop ((i + 1) * dbucketBufSize) := by
        rw [Nat.add_mul, Nat.one_mul, List.drop_drop]
      rw [uploadRounds, hbld, bind_assoc]
      rcases bucketIxAllocAllRandom_cases hd (env.rand i) with
        ⟨ix, hix, hfree, halloc⟩ | ⟨hover, halloc⟩
      · rw [bind_of_ok (onData_of_ok halloc), if_neg (by omega), bind_assoc, run_onData_modify,
          bind_assoc, onData_getDbucketPtr (by exact hd.steps) hix, bind_assoc, run_onData_modify]
        have hfill : (w.data.grow prev ix).set ix (fun db =>
            { db with buf := memcpy db.buf 0 ((buf.drop (i * dbucketBufSize)).take dbucketBufSize)
                      bytes := dbucketBufSize }) =
            (w.data.grow prev ix).fill ix ((buf.drop (i * dbucketBufSize)).take dbucketBufSize) := by
          rw [DataShm.fill, hlen]
        change Ends ((uploadRounds bld env mb buf n (i + 1) ix >>= _)
          { w with data := (w.data.grow prev ix).set ix _ }) _ _
        rw [hfill, show i + (n + 1) = i + 1 + n by omega]
        refine (ih (w := { w with data := (w.data.grow prev ix).fill ix _ })
          ((hd.grow hprev.2 hix hfree).fill _ _)
          ⟨hix, by rw [fill_inUse, grow_inUse, if_pos rfl]⟩ (fill_bytes.trans hlen) (by omega)
          (by rw [hbuf]; congr 2; omega)).mono ?_ ?_
        · rintro _ w' ⟨htab, hfd, new, hlaid⟩
          rw [← hdrop] at hlaid
          exact ⟨htab, hfd, ix :: new, .next hne hix hfree hlaid⟩
        · rintro e w' ⟨he, htab, hfd, new, hlaid⟩
          rw [← hdrop] at hlaid
          exact ⟨he, htab, hfd, ix :: new, .next hne hix hfree hlaid⟩
      · rw [bind_of_error (onData_of_error halloc), ends_error]
        exact ⟨rfl, rfl, rfl, [], .full hne hover⟩

/-- How the data part of an upload of `buf` to bucket `mb` may end: the file has a
fresh first bucket, and the rest is stored behind it. -/
def LaidFile (w : World) (mb : Int) (buf : List Byte) (done : Bool) (w' : World) : Prop :=
  ∃ ix new, ix < totBuckets ∧ (w.data.bucket ix).inUse = false ∧
    Laid ((w.data.take ix).fill ix (buf.take dbucketBufSize)) ix (buf.drop dbucketBufSize) w'.data
      done new ∧
    w'.table = w.table.setMb mb (fun m => { m with firstDbucket := ix }) ∧
    w'.fdTable = w.fdTable

theorem set_set (f g : DataBucket → DataBucket) :
    (d.set b f).set b g = d.set b (fun db => g (f db)) := by
  simp [DataShm.set]

/-- A file shorter than a bucket. -/
theorem uploadShort_laid {bld : Build} (hbld : bld.getFreeDbucketIx = bucketIxAllocAllRandom)
    (hd : LinksOk w.data) (hix : ix < totBuckets) (hfree : (w.data.bucket ix).inUse = false)
    (halloc : bucketIxAllocAllRandom (env.rand 0) w.data = .ok ix (w.data.take ix))
    (hshort : buf.length < dbucketBufSize) {E : Halt → World → Prop} :
    Ends ((uploadFirst bld env mb 0 >>= fun first => uploadRounds bld env mb buf 0 0 first >>=
        uploadTail bld env buf 0 buf.length) w)
      (fun _ w' => LaidFile w mb buf true w') E := by
  have hfirst : uploadFirst bld env mb 0 w = .ok ix
      { w with data := (w.data.take ix).set ix (fun db => { db with bytes := 0 })
               table := w.table.setMb mb (fun m => { m with firstDbucket := ix }) } := by
    rw [uploadFirst, if_pos rfl, hbld, bind_of_ok (onData_of_ok halloc),
      onData_getDbucketPtr (by exact hd.steps) hix, run_onData_modify]
    rfl
  rw [bind_of_ok hfirst, uploadRounds, run_pure_bind, uploadTail, run_ite]
  have hdone : ∀ d', d' = (w.data.take ix).fill ix buf →
      Laid ((w.data.take ix).fill ix (buf.take dbucketBufSize)) ix (buf.drop dbucketBufSize) d'
        true [] := by
    rintro d' rfl
    rw [List.take_of_length_le (Nat.le_of_lt hshort), List.drop_of_length_le (Nat.le_of_lt hshort)]
    exact .done
  by_cases hzero : buf.length = 0
  · rw [if_pos hzero]
    refine ⟨ix, [], hix, hfree, hdone _ ?_, rfl, rfl⟩
    obtain rfl := List.length_eq_zero_iff.mp hzero
    simp [DataShm.fill]
  · rw [if_neg hzero, run_ite, if_neg (by omega), run_get_bind, run_ite,
      if_pos (by rw [set_bucket_self]), List.take_length]
    refine ⟨ix, [], hix, hfree, hdone _ ?_, rfl, rfl⟩
    dsimp only
    rw [DataShm.fill, set_set]

/-- A file of at least one whole bucket. -/
theorem uploadLong_laid {bld : Build} (hbld : bld.getFreeDbucketIx = bucketIxAllocAllRandom)
    (hd : LinksOk w.data) (hix : ix < totBuckets) (hfree : (w.data.bucket ix).inUse = false)
    (halloc : bucketIxAllocAllRandom (env.rand 0) w.data = .ok ix (w.data.take ix))
    (hoff : off < dbucketBufSize) (hbuf : buf.length = (1 + n) * dbucketBufSize + off) :
    Ends ((uploadFirst bld env mb (1 + n : Nat) >>= fun first =>
        uploadRounds bld env mb buf (1 + n) 0 first >>=
        uploadTail bld env buf (1 + n : Nat) off) w)
      (fun _ w' => LaidFile w mb buf true w')
      (fun e w' => e = .exit .dataBucketOverUse ∧ LaidFile w mb buf false w') := by
  have hlen : (buf.take dbucketBufSize).length = dbucketBufSize := by
    rw [List.length_take, hbuf, Nat.add_mul]
    omega
  have hfill : (w.data.take ix).set ix (fun db =>
      { db with buf := memcpy db.buf 0 (buf.take dbucketBufSize), bytes := dbucketBufSize }) =
      (w.data.take ix).fill ix (buf.take dbucketBufSize) := by
    rw [DataShm.fill, hlen]
  have hrest := uploadRounds_laid (w := { w with
      data := (w.data.take ix).fill ix (buf.take dbucketBufSize)
      table := w.table.setMb mb (fun m => { m with firstDbucket := ix }) })
    env mb hbld ((hd.take ix).fill _ _) ⟨hix, by rw [fill_inUse, take_inUse, if_pos rfl]⟩
    (fill_bytes.trans hlen) Nat.one_pos hoff hbuf
  rw [uploadFirst, if_neg (by omega), run_pure_bind, Nat.add_comm 1 n, uploadRounds, hbld,
    bind_assoc, bind_of_ok (onData_of_ok halloc), if_pos rfl, bind_assoc]
  rw [run_setMb, bind_assoc, onData_getDbucketPtr (by exact hd.steps) hix, bind_assoc,
    run_onData_modify, Nat.zero_mul, List.drop_zero]
  dsimp only
  rw [hfill, Nat.add_comm n 1]
  rw [Nat.one_mul] at hrest
  refine hrest.mono ?_ ?_
  · rintro _ w' ⟨htab, hfd, new, hlaid⟩
    exact ⟨ix, new, hix, hfree, hlaid, htab, hfd⟩
  · rintro e w' ⟨he, htab, hfd, new, hlaid⟩
    exact ⟨he, ix, new, hix, hfree, hlaid, htab, hfd⟩

/-- The data part of `upload_file`. -/
theorem uploadData_laid (bld : Build) (env : Env) (mb : Int)
    (hbld : bld.getFreeDbucketIx = bucketIxAllocAllRandom)
    (hd : LinksOk w.data) (hbuf : buf.length ≤ maxRwCount) :
    Ends (uploadData bld env mb buf buf.length w)
      (fun _ w' => LaidFile w mb buf true w')
      (fun e w' => e = .exit .dataBucketOverUse ∧
        ((DataFull w.data ∧ w' = w) ∨ LaidFile w mb buf false w')) := by
  have hrounds : toInt (buf.length / dbucketBufSize : Nat) = (buf.length / dbucketBufSize : Nat) :=
    toInt_eq (by unfold maxRwCount at hbuf; unfold dbucketBufSize; omega)
  have hoff : buf.length % dbucketBufSize < dbucketBufSize := Nat.mod_lt _ (by decide)
  have hdiv := Nat.div_add_mod buf.length dbucketBufSize
  unfold uploadData
  rw [hrounds, Int.toNat_natCast]
  rcases bucketIxAllocAllRandom_cases hd (env.rand 0) with
    ⟨ix, hix, hfree, halloc⟩ | ⟨hover, halloc⟩
  · cases hq : buf.length / dbucketBufSize with
    | zero =>
        rw [hq, Nat.mul_zero, Nat.zero_add] at hdiv
        rw [hdiv]
        exact uploadShort_laid hbld hd hix hfree halloc (by omega)
    | succ n =>
        rw [hq, Nat.mul_comm] at hdiv
        rw [Nat.add_comm n 1] at hdiv ⊢
        refine (uploadLong_laid hbld hd hix hfree halloc hoff hdiv.symm).mono
          (fun _ _ h => h) ?_
        rintro e w' ⟨he, h⟩
        exact ⟨he, Or.inr h⟩
  · have hstop : ∀ k : Nat → Op World Unit,
        (onData (bucketIxAllocAllRandom (env.rand 0)) >>= k) w =
          .error (.exit .dataBucketOverUse) w :=
      fun k => bind_of_error (onData_of_error halloc)
    cases hq : buf.length / dbucketBufSize with
    | zero =>
        rw [uploadFirst, if_pos Int.natCast_zero, hbld, bind_assoc, hstop]
        exact ⟨rfl, Or.inl ⟨hover, rfl⟩⟩
    | succ n =>
        rw [uploadFirst, if_neg (by omega), run_pure_bind, uploadRounds, hbld, bind_assoc, hstop]
        exact ⟨rfl, Or.inl ⟨hover, rfl⟩⟩

end Spacefish
