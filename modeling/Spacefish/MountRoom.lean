import Spacefish.Mount
import Spacefish.DirtyFlag
import Spacefish.UploadChain

/-!
A mount that has room for the directory tree returns, and it leaves no file that the
shutdown would write back. The data buckets a file takes are counted against the free
ones.
-/

namespace Spacefish

open LinkedArray Program

variable {d d' : DataShm} {prev : Nat} {rest buf : List Byte} {done : Bool} {new : List Nat}
  {tree : DirStream} {name p : Path} {root : Option Path} {w w' w₁ : World}
  {l : List (Env × Path)} {s : Sys} {pid : Nat} {env : Env} {a : Flat} {m : Int}
  {rows : Nat → List Int} {ch : Int → List Nat}

/-! Counting buckets. -/

theorem Laid.count (hl : Laid d prev rest d' done new) :
    freeBuckets d = freeBuckets d' + new.length := by
  induction hl with
  | done => exact (Nat.add_zero _).symm
  | full _ _ => exact (Nat.add_zero _).symm
  | next hne hix hfree hrest ih =>
      rw [freeBuckets_taken hix hfree (fun b => fill_inUse.trans grow_inUse), ih,
        List.length_cons, Nat.add_assoc]

/-- An upload takes one bucket for each started `DBUCKET_BUF_SIZE` bytes, and one for an
empty file. -/
theorem LaidFile.count (hl : LaidFile w m buf true w') :
    freeBuckets w.data = freeBuckets w'.data + max 1 (bucketsFor buf.length) := by
  obtain ⟨ix, new, hix, hfree, hlaid, _⟩ := hl
  obtain ⟨_, _, hlen⟩ := hlaid.content_eq rfl
  have hfirst : freeBuckets w.data =
      freeBuckets ((w.data.take ix).fill ix (buf.take dbucketBufSize)) + 1 :=
    freeBuckets_taken hix hfree (fun b => fill_inUse.trans take_inUse)
  rw [hfirst, hlaid.count, hlen, List.length_drop]
  unfold bucketsFor dbucketBufSize
  omega

/-- The data buckets that an upload needs at most. -/
def uploadCost (env : Env) (name : Path) : Nat :=
  match diskContent env name with
  | some buf => max 1 (bucketsFor buf.length)
  | none => 0

/-- The name fits its field and has a hash. -/
def Storable (p : Path) : Prop := p.length < pathMax ∧ ∃ h, hash p = .ok h

/-- With enough free buckets an upload returns, and it takes no more than its cost. -/
theorem FlatInv.uploadFile_returns (pid : Nat) (hinv : FlatInv s rows ch a) (hstor : Storable name)
    (hread : ¬ ShortRead env name) (hroom : uploadCost env name ≤ freeBuckets s.data) :
    ∃ r w', uploadFile defaultBuild env name (s.view pid) = .ok r w' ∧
      freeBuckets s.data ≤ freeBuckets w'.data + uploadCost env name := by
  obtain ⟨hlen, h, hok⟩ := hstor
  cases hdisk : diskContent env name with
  | none =>
      have hstop : ∃ err, uploadFile defaultBuild env name (s.view pid) =
          .ok (.error err) (s.view pid) := by
        unfold uploadFile
        unfold diskContent at hdisk
        cases hstat : env.realStat name with
        | error err => exact ⟨err, rfl⟩
        | ok st =>
            rw [hstat] at hdisk
            dsimp only at hdisk ⊢
            by_cases hopen : env.realOpen name 0 < 0
            · rw [if_pos hopen]
              exact ⟨_, rfl⟩
            · rw [if_neg hopen] at hdisk
              by_cases hall : (env.realRead (env.realOpen name 0) st.stSize).1 = st.stSize
              · rw [if_pos hall] at hdisk
                cases hdisk
              · exact absurd ⟨st, hstat, by omega, hall⟩ hread
      obtain ⟨err, hrun⟩ := hstop
      exact ⟨_, _, hrun, Nat.le_add_right _ _⟩
  | some buf =>
      have hcost : uploadCost env name = max 1 (bucketsFor buf.length) := by
        rw [uploadCost, hdisk]
      rw [hcost] at hroom ⊢
      obtain ⟨st, hst, hmax, heq⟩ := uploadFile_eq hdisk (s.view pid)
      rw [heq]
      rcases hinv.tableWf.strictCreateMbucket_eq env.mrand hok (hinv.idle h) with
        ⟨hrun, _⟩ | ⟨m, t₁, hrun, _, _⟩
      · rw [bind_of_ok (onMeta_of_ok (w := s.view pid) hrun)]
        exact ⟨_, _, rfl, Nat.le_add_right _ _⟩
      · rw [bind_of_ok (onMeta_of_ok (w := s.view pid) hrun)]
        dsimp only
        obtain ⟨w', hres, hlaid⟩ := uploadData_complete env (m := m)
          (w := { s.view pid with table := t₁.setMb m (fun b => { b with path := name, s := st }) })
          hinv.rep.wf.store.links hmax hroom
        rw [strcpyPath_eq hlen, run_setMb]
        dsimp only
        rw [setMb_setMb, bind_of_ok hres]
        exact ⟨_, w', rfl, Nat.le_of_eq hlaid.count⟩

/-- Uploads that fit together return. -/
theorem FlatInv.uploadAll_returns (pid : Nat) (hinv : FlatInv s rows ch a) (hstor : ∀ x ∈ l, Storable x.2)
    (hread : ∀ x ∈ l, ¬ ShortRead x.1 x.2)
    (hroom : (l.map (fun x => uploadCost x.1 x.2)).sum ≤ freeBuckets s.data) :
    ∃ w', Spacefish.uploadAll defaultBuild l (s.view pid) = .ok () w' := by
  induction l generalizing s rows ch a with
  | nil => exact ⟨_, rfl⟩
  | cons x l ih =>
      obtain ⟨env, p⟩ := x
      rw [List.map_cons, List.sum_cons] at hroom
      dsimp only at hroom
      have hread₁ : ¬ ShortRead env p := hread (env, p) (by simp)
      have hstor₁ : Storable p := hstor (env, p) (by simp)
      obtain ⟨r, w₁, hup, hcount⟩ := hinv.uploadFile_returns pid hstor₁ hread₁
        (Nat.le_trans (Nat.le_add_right _ _) hroom)
      obtain ⟨r', hexec⟩ := exec_upload hup
      have hallow : NameAllowed s ⟨pid, env, .upload p⟩ (.ret r') := 
        ⟨hread₁, (fun h => by cases h), (fun h => by cases h)⟩
      obtain ⟨a₁, rows₁, ch₁, _, hinv₁⟩ := hinv.nameStep hallow hexec
      have hleft : (l.map (fun x => uploadCost x.1 x.2)).sum ≤ freeBuckets (s.put pid w₁).data := by
        change _ ≤ freeBuckets w₁.data
        omega
      obtain ⟨w', hrest⟩ := ih hinv₁ (fun x hx => hstor x (by simp [hx]))
        (fun x hx => hread x (by simp [hx])) hleft
      rw [put_view_self] at hrest
      exact ⟨w', by rw [Spacefish.uploadAll, bind_of_ok hup, hrest]⟩

/-! Nothing to write back. -/

/-- No meta bucket is marked as modified. -/
def Unmodified (t : MetaShm) : Prop := ∀ m, (t.mb m).consisent = true

theorem Made.unmodified {t t' : MetaShm} {q : Path} {h : Nat}
    (hm : Made t rows p h m q false t') (hun : Unmodified t) : Unmodified t' := by
  obtain ⟨t₁, hc, he⟩ := hm.made
  intro b
  by_cases hb : b = m
  · subst hb
    rw [he.consisent, hc.new.consisent, hun b]
    rfl
  · rw [he.other b hb, (hc.same b hb).consisent, hun b]

/-- An upload marks no file. -/
theorem uploadFile_unmodified {r : Except Errno Int} (wf : TableWf w.table rows)
    (hun : Unmodified w.table) (hrun : uploadFile defaultBuild env name w = .ok r w') :
    Unmodified w'.table := by
  have hends : Ends (uploadFile defaultBuild env name w) _ _ := uploadFile_table wf name
  rw [hrun] at hends
  rcases hends with ⟨_, htab⟩ | ⟨_, ⟨_, _, h, m, q, hm⟩ | ⟨h, m, _, _, hm⟩⟩
  · rw [htab]
    exact hun
  · exact hm.unmodified hun
  · exact hm.unmodified hun

theorem FlatInv.uploadAll_unmodified (hinv : FlatInv s rows ch a)
    (hrun : Spacefish.uploadAll defaultBuild l (s.view pid) = .ok () w')
    (hread : ∀ x ∈ l, ¬ ShortRead x.1 x.2) (hun : Unmodified s.table) : Unmodified w'.table := by
  induction l generalizing s rows ch a with
  | nil =>
      have hw : s.view pid = w' := (EStateM.Result.ok.inj hrun).2
      rw [← hw]
      exact hun
  | cons x l ih =>
      obtain ⟨env, p⟩ := x
      rw [Spacefish.uploadAll] at hrun
      cases hup : uploadFile defaultBuild env p (s.view pid) with
      | error h w₁ =>
          rw [bind_of_error hup] at hrun
          cases hrun
      | ok r w₁ =>
          rw [bind_of_ok hup] at hrun
          obtain ⟨r', hexec⟩ := exec_upload hup
          have hallow : NameAllowed s ⟨pid, env, .upload p⟩ (.ret r') :=
            ⟨hread (env, p) (by simp), (fun h => by cases h), (fun h => by cases h)⟩
          obtain ⟨a₁, rows₁, ch₁, _, hinv₁⟩ := hinv.nameStep hallow hexec
          have hwf : TableWf (s.view pid).table rows := hinv.tableWf
          exact ih hinv₁ (by rw [put_view_self]; exact hrun) (fun x hx => hread x (by simp [hx]))
            (uploadFile_unmodified hwf hun hup)

/-- `flush_write` in a state without marks. -/
theorem flushWrite_unmodified (env : Env) (hun : Unmodified w.table) :
    flushWrite env w = .ok [] w := by
  have hclean : ∀ m, ¬ Dirty w m := by
    rintro m ⟨_, hmark⟩
    rw [hun m] at hmark
    cases hmark
  have hends := flushWrite_ends env w
  cases hrun : flushWrite env w with
  | error h w' =>
      rw [hrun] at hends
      obtain ⟨m, hdirty, _⟩ := hends
      exact absurd hdirty (hclean m)
  | ok calls w' =>
      rw [hrun] at hends
      obtain ⟨rfl, _, hmem⟩ := hends
      cases calls with
      | nil => rfl
      | cons c calls => exact absurd ((hmem c.1).mp (by simp)).2.2 (hclean _)

/-- What a mount that has room leaves. -/
theorem initMountRoot_flat (pid : Nat) (hnames : mountNames tree (root.getD dotPath) = some l)
    (hstor : ∀ x ∈ l, Storable x.2) (hread : ∀ x ∈ l, ¬ ShortRead x.1 x.2)
    (hfew : l.length ≤ metaBuckets)
    (hroom : (l.map (fun x => uploadCost x.1 x.2)).sum ≤ totBuckets) :
    ∃ w' rows ch a, initMountRoot defaultBuild root tree (initSys.view pid) = .ok () w' ∧
      Unmodified w'.table ∧ FlatInv (initSys.put pid w') rows ch a ∧
      (∀ p, a.files p = (uploadedContent l p).map (⟨·, 0⟩)) ∧ ∀ q, a.fds q = startFds := by
  have hfree : freeBuckets initSys.data = totBuckets := freeBuckets_initData
  obtain ⟨w', hups⟩ := initSys_flatInv.uploadAll_returns pid hstor hread (hfree ▸ hroom)
  have hnone : Flat.start.Within [] := fun p hp => absurd rfl hp
  obtain ⟨rows, ch, hinv⟩ := initSys_flatInv.uploadAll hups hread hnone
    (by simpa using hfew)
  refine ⟨w', rows, ch, l.foldl (fun a x => a.upload x.1 x.2) Flat.start,
    (uploadDir_eq hnames).trans hups, ?_, hinv, fun p => ?_, fun q => ?_⟩
  · exact initSys_flatInv.uploadAll_unmodified hups hread (fun _ => rfl)
  · rw [uploads_files]
    rfl
  · rw [uploads_fds]
    rfl

/-- A mount returns when the paths can be built and stored, the files of the tree are not
more than the meta buckets and the buckets of their data not more than the data buckets.
It leaves exactly the files of the tree, with the content that the disk answered and none
of them open, and a shutdown right behind it writes nothing. All that programs then see
is what they see on the flat files that start so. -/
theorem mount_loads_tree (pid : Nat) (hnames : mountNames tree (root.getD dotPath) = some l)
    (hstor : ∀ x ∈ l, Storable x.2) (hread : ∀ x ∈ l, ¬ ShortRead x.1 x.2)
    (hfew : l.length ≤ metaBuckets)
    (hroom : (l.map (fun x => uploadCost x.1 x.2)).sum ≤ totBuckets) :
    ∃ w', initMountRoot defaultBuild root tree (initSys.view pid) = .ok () w' ∧
      (∀ env, flushWrite env w' = .ok [] w') ∧
      ∃ a, (∀ p, a.files p = (uploadedContent l p).map (⟨·, 0⟩)) ∧ (∀ q, a.fds q = startFds) ∧
        ∀ es, Along defaultBuild NameAllowed (initSys.put pid w') es →
          ∃ a', NameRun a es (outs defaultBuild (initSys.put pid w') es) a' ∧
            Represents (afterEvents (initSys.put pid w') es) a' := by
  obtain ⟨w', _, _, a, hrun, hun, hinv, hfiles, hfds⟩ :=
    initMountRoot_flat pid hnames hstor hread hfew hroom
  refine ⟨w', hrun, fun env => flushWrite_unmodified env hun, a, hfiles, hfds, fun es hes => ?_⟩
  obtain ⟨a', _, _, hsteps, hinv'⟩ := hinv.nameRun hes
  exact ⟨a', hsteps, hinv'.sim⟩

/-- The directory `/m` with a file `b` and a directory `d` that has a file `a`. -/
def smallTree : DirStream :=
  .dir dotPath .eof (.dir [100]
    (.dir dotDotPath .eof (.file [97] (diskOf [1, 2, 3] (by decide)) .eof))
    (.file [98] (diskOf [] (by decide)) .eof))

/-- The files of `smallTree` in the order of their uploads. -/
def smallFiles : List (Env × Path) :=
  [(diskOf [1, 2, 3] (by decide), [47, 109, 47, 100, 47, 97]),
    (diskOf [] (by decide), [47, 109, 47, 98])]

theorem diskOf_reads {data : List Byte} (hlen : data.length ≤ maxRwCount) :
    ¬ ShortRead (diskOf data hlen) p := by
  rintro ⟨st, hst, _, hne⟩
  obtain rfl := Except.ok.inj hst
  exact hne rfl

theorem mount_loads_smallTree : ∃ w',
    initMountRoot defaultBuild (some [47, 109]) smallTree (initSys.view 0) = .ok () w' ∧
      flushWrite emptyDisk w' = .ok [] w' := by
  have hstor : ∀ x ∈ smallFiles, Storable x.2 := by
    intro x hx
    simp only [smallFiles, List.mem_cons, List.not_mem_nil, or_false] at hx
    rcases hx with rfl | rfl
    · exact ⟨by decide, 7908, by decide +kernel⟩
    · exact ⟨by decide, 11122, by decide +kernel⟩
  have hread : ∀ x ∈ smallFiles, ¬ ShortRead x.1 x.2 := by
    intro x hx
    simp only [smallFiles, List.mem_cons, List.not_mem_nil, or_false] at hx
    rcases hx with rfl | rfl
    · exact diskOf_reads (by decide)
    · exact diskOf_reads (by decide)
  have hroom : (smallFiles.map (fun x => uploadCost x.1 x.2)).sum ≤ totBuckets := by
    simp only [smallFiles, List.map_cons, List.map_nil, uploadCost, diskOf_content]
    decide
  have hnames : mountNames smallTree ((some [47, 109]).getD dotPath) = some smallFiles := rfl
  obtain ⟨w', hrun, hflush, _⟩ := mount_loads_tree 0 hnames hstor hread (by decide) hroom
  exact ⟨w', hrun, hflush emptyDisk⟩

end Spacefish
