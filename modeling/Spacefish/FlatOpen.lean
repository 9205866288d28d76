import Spacefish.FlatRefinement

/-!
`open` and uploads on the flat files: the file that a path has or is given, why there is
none, and the descriptor.
-/

namespace Spacefish

open LinkedArray Program Buffer

variable {s s' : Sys} {rows rows' : Nat → List Int} {ch ch' : Int → List Nat} {a : Flat}
  {pid n i : Nat} {fd : Int} {env : Env} {e : Event} {out : Out} {w w' w₁ : World} {m : Int}
  {pathname p name : Path} {flags mode : Nat} {files : Path → Option FlatFile} {f : FlatFile}
  {c : List Byte} {h : Halt} {P : UErr → Prop}

theorem FilesAre.congr (hfiles : FilesAre s files) (htab : s'.table = s.table)
    (hdata : s'.data = s.data) : FilesAre s' files := by
  obtain ⟨t, d, fds⟩ := s
  obtain ⟨t', d', fds'⟩ := s'
  obtain rfl : t' = t := htab
  obtain rfl : d' = d := hdata
  refine ⟨fun m hm => ?_, hfiles.only, hfiles.unique⟩
  obtain ⟨f, hf, his⟩ := hfiles.file m hm
  exact ⟨f, hf, his.content, his.size, his.cursor⟩

/-- The descriptors of the model when those of one process have changed. -/
theorem Represents.put {a' : Flat} (hsim : Represents s a) (hfiles : FilesAre (s.put pid w') a'.files)
    (hother : ∀ q ≠ pid, a'.fds q = a.fds q)
    (hpath : ∀ m, (s.table.mb m).inUse = true → (w'.table.mb m).path = (s.table.mb m).path)
    (hused : ∀ q i, (s.fds q i).isUser = true → (s.table.mb (s.fds q i).mindex).inUse = true)
    (hself : ∀ i, a'.fds pid i = (w'.fdTable i).flat w'.table) :
    Represents (s.put pid w') a' := by
  refine ⟨hfiles, fun q i => ?_⟩
  by_cases hq : q = pid
  · subst hq
    rw [hself]
    simp [Sys.put]
  · rw [hother q hq, hsim.fds]
    simp only [Sys.put, Function.update_of_ne hq]
    exact (FdInfo.flat_congr rfl rfl (fun huser => hpath _ (hused q i huser))).symm

theorem FlatInv.slot_used (hinv : FlatInv s rows ch a) (q i : Nat)
    (huser : (s.fds q i).isUser = true) : (s.table.mb (s.fds q i).mindex).inUse = true := by
  obtain ⟨hexcl, hempty⟩ := FdInfo.isUser_iff.mp huser
  exact (hinv.rep.wf.slots q i).used hempty hexcl

/-- A process that ended takes its descriptors with it. -/
theorem FlatInv.exit (hinv : FlatInv s rows ch a) (htab : w'.table = s.table)
    (hdata : w'.data = s.data) :
    Represents (s.put pid { w' with fdTable := initFdTable }) (a.leave pid) := by
  refine hinv.sim.put (hinv.sim.toFilesAre.congr htab hdata) ?_ ?_ hinv.slot_used ?_
  · exact fun q hq => Function.update_of_ne hq _ _
  · exact fun m _ => by rw [htab]
  · intro i
    dsimp only [Flat.leave]
    rw [Function.update_self]
    exact (initFd_flat _ i).symm

/-- The other entries of a process whose entry `i` has changed. -/
theorem FlatInv.otherFds {t : MetaShm} {d : FlatFd} {g : FdInfo → FdInfo} (hinv : FlatInv s rows ch a)
    (hpath : ∀ m, (s.table.mb m).inUse = true → (t.mb m).path = (s.table.mb m).path)
    (hself : (g (s.fds pid i)).flat t = d) (j : Nat) :
    (a.setFd pid i d).fds pid j = (((s.view pid).setFd i g).fdTable j).flat t := by
  dsimp only [Flat.setFd, World.setFd, Sys.view]
  rw [Function.update_self]
  by_cases hj : j = i
  · rw [hj, Function.update_self, Function.update_self, hself]
  · rw [Function.update_of_ne hj, Function.update_of_ne hj, hinv.sim.fds]
    exact (FdInfo.flat_congr rfl rfl (fun huser => hpath _ (hinv.slot_used pid j huser))).symm

theorem sysOpen_forwarded (flags mode : Nat) (hexcl : exclusivePath pathname = true) :
    Ends (sysOpen defaultBuild env pathname flags mode w)
      (fun r w' => r = { ret := env.realOpen pathname flags, err := env.realErrno } ∧
        w' = if env.realOpen pathname flags > 0 then
          w.setFd (env.realOpen pathname flags).toNat
            (fun f => { f with empty := false, exclusive := true }) else w)
      (fun e _ => e = .undefined) := by
  unfold sysOpen
  rw [run_ite, if_pos hexcl]
  dsimp only
  rw [run_ite]
  by_cases hpos : env.realOpen pathname flags > 0
  · rw [if_pos hpos, if_pos hpos]
    by_cases hin : 0 ≤ env.realOpen pathname flags ∧ env.realOpen pathname flags < maxNumFd
    · rw [setFddes_eq hin.1 hin.2]
      exact ⟨rfl, rfl⟩
    · rw [setFddes, if_neg hin]
      exact rfl
  · rw [if_neg hpos, if_neg hpos]
    exact ⟨rfl, rfl⟩

/-- A descriptor of the kernel hides one of the store that has its number. -/
theorem FlatInv.forwarded (hinv : FlatInv s rows ch a) (i : Nat) :
    Represents (s.put pid ((s.view pid).setFd i
      (fun f => { f with empty := false, exclusive := true }))) (a.setFd pid i .kernel) := by
  refine hinv.sim.put (hinv.sim.toFilesAre.congr rfl rfl) ?_ (fun _ _ => rfl) hinv.slot_used
    (hinv.otherFds (fun _ _ => rfl) (FdInfo.flat_kernel rfl))
  exact fun q hq => Function.update_of_ne hq _ _

section

variable (hinv : FlatInv s rows ch a)

include hinv

theorem FlatInv.tableWf : TableWf s.table rows := hinv.rep.wf.store.table

/-- The file that a search finds has the path. -/
theorem FlatInv.found_path {h : Nat} (hok : hash p = .ok h)
    (hfind : findPath s.table p (rows h) = some m) :
    (s.table.mb m).inUse = true ∧ (s.table.mb m).path = p := by
  have huse := hinv.tableWf.findPath_inUse hok hfind
  exact ⟨huse, (samePath_short (hinv.named.short m huse) (findPath_same hfind)).symm⟩

/-- A path that the search of its row misses has no file. -/
theorem FlatInv.absent {h : Nat} (hok : hash p = .ok h)
    (hnone : findPath s.table p (rows h) = none) : a.files p = none := by
  cases hfile : a.files p with
  | none => rfl
  | some f =>
      obtain ⟨m, huse, hpath⟩ := hinv.sim.only p f hfile
      exact absurd hpath (hinv.named.absent hinv.tableWf hok hnone m huse)

/-- The files after `open` has found its file and put the cursor to the start. -/
theorem FlatInv.rewound (huse : (s.table.mb m).inUse = true)
    (he : Edited s.table w'.table m rewound) (hdata : w'.data = s.data) :
    ∃ f, a.files (s.table.mb m).path = some f ∧
      FilesAre (s.put pid w') (a.setFile (s.table.mb m).path ⟨f.content, 0⟩).files := by
  obtain ⟨f, hfile, his⟩ := hinv.sim.file m huse
  refine ⟨f, hfile, hinv.sim.toFilesAre.edit hinv.rep.represented huse he Seeks.rewound.toStays
    (fun _ => rfl) (fun _ _ _ _ _ => by rw [hdata])
    (his.moved hdata he (fun _ => rfl) (fun _ => rfl) ?_)⟩
  rw [he.last, he.off]
  intro hne
  obtain ⟨hlinked, _⟩ := hinv.rep.represented.chain m huse
  cases hl : fileChain s m with
  | nil =>
      rw [hl] at hlinked
      exact absurd hlinked hne
  | cons b l =>
      rw [hl] at hlinked
      exact ⟨[], l, by rw [List.nil_append, ← hlinked.1]; rfl, rfl⟩

/-- The model has as many files as meta buckets when every meta bucket is in use. -/
theorem FlatInv.full_iff : a.Full ↔ TableFull s.table := by
  constructor
  · rintro ⟨l, hnodup, hlen, hfiles⟩ m hpos hlt
    have hbucket : ∀ p ∈ l, ∃ b, (s.table.mb b).inUse = true ∧ (s.table.mb b).path = p := by
      intro p hp
      obtain ⟨f, hf⟩ := Option.ne_none_iff_exists'.mp (hfiles p hp)
      exact hinv.sim.only p f hf
    choose! g hg using hbucket
    by_contra hfree
    -- with `m` there are more meta buckets than fit
    have hmany := length_le_of_bound (l := m :: l.map g) ?_ ?_
    · rw [List.length_cons, List.length_map, hlen] at hmany
      omega
    · rw [List.nodup_cons]
      refine ⟨fun hmem => ?_, hnodup.map_on (fun p hp q hq heq => ?_)⟩
      · obtain ⟨p, hp, rfl⟩ := List.mem_map.mp hmem
        exact hfree (hg p hp).1
      · rw [← (hg p hp).2, heq, (hg q hq).2]
    · intro b hb
      rcases List.mem_cons.mp hb with rfl | hb
      · exact ⟨hpos, hlt⟩
      · obtain ⟨p, hp, rfl⟩ := List.mem_map.mp hb
        obtain ⟨k, hk, hmem⟩ := (hinv.tableWf.inUse_iff _).mp (hg p hp).1
        exact hinv.tableWf.bound k hk _ hmem
  · intro hfull
    have hused : ∀ k ∈ List.range metaBuckets, (s.table.mb (k : Nat)).inUse = true := by
      intro k hk
      exact hfull k (Int.natCast_nonneg k) (Int.ofNat_lt.mpr (List.mem_range.mp hk))
    refine ⟨(List.range metaBuckets).map (fun k => (s.table.mb (k : Nat)).path), ?_, by simp, ?_⟩
    · refine List.nodup_range.map_on ?_
      intro k hk l hl heq
      exact Int.ofNat.inj (hinv.sim.unique _ _ (hused k hk) (hused l hl) heq)
    · intro p hp
      obtain ⟨k, hk, rfl⟩ := List.mem_map.mp hp
      obtain ⟨f, hf, _⟩ := hinv.sim.file _ (hused k hk)
      rw [hf]
      simp

/-- A path is given a file when it has none and one more fits. -/
theorem FlatInv.room {buf : List Byte} {h ix : Nat} {new : List Nat} {o : Option WriteOut}
    (hfill : Filled (s.view pid) rows p buf h m ix new o w') : a.files p = none ∧ ¬ a.Full := by
  refine ⟨hinv.absent hfill.file.hashed hfill.file.absent, fun hfull => ?_⟩
  obtain ⟨t₁, hc, _⟩ := hfill.file.edited
  have hused := hinv.full_iff.mp hfull m hc.bound.1 hc.bound.2
  exact absurd (hused.symm.trans hc.fresh) (by simp)

/-- The files after `open` has made one. -/
theorem FlatInv.made {w₁ : World} {buf : List Byte} {h ix : Nat} {new : List Nat} {o : WriteOut}
    (hfill : Filled (s.view pid) rows p buf h m ix new (some o) w₁)
    (he : Edited w₁.table w'.table m Spacefish.rewound) (hdata : w'.data = w₁.data) :
    FilesAre (s.put pid w') (a.setFile p ⟨buf, 0⟩).files := by
  have wf := hinv.store pid
  have hnone := (hinv.room hfill).1
  obtain ⟨hfresh, huse, hpath, hfirst, _, hsize⟩ := hfill.core_eq wf
  have heff : Effect (s.view pid) rows ch emptyDisk (.open p 0 0) true
      ⟨w'.table, w₁.data, Function.update rows h (rows h ++ [m]),
        Function.update ch m (ix :: new)⟩ :=
    .fill hfill he (Or.inr rfl)
  have huse' : (w'.table.mb m).inUse = true := (he.inUse Seeks.rewound.toStays m).trans huse
  have hchain : fileChain (s.put pid w') m = ix :: new := by
    have wf' := (heff.storeWf wf).toLinkWf
    rw [← hdata] at wf'
    have := LinkWf.fileChain_eq (s := s.put pid w') wf' huse'
    rwa [Function.update_self] at this
  have hother : ∀ b ≠ m, (s.table.mb b).inUse = true → SameFile s (s.put pid w') b := by
    intro b hb huseb
    have hcore := hfill.file.core_eq hb
    refine ⟨⟨_, (he.other b hb).trans hcore⟩, fun c hc => ?_⟩
    rw [hinv.rep.wf.store.toLinkWf.fileChain_eq huseb] at hc
    change w'.data.bucket c = _
    rw [hdata]
    exact hfill.bucket_eq wf huseb hc
  refine hinv.sim.toFilesAre.update hinv.rep.represented huse'
    ((he.path Seeks.rewound.path m).trans hpath) ?_ ?_ ?_ hother ⟨?_, ?_, ?_⟩
  · intro hused
    exact absurd (hused.symm.trans hfresh) (by simp)
  · intro b _ hused hbp
    obtain ⟨f, hf, _⟩ := hinv.sim.file b hused
    rw [hbp, hnone] at hf
    cases hf
  · intro b hb
    exact (he.inUse Seeks.rewound.toStays b).trans (congrArg FileCore.inUse (hfill.file.core_eq hb))
  · rw [hchain]
    change content w'.data _ = _
    rw [hdata]
    exact hfill.content_eq wf.data
  · exact he.size.trans hsize
  · rw [hchain]
    change (w'.table.mb m).lastDbucket ≠ noIx → ∃ pre l,
      ix :: new = pre ++ (w'.table.mb m).lastDbucket :: l ∧
        total w'.data pre + (w'.table.mb m).lastDbOffset.toNat = 0
    rw [he.last, he.off]
    refine fun _ => ⟨[], new, ?_, rfl⟩
    change ix :: new = (w₁.table.mb m).core.first :: new
    rw [hfirst]

/-- The descriptors after `open` has taken entry `i` for the path of file `m`. -/
theorem FlatInv.opened {a' : Flat} (hfiles : FilesAre (s.put pid w') a'.files)
    (hfds : a'.fds = a.fds) (hslot : FdOpened (s.fds pid) w'.fdTable i m) (hpos : 0 ≤ m)
    (hpath : (w'.table.mb m).path = p)
    (hkept : ∀ b, (s.table.mb b).inUse = true → (w'.table.mb b).path = (s.table.mb b).path) :
    Represents (s.put pid w') (a'.setFd pid i (.file p)) := by
  have hkernel := (hinv.rep.wf.slots pid i).kernel hslot.low hslot.free
  have hfd : w'.fdTable = ((s.view pid).setFd i (fun f =>
      { f with empty := false, mindex := m.toNat })).fdTable := by
    funext j
    dsimp only [World.setFd, Sys.view]
    rw [Function.update_apply]
    split
    · next hj =>
      rw [hj]
      exact hslot.self
    · next hj => exact hslot.other j hj
  have hself : ({ s.fds pid i with empty := false, mindex := m.toNat } : FdInfo).flat w'.table =
      .file p := by
    refine FdInfo.flat_eq_file.mpr ⟨FdInfo.isUser_iff.mpr ⟨hkernel, rfl⟩, ?_⟩
    rw [Int.toNat_of_nonneg hpos]
    exact hpath
  refine hinv.sim.put hfiles ?_ hkept hinv.slot_used (fun j => ?_)
  · intro q hq
    rw [Flat.setFd, hfds]
    exact Function.update_of_ne hq _ _
  · rw [hfd]
    dsimp only [Flat.setFd]
    rw [hfds]
    exact hinv.otherFds hkept hself j

/-- The descriptors after an `open` that found no empty entry. -/
theorem FlatInv.unslotted {a' : Flat} (hfiles : FilesAre (s.put pid w') a'.files)
    (hfds : a'.fds = a.fds) (hslots : w'.fdTable = s.fds pid)
    (hkept : ∀ b, (s.table.mb b).inUse = true → (w'.table.mb b).path = (s.table.mb b).path) :
    Represents (s.put pid w') a' := by
  refine hinv.sim.put hfiles (fun q _ => by rw [hfds]) hkept hinv.slot_used (fun j => ?_)
  rw [hfds, hslots, hinv.sim.fds]
  exact (FdInfo.flat_congr rfl rfl (fun huser => hkept _ (hinv.slot_used pid j huser))).symm

/-- The entries of a process are taken in the model when they are in the store. -/
theorem FlatInv.taken {j : Nat} (htaken : (s.fds pid j).empty = false) :
    a.fds pid j ≠ .unused := by
  rw [hinv.sim.fds]
  exact FdInfo.flat_taken htaken

end

/-! Finding, making and uploading the file. -/

/-- A call stops without a change, for a reason `P`, when its behaviour is defined and there
are data buckets. -/
def FlatStops (s : Sys) (P : UErr → Prop) (h : Halt) (w' : World) : Prop :=
  h = .undefined ∨ h = .exit .dataBucketOverUse ∨
    ∃ u, h = .exit u ∧ P u ∧ w'.table = s.table ∧ w'.data = s.data

/-- Bucket `m` has the path `p`, and the content `c` from its start on once the cursor is
put there. -/
structure OpensFile (s : Sys) (a : Flat) (pid : Nat) (p : Path) (m : Int) (c : List Byte)
    (w₁ : World) : Prop where
  fds : w₁.fdTable = s.fds pid
  pos : 0 ≤ m
  path : (w₁.table.mb m).path = p
  kept : ∀ b, (s.table.mb b).inUse = true → (w₁.table.mb b).path = (s.table.mb b).path
  files : ∀ w' : World, Edited w₁.table w'.table m Spacefish.rewound → w'.data = w₁.data →
    FilesAre (s.put pid w') (a.setFile p ⟨c, 0⟩).files

section

variable (hinv : FlatInv s rows ch a)

include hinv

theorem FlatInv.stops (hdied : Died (s.view pid) rows h w')
    (hwhy : ∀ u, h = .exit u → u = .dataBucketOverUse ∨ P u) : FlatStops s P h w' := by
  rcases hdied with ⟨rfl, k, hstuck⟩ | rfl | ⟨u, hu, rfl, htab, hdata⟩ | ⟨rfl, _⟩
  · have hfree : (s.table.row k).lock.realLock = true := hstuck.2
    rw [hinv.idle k] at hfree
    cases hfree
  · exact Or.inl rfl
  · exact Or.inr (Or.inr ⟨u, rfl, (hwhy u rfl).resolve_left hu, htab, hdata⟩)
  · exact Or.inr (Or.inl rfl)

theorem FlatInv.opensFound {k : Nat} (pid : Nat) (hok : hash p = .ok k)
    (hfind : findPath s.table p (rows k) = some m) :
    ∃ f, a.files p = some f ∧ OpensFile s a pid p m f.content (s.view pid) := by
  obtain ⟨huse, rfl⟩ := hinv.found_path hok hfind
  obtain ⟨f, hfile, _⟩ := hinv.sim.file m huse
  refine ⟨f, hfile, rfl, (hinv.store pid).index_pos huse, rfl, fun _ _ => rfl, ?_⟩
  intro w' he hdata
  obtain ⟨g, hg, hfiles⟩ := hinv.rewound huse he hdata
  obtain rfl := Option.some.inj (hfile.symm.trans hg)
  exact hfiles

theorem FlatInv.opensMade {k ix : Nat} {new : List Nat} {o : WriteOut}
    (hfill : Filled (s.view pid) rows p c k m ix new (some o) w') :
    OpensFile s a pid p m c w' := by
  obtain ⟨hfresh, _, hmp, _⟩ := hfill.core_eq (hinv.store pid)
  obtain ⟨t₁, hc, _⟩ := hfill.file.edited
  refine ⟨hfill.file.fds, hc.bound.1, hmp, ?_, fun w₂ he hdata => hinv.made hfill he hdata⟩
  intro b huse
  have hb : b ≠ m := by
    rintro rfl
    exact absurd (huse.symm.trans hfresh) (by simp)
  exact congrArg FileCore.path (hfill.file.core_eq hb)

/-- Why an upload has no file, or ends its process. -/
theorem FlatInv.upload_fails (env : Env) (pid : Nat) (hread : ¬ ShortRead env name) :
    Ends (uploadFile defaultBuild env name (s.view pid))
      (fun r _ => ∀ err, r = .error err → a.uploads env name = .error err)
      (fun h _ => ∀ u, h = .exit u → u = .dataBucketOverUse ∨ hash name = .error u) := by
  unfold uploadFile
  cases hstat : env.realStat name with
  | error err =>
      rintro err' ⟨rfl⟩
      rw [Flat.uploads, hstat]
  | ok st =>
      dsimp only
      rw [run_ite]
      by_cases hopen : env.realOpen name 0 < 0
      · rw [if_pos hopen]
        rintro err ⟨rfl⟩
        rw [Flat.uploads, hstat]
        exact if_pos hopen
      rw [if_neg hopen, ends_bind, onMeta, ends_zoom]
      refine (strictCreateMbucket_ends hinv.tableWf env.mrand name).mono ?_ ?_
      · rintro r t₁ ⟨k, hok, ⟨rfl, _, hwhy⟩ | ⟨m, rfl, _, _⟩⟩
        · rintro err ⟨rfl⟩
          have htaken : a.files name ≠ none ∨ a.Full := by
            rcases hwhy with hfound | hfull
            · obtain ⟨m, hfind⟩ := Option.isSome_iff_exists.mp hfound
              obtain ⟨f, hfile, _⟩ := hinv.opensFound pid hok hfind
              exact Or.inl (by rw [hfile]; simp)
            · exact Or.inr (hinv.full_iff.mpr hfull)
          rw [Flat.uploads, hstat]
          dsimp only
          rw [if_neg hopen, if_pos htaken]
        · dsimp only
          rw [run_ite]
          by_cases hshort : (env.realRead (env.realOpen name 0) st.stSize).1 ≠ st.stSize
          · exact absurd ⟨st, hstat, by omega, hshort⟩ hread
          rw [if_neg hshort]
          by_cases hlen : name.length < pathMax
          · rw [not_not] at hshort
            have hle := env.realRead_le (env.realOpen name 0) st.stSize
            have hbuf := env.realRead_length (env.realOpen name 0) st.stSize
            rw [hshort] at hle hbuf
            rw [Int.toNat_natCast] at hbuf
            rw [strcpyPath_eq hlen, run_setMb]
            dsimp only
            have hdata := @uploadData_ends _ { s.view pid with
                table := t₁.setMb m (fun b => { b with path := name, s := st }) }
              defaultBuild env m rfl (hinv.store pid).data (hbuf ▸ Int.ofNat_le.mp hle)
            rw [hbuf] at hdata
            rw [setMb_setMb, ends_bind]
            refine hdata.mono ?_ ?_
            · rintro _ _ _ err ⟨⟩
            · rintro h w' ⟨rfl, _⟩ u hu
              exact Or.inl (Halt.exit.inj hu).symm
          · rw [strcpyPath_undef hlen]
            rintro u ⟨⟩
      · rintro h t' hstop u rfl
        exact Or.inr hstop.exit

/-- An upload brings the content of the disk. -/
theorem FlatInv.uploads (env : Env) (pid : Nat) (hread : ¬ ShortRead env name) :
    Ends (uploadFile defaultBuild env name (s.view pid))
      (fun r w' => (∃ err, r = .error err ∧ a.uploads env name = .error err ∧ w' = s.view pid) ∨
        ∃ buf k m ix new o, r = .ok m ∧ a.uploads env name = .ok buf ∧
          Filled (s.view pid) rows name buf k m ix new (some o) w')
      (FlatStops s (fun u => hash name = .error u)) := by
  refine ((uploadFile_ends rfl (hinv.store pid) name).and
    (hinv.upload_fails env pid hread)).mono ?_ (fun h w' hstop => hinv.stops hstop.1 hstop.2)
  rintro r w' ⟨⟨err, rfl, rfl⟩ | ⟨hshort, _⟩ | ⟨buf, k, m, ix, new, o, hdisk, rfl, hfill⟩, hwhy⟩
  · exact Or.inl ⟨err, rfl, hwhy err rfl, rfl⟩
  · exact absurd hshort hread
  · refine Or.inr ⟨buf, k, m, ix, new, o, rfl, ?_, hfill⟩
    obtain ⟨hnone, hroom⟩ := hinv.room hfill
    exact Flat.uploads_eq_ok.mpr ⟨hnone, hroom, hdisk⟩

/-- Why the process ends while it makes a file. -/
theorem FlatInv.create_exits (env : Env) (pid : Nat) (p : Path) (mode : Nat) :
    Ends (createNewFile defaultBuild env p mode (s.view pid)) (fun _ _ => True)
      (fun h _ => ∀ u, h = .exit u → u = .dataBucketOverUse ∨ hash p = .error u) := by
  unfold createNewFile
  rw [ends_bind, onMeta, ends_zoom]
  refine (strictCreateMbucket_ends hinv.tableWf env.mrand p).mono ?_ ?_
  · rintro r t₁ ⟨k, _, ⟨rfl, _, _⟩ | ⟨m, rfl, _, _⟩⟩
    · trivial
    · change Ends ((onData (bucketIxAllocAllRandom (env.rand 0)) >>= _)
        { s.view pid with table := t₁ }) _ _
      rcases bucketIxAllocAllRandom_cases (hinv.store pid).data.toLinksOk (env.rand 0) with
        ⟨ix, _, _, halloc⟩ | ⟨_, halloc⟩
      · rw [bind_of_ok (onData_of_ok (w := { s.view pid with table := t₁ }) halloc), run_setMb]
        by_cases hlen : p.length < pathMax
        · rw [strcpyPath_eq hlen, run_setMb, mbModify, run_setMb]
          trivial
        · rw [strcpyPath_undef hlen]
          rintro u ⟨⟩
      · rw [bind_of_error (onData_of_error (w := { s.view pid with table := t₁ }) halloc)]
        rintro u hu
        exact Or.inl (Halt.exit.inj hu).symm
  · rintro h t' hstop u rfl
    exact Or.inr hstop.exit

/-- A file that is made is empty. -/
theorem FlatInv.creates (env : Env) (pid : Nat) (p : Path) (mode : Nat) :
    Ends (createNewFile defaultBuild env p mode (s.view pid))
      (fun r w' => (r = .error .enospc ∧ (a.files p ≠ none ∨ a.Full) ∧ w' = s.view pid) ∨
        ∃ k m ix o, r = .ok m ∧ Filled (s.view pid) rows p [] k m ix [] (some o) w')
      (FlatStops s (fun u => hash p = .error u)) := by
  refine ((createNewFile_ends rfl (hinv.store pid) p mode).and
    (hinv.create_exits env pid p mode)).mono ?_
    (fun h w' hstop => hinv.stops hstop.1 hstop.2)
  rintro r w' ⟨⟨rfl, rfl, k, hok, hwhy⟩ | ⟨k, m, ix, o, rfl, hfill⟩, _⟩
  · refine Or.inl ⟨rfl, ?_, rfl⟩
    rcases hwhy with hfound | hfull
    · obtain ⟨m, hfind⟩ := Option.isSome_iff_exists.mp hfound
      obtain ⟨f, hfile, _⟩ := hinv.opensFound pid hok hfind
      exact Or.inl (by rw [hfile]; simp)
    · exact Or.inr (hinv.full_iff.mpr hfull)
  · exact Or.inr ⟨k, m, ix, o, rfl, hfill⟩

/-- The end of the first half of `open`. -/
def OpenEnds (s : Sys) (a : Flat) (env : Env) (pathname p : Path) (flags pid : Nat)
    (res : EStateM.Result Halt World (Except Errno Int)) : Prop :=
  Ends res
    (fun r w' => (∃ err, r = .error err ∧ a.opens env pathname p flags = .error err ∧
        w' = s.view pid) ∨
      ∃ m c, r = .ok m ∧ a.opens env pathname p flags = .ok c ∧ OpensFile s a pid p m c w')
    (FlatStops s (fun u => hash p = .error u))

theorem FlatInv.openUpload (hread : ¬ ShortRead env p)
    (hopens : a.opens env pathname p flags = a.uploads env p) :
    OpenEnds s a env pathname p flags pid
      (uploadFile defaultBuild env p (s.view pid)) := by
  refine (hinv.uploads env pid hread).mono ?_ (fun _ _ hstop => hstop)
  rintro r w' (⟨err, rfl, herr, rfl⟩ | ⟨buf, k, m, ix, new, o, rfl, hbuf, hfill⟩)
  · exact Or.inl ⟨err, rfl, hopens.trans herr, rfl⟩
  · exact Or.inr ⟨m, buf, rfl, hopens.trans hbuf, hinv.opensMade hfill⟩

theorem FlatInv.openCreate (hnone : a.files p = none) (hcreat : hasFlag flags oCreat = true)
    (hstat : (env.realStat pathname).toOption = none) :
    OpenEnds s a env pathname p flags pid
      (createNewFile defaultBuild env p mode (s.view pid)) := by
  refine (hinv.creates env pid p mode).mono ?_ (fun _ _ hstop => hstop)
  rintro r w' (⟨rfl, hwhy, rfl⟩ | ⟨k, m, ix, o, rfl, hfill⟩)
  · have hfull := hwhy.resolve_left (fun hne => hne hnone)
    refine Or.inl ⟨_, rfl, ?_, rfl⟩
    rw [Flat.opens, hnone]
    dsimp only
    rw [if_pos ⟨hcreat, hstat⟩, if_pos hfull]
  · obtain ⟨_, hroom⟩ := hinv.room hfill
    refine Or.inr ⟨m, [], rfl, ?_, hinv.opensMade hfill⟩
    rw [Flat.opens, hnone]
    dsimp only
    rw [if_pos ⟨hcreat, hstat⟩, if_neg hroom]

/-- What follows the search for the file of a path. -/
theorem FlatInv.openFound {k : Option Int → Op World (Except Errno Int)}
    (hfound : ∀ f m, a.files p = some f → OpensFile s a pid p m f.content (s.view pid) →
      OpenEnds s a env pathname p flags pid (k (some m) (s.view pid)))
    (habsent : a.files p = none → OpenEnds s a env pathname p flags pid (k none (s.view pid))) :
    OpenEnds s a env pathname p flags pid ((onMeta (getMbucket p) >>= k) (s.view pid)) := by
  rw [OpenEnds, ends_bind, onMeta, ends_zoom]
  refine (getMbucket_ends hinv.tableWf p).mono ?_ ?_
  · rintro r t' ⟨rfl, j, hok, rfl⟩
    cases hfind : findPath s.table p (rows j) with
    | some m =>
        obtain ⟨f, hfile, hopens⟩ := hinv.opensFound pid hok hfind
        exact hfound f m hfile hopens
    | none => exact habsent (hinv.absent hok hfind)
  · rintro h t' hstop
    exact hinv.stops (Died.of_rowStop hstop) (fun u hu => Or.inr (hu ▸ hstop).exit)

theorem FlatInv.resolves (hno : oTruncCheck flags = false) (hread : ¬ ShortRead env p) :
    OpenEnds s a env pathname p flags pid
      (openResolve defaultBuild env pathname p flags mode (s.view pid)) := by
  unfold openResolve
  rw [run_ite]
  cases hcreat : hasFlag flags oCreat with
  | false =>
      rw [if_pos (by simp)]
      refine hinv.openFound (fun f m hfile hopens => ?_) (fun hnone => ?_)
      · refine Or.inr ⟨m, f.content, rfl, ?_, hopens⟩
        simp [Flat.opens, hfile, hcreat]
      · exact hinv.openUpload hread (by simp [Flat.opens, hnone, hcreat])
  | true =>
      rw [if_neg (by simp), run_ite, if_neg (by simp [hno])]
      refine hinv.openFound (fun f m hfile hopens => ?_) (fun hnone => ?_)
      · dsimp only
        rw [run_ite]
        by_cases hexcl : hasFlag flags oExcl = true
        · rw [if_pos hexcl]
          exact Or.inl ⟨_, rfl, by simp [Flat.opens, hfile, hcreat, hexcl], rfl⟩
        · rw [if_neg hexcl]
          exact Or.inr ⟨m, f.content, rfl, by simp [Flat.opens, hfile, hcreat, hexcl], hopens⟩
      · dsimp only
        cases hstat : env.realStat pathname with
        | ok st =>
            dsimp only
            rw [run_ite]
            by_cases hexcl : hasFlag flags oExcl = true
            · rw [if_pos hexcl]
              refine Or.inl ⟨_, rfl, ?_, rfl⟩
              simp [Flat.opens, hnone, hcreat, hexcl, hstat, Except.toOption]
            · rw [if_neg hexcl]
              refine hinv.openUpload hread ?_
              simp [Flat.opens, hnone, hcreat, hexcl, hstat, Except.toOption]
        | error err =>
            exact hinv.openCreate hnone hcreat (by rw [hstat]; rfl)

/-- The answer of `open` once the cursor of its file stands at the start. -/
theorem FlatInv.answers {w₂ : World} {r : Ret} (hcall : e.call = .open pathname flags mode)
    (hname : Names e.env pathname p) (hstart : a.opens e.env pathname p flags = .ok c)
    (hopens : OpensFile s a e.pid p m c w₁) (he : Edited w₁.table w₂.table m Spacefish.rewound)
    (hdata : w₂.data = w₁.data) (hfds : w₂.fdTable = w₁.fdTable)
    (hslot : (r = { ret := -1, err := .emfile } ∧ w' = w₂ ∧ FdsFull w₂.fdTable) ∨
      ∃ i : Nat, r = { ret := i, err := .ok } ∧ w'.table = w₂.table ∧ w'.data = w₂.data ∧
        FdOpened w₂.fdTable w'.fdTable i m) :
    ∃ a', FlatStep a e (.ret r) a' ∧ Represents (s.put e.pid w') a' := by
  rw [hfds, hopens.fds] at hslot
  have hpath := he.path Seeks.rewound.path
  have hkept : ∀ b, (s.table.mb b).inUse = true → (w₂.table.mb b).path = (s.table.mb b).path :=
    fun b hb => (hpath b).trans (hopens.kept b hb)
  rcases hslot with ⟨rfl, rfl, hfull⟩ | ⟨i, rfl, htab, hdata', hslot⟩
  · refine ⟨_, .full hcall hname hstart (fun i hlow hhigh => hinv.taken (hfull i hlow hhigh)), ?_⟩
    exact hinv.unslotted (hopens.files _ he hdata) rfl (hfds.trans hopens.fds) hkept
  · have hkernel := (hinv.rep.wf.slots e.pid i).kernel hslot.low hslot.free
    have hfree : a.fds e.pid i = .unused :=
      (hinv.sim.fds e.pid i).trans (FdInfo.flat_unused hkernel hslot.free)
    rw [← htab] at he hpath hkept
    refine ⟨_, .opened hcall hname hstart hslot.low hslot.high hfree
      (fun j hj hji => hinv.taken (hslot.least j hj hji)), ?_⟩
    exact hinv.opened (hopens.files _ he (hdata'.trans hdata)) rfl hslot hopens.pos
      ((hpath m).trans hopens.path) hkept

/-- `open` hands its path on to the kernel. -/
theorem FlatInv.openForwarded (hcall : e.call = .open pathname flags mode)
    (hexcl : exclusivePath pathname = true) :
    Ends (sysOpen defaultBuild e.env pathname flags mode (s.view e.pid))
      (fun r w' => ∃ a', FlatStep a e (.ret r) a' ∧ Represents (s.put e.pid w') a')
      (fun h _ => h = .undefined) := by
  refine (sysOpen_forwarded flags mode hexcl).mono ?_ (fun _ _ he => he)
  rintro r w' ⟨rfl, rfl⟩
  refine ⟨_, .forwarded hcall hexcl, ?_⟩
  by_cases hpos : e.env.realOpen pathname flags > 0
  · rw [if_pos hpos, if_pos hpos]
    exact hinv.forwarded _
  · rw [if_neg hpos, if_neg hpos, put_view]
    exact hinv.sim

theorem FlatInv.open (hcall : e.call = .open pathname flags mode)
    (hflat : FlatCall (.open pathname flags mode)) (hshort : ¬ ShortReads e.env e.call) :
    Ends (sysOpen defaultBuild e.env pathname flags mode (s.view e.pid))
      (fun r w' => ∃ a', FlatStep a e (.ret r) a' ∧ Represents (s.put e.pid w') a')
      (fun h w' => h = .undefined ∨ h = .exit .dataBucketOverUse ∨
        ∃ a', FlatStep a e (.halt h) a' ∧
          Represents (s.put e.pid { w' with fdTable := initFdTable }) a') := by
  cases hexcl : exclusivePath pathname with
  | true => exact (hinv.openForwarded hcall hexcl).mono (fun _ _ h => h) (fun _ _ he => Or.inl he)
  | false =>
      unfold sysOpen
      rw [run_ite, if_neg (by rw [hexcl]; exact Bool.false_ne_true), run_ite]
      by_cases hlen : pathname.length > pathMax
      · rw [if_pos hlen]
        exact ⟨a, .longPath hcall hexcl hlen, by rw [put_view]; exact hinv.sim⟩
      rw [if_neg hlen]
      rw [not_lt] at hlen
      rcases absPath_cases e.env pathname with ⟨p, hpath, hrun⟩ | ⟨h, hstop, herr, hrun⟩
      swap
      · rw [bind_of_error (hrun _)]
        rcases hstop with rfl | rfl
        · exact Or.inl rfl
        · exact Or.inr (Or.inr ⟨_, .exit hcall hexcl hlen (Or.inl herr), hinv.exit rfl rfl⟩)
      have hname : Names e.env pathname p := ⟨hexcl, hlen, hpath⟩
      have hread : ¬ ShortRead e.env p := by
        rw [hcall] at hshort
        exact fun hread => hshort ⟨p, hpath, hread⟩
      have hno : oTruncCheck flags = false := by
        rw [oTruncCheck, hflat.1]
        rfl
      have happ : hasFlag flags oAppend = false := hflat.2
      rw [bind_of_ok (hrun _), ends_bind]
      refine (hinv.resolves hno hread).mono ?_ ?_
      · rintro r w₁ (⟨err, rfl, hfail, rfl⟩ | ⟨m, c, rfl, hstart, hopens⟩)
        · exact ⟨a, .failed hcall hname hfail, by rw [put_view]; exact hinv.sim⟩
        dsimp only
        rw [openPosition, bind_assoc, run_get_bind, if_neg (by rw [happ]; exact Bool.false_ne_true),
          run_setMb]
        have he : Edited w₁.table (w₁.table.setMb m (fun b =>
            { b with lastDbucket := b.firstDbucket, lastDbOffset := 0 })) m Spacefish.rewound :=
          Edited.setMb rfl
        refine (openSlot_ends m).mono (fun r w' hslot => ?_) (fun _ _ hstop => Or.inl hstop)
        refine hinv.answers hcall hname hstart hopens ?_ ?_ ?_ hslot
        · exact he
        · rfl
        · rfl
      · rintro h w' (rfl | rfl | ⟨u, rfl, herr, htab, hdata⟩)
        · exact Or.inl rfl
        · exact Or.inr (Or.inl rfl)
        · exact Or.inr (Or.inr ⟨_, .exit hcall hexcl hlen (Or.inr ⟨p, hpath, herr⟩),
            hinv.exit htab hdata⟩)

end

end Spacefish
