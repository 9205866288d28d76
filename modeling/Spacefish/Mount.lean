import Spacefish.FlatNamesRun

/-!
The mount of a directory: `upload_dir` goes through a directory tree and uploads every
file in it, before any process uses the store. A mount is a run of uploads; what it
leaves is the flat files of the tree.
-/

namespace Spacefish

open LinkedArray Program

/-! The directory tree as the daemon meets it. -/

/-- What `readdir` returns for an opened directory, one entry after the other. An entry
is a directory or not by its `d_type`; with a directory comes what `readdir` returns
below it, nothing when `opendir` fails, and with a file what the outside answers while
it is uploaded. -/
inductive DirStream where
  | eof
  | file (dName : Path) (env : Env) (rest : DirStream)
  | dir (dName : Path) (below rest : DirStream)

/-- `"."` and `".."`. -/
def dotPath : Path := [46]
def dotDotPath : Path := [46, 46]

/-- `snprintf(path, PATH_MAX - 1, "%s/%s", name, d_name)`, which stores at most
`PATH_MAX - 2` bytes and returns the full length, and the store of a NUL there. -/
def entryPath {σ : Type} (name dName : Path) : Op σ Path :=
  let full := name ++ [47] ++ dName
  if full.length < pathMax then pure (full.take (pathMax - 2)) else throw .undefined

/-- The loop of `upload_dir`. What `upload_file` returns is not looked at. -/
def uploadDir (b : Build) : DirStream → Path → Op World Unit
  | .eof, _ => return ()
  | .file dName env rest, name => do
      let path ← entryPath name dName
      let fpath ← buildAbsPath1 env path
      let _ ← uploadFile b env fpath
      uploadDir b rest name
  | .dir dName below rest, name => do
      let path ← entryPath name dName
      if dName = dotPath ∨ dName = dotDotPath then uploadDir b rest name
      else do
        uploadDir b below path
        uploadDir b rest name

/-- The end of `init_mount`, in the segments that it has just initialised: the directory
is the one given, or the working directory. -/
def initMountRoot (b : Build) (root : Option Path) (tree : DirStream) : Op World Unit :=
  uploadDir b tree (root.getD dotPath)

/-! The uploads of a mount. -/

/-- The names given to `upload_file`, in their order; `none` when a path does not fit its
buffer or the working directory is gone. -/
def mountNames : DirStream → Path → Option (List (Env × Path))
  | .eof, _ => some []
  | .file dName env rest, name =>
      if (name ++ [47] ++ dName).length < pathMax then
        match absPath env ((name ++ [47] ++ dName).take (pathMax - 2)), mountNames rest name with
        | .ok p, some l => some ((env, p) :: l)
        | _, _ => none
      else none
  | .dir dName below rest, name =>
      if (name ++ [47] ++ dName).length < pathMax then
        if dName = dotPath ∨ dName = dotDotPath then mountNames rest name
        else
          match mountNames below ((name ++ [47] ++ dName).take (pathMax - 2)), mountNames rest name with
          | some l₁, some l₂ => some (l₁ ++ l₂)
          | _, _ => none
      else none

/-- The uploads one after the other. -/
def uploadAll (b : Build) : List (Env × Path) → Op World Unit
  | [] => return ()
  | (env, p) :: l => do
      let _ ← uploadFile b env p
      uploadAll b l

variable {b : Build} {tree : DirStream} {name p : Path} {w w' w₁ : World}
  {l l₁ l₂ : List (Env × Path)} {s : Sys} {pid : Nat} {env : Env} {a a' : Flat}
  {rows : Nat → List Int} {ch : Int → List Nat} {e : Event} {r : Ret}

theorem uploadAll_append : uploadAll b (l₁ ++ l₂) w = (uploadAll b l₁ >>= fun _ => uploadAll b l₂) w := by
  induction l₁ generalizing w with
  | nil => rfl
  | cons x l₁ ih =>
      simp only [List.cons_append, uploadAll, bind_assoc]
      cases hrun : uploadFile b x.1 x.2 w with
      | ok r w₁ => rw [bind_of_ok hrun, bind_of_ok hrun, ih]
      | error h w₁ => rw [bind_of_error hrun, bind_of_error hrun]

/-- The path that an entry is handled under. -/
theorem entryPath_eq {α : Type} {dName : Path} {k : Path → Op World α}
    (hlen : (name ++ [47] ++ dName).length < pathMax) :
    (entryPath name dName >>= k) w = k ((name ++ [47] ++ dName).take (pathMax - 2)) w := by
  unfold entryPath
  dsimp only
  rw [if_pos hlen]
  rfl

/-- Where all paths of the tree can be built, a mount is its uploads in their order. -/
theorem uploadDir_eq (hnames : mountNames tree name = some l) :
    uploadDir b tree name w = uploadAll b l w := by
  induction tree generalizing name l w with
  | eof =>
      obtain rfl := Option.some.inj hnames
      rfl
  | file dName env rest ih =>
      rw [mountNames] at hnames
      split at hnames
      swap
      · cases hnames
      · next hlen =>
        split at hnames
        · next p l' hpath hrest =>
          obtain rfl := Option.some.inj hnames
          have habs : buildAbsPath1 env ((name ++ [47] ++ dName).take (pathMax - 2)) w =
              .ok p w := by
            rcases absPath_cases env ((name ++ [47] ++ dName).take (pathMax - 2)) with
              ⟨q, hq, habs⟩ | ⟨h, _, hq, _⟩
            · obtain rfl := Except.ok.inj (hq.symm.trans hpath)
              exact habs w
            · rw [hq] at hpath
              cases hpath
          rw [uploadDir, entryPath_eq hlen, bind_of_ok habs, uploadAll]
          cases hup : uploadFile b env p w with
          | ok r w₁ => rw [bind_of_ok hup, bind_of_ok hup, ih hrest]
          | error h w₁ => rw [bind_of_error hup, bind_of_error hup]
        · cases hnames
  | dir dName below rest ihbelow ihrest =>
      rw [mountNames] at hnames
      split at hnames
      swap
      · cases hnames
      · next hlen =>
        rw [uploadDir, entryPath_eq hlen]
        split at hnames
        · next hdot =>
          rw [if_pos hdot]
          exact ihrest hnames
        · next hdot =>
          rw [if_neg hdot]
          split at hnames
          · next l₁ l₂ hbelow hrest =>
            obtain rfl := Option.some.inj hnames
            rw [uploadAll_append]
            cases hup : uploadAll b l₁ w with
            | ok r w₁ =>
                rw [bind_of_ok ((ihbelow hbelow).trans hup), bind_of_ok hup, ihrest hrest]
            | error h w₁ =>
                rw [bind_of_error ((ihbelow hbelow).trans hup), bind_of_error hup]
          · cases hnames

/-! The model. -/

/-- An upload on the flat files: it brings the file of the disk unless there is one. -/
def Flat.upload (a : Flat) (env : Env) (name : Path) : Flat :=
  match a.files name, diskContent env name with
  | none, some buf => a.setFile name ⟨buf, 0⟩
  | _, _ => a

/-- What the uploads bring for a path: the content of the first one under it that the
disk answers. -/
def uploadedContent (l : List (Env × Path)) (p : Path) : Option (List Byte) :=
  l.findSome? (fun x => if x.2 = p then diskContent x.1 x.2 else none)

theorem Flat.upload_files (a : Flat) (env : Env) (name p : Path) :
    (a.upload env name).files p =
      (a.files p).or (if name = p then (diskContent env name).map (⟨·, 0⟩) else none) := by
  unfold Flat.upload
  by_cases hp : name = p
  · subst hp
    cases hfile : a.files name with
    | some f => simp [hfile]
    | none =>
        cases hdisk : diskContent env name with
        | none => simp [hfile]
        | some buf => simp [Flat.setFile]
  · cases hfile : a.files name with
    | some f => simp [hp]
    | none =>
        cases hdisk : diskContent env name with
        | none => simp [hp]
        | some buf => simp [Flat.setFile, hp, Ne.symm hp]

theorem Flat.upload_fds (a : Flat) (env : Env) (name : Path) :
    (a.upload env name).fds = a.fds := by
  unfold Flat.upload
  split <;> rfl

/-- The files after a list of uploads. -/
theorem uploads_files (a : Flat) (l : List (Env × Path)) (p : Path) :
    (l.foldl (fun a x => a.upload x.1 x.2) a).files p =
      (a.files p).or ((uploadedContent l p).map (⟨·, 0⟩)) := by
  induction l generalizing a with
  | nil => simp [uploadedContent]
  | cons x l ih =>
      rw [List.foldl_cons, ih, Flat.upload_files, Option.or_assoc]
      congr 1
      unfold uploadedContent
      rw [List.findSome?_cons]
      by_cases hp : x.2 = p
      · rw [if_pos hp, if_pos hp]
        cases diskContent x.1 x.2 <;> rfl
      · rw [if_neg hp, if_neg hp]
        rfl

theorem uploads_fds (a : Flat) (l : List (Env × Path)) :
    (l.foldl (fun a x => a.upload x.1 x.2) a).fds = a.fds := by
  induction l generalizing a with
  | nil => rfl
  | cons x l ih => rw [List.foldl_cons, ih, Flat.upload_fds]

/-- The files of `a` lie under some of the names. -/
def Flat.Within (a : Flat) (names : List Path) : Prop := ∀ p, a.files p ≠ none → p ∈ names

theorem Flat.Within.upload {names : List Path} (hin : a.Within names) (env : Env) (name : Path) :
    (a.upload env name).Within (name :: names) := by
  intro p hp
  rw [Flat.upload_files] at hp
  by_cases hname : name = p
  · exact hname ▸ List.mem_cons_self ..
  · rw [if_neg hname, Option.or_none] at hp
    exact List.mem_cons_of_mem _ (hin p hp)

/-- There is room when there are fewer names than meta buckets. -/
theorem Flat.Within.room {names : List Path} (hin : a.Within names)
    (hfew : names.length < metaBuckets) : ¬ a.Full := by
  rintro ⟨l, hnodup, hlen, hfiles⟩
  have hle := (hnodup.subperm (fun p hp => hin p (hfiles p hp))).length_le
  omega

/-- A step of the model that is an upload. -/
theorem NameStep.upload_eq (hstep : NameStep a e (.ret r) a') (hcall : e.call = .upload name)
    (hroom : ¬ a.Full) : a' = a.upload e.env name := by
  cases hstep with
  | file hflat =>
      exfalso
      cases hflat with
      | access hfd => rw [hcall] at hfd; cases hfd
      | unopened hfd => rw [hcall] at hfd; cases hfd
      | kernel hfd => rw [hcall] at hfd; cases hfd
      | kernelClosed hclose => rw [hcall] at hclose; cases hclose
      | close hclose => rw [hcall] at hclose; cases hclose
      | opened hopen => rw [hcall] at hopen; cases hopen
      | full hopen => rw [hcall] at hopen; cases hopen
      | failed hopen => rw [hcall] at hopen; cases hopen
      | longPath hopen => rw [hcall] at hopen; cases hopen
      | forwarded hopen => rw [hcall] at hopen; cases hopen
  | uploaded hup hdisk =>
      obtain rfl := Call.upload.inj (hcall.symm.trans hup)
      obtain ⟨hfile, _, hdisk⟩ := Flat.uploads_eq_ok.mp hdisk
      rw [Flat.upload, hfile, hdisk]
  | refused hup hwhy =>
      obtain rfl := Call.upload.inj (hcall.symm.trans hup)
      unfold Flat.upload
      split
      · next buf hfile hdisk =>
        rw [Flat.uploads_eq_ok.mpr ⟨hfile, hroom, hdisk⟩] at hwhy
        cases hwhy
      · rfl
  | tooLong hlong => rw [hcall] at hlong; exact hlong.elim
  | unlinked h => rw [hcall] at h; cases h
  | missing h => rw [hcall] at h; cases h
  | renamed h => rw [hcall] at h; cases h
  | renamedSame h => rw [hcall] at h; cases h
  | renamedSelf h => rw [hcall] at h; cases h
  | stat h => rw [hcall] at h; cases h
  | statDisk h => rw [hcall] at h; cases h
  | fstat h => rw [hcall] at h; cases h

/-- An upload that returns is an event that returns. -/
theorem exec_upload {o : Except Errno Int} (hup : uploadFile defaultBuild env p (s.view pid) = .ok o w₁) :
    ∃ r, exec defaultBuild s ⟨pid, env, .upload p⟩ = (.ret r, s.put pid w₁) := by
  unfold exec callOp
  dsimp only
  rw [bind_of_ok hup]
  cases o with
  | ok m => exact ⟨_, rfl⟩
  | error err => exact ⟨_, rfl⟩

theorem put_put (s : Sys) (pid : Nat) (w w' : World) : (s.put pid w).put pid w' = s.put pid w' := by
  simp [Sys.put]

theorem put_view_self (s : Sys) (pid : Nat) (w : World) : (s.put pid w).view pid = w := by
  simp [Sys.put, Sys.view]

/-- The flat files after the uploads of a mount. -/
theorem FlatInv.uploadAll {names : List Path} (hinv : FlatInv s rows ch a)
    (hrun : uploadAll defaultBuild l (s.view pid) = .ok () w')
    (hread : ∀ x ∈ l, ¬ ShortRead x.1 x.2)
    (hin : a.Within names) (hfew : names.length + l.length ≤ metaBuckets) :
    ∃ rows' ch', FlatInv (s.put pid w') rows' ch' (l.foldl (fun a x => a.upload x.1 x.2) a) := by
  induction l generalizing s rows ch a names with
  | nil =>
      have hw : s.view pid = w' := (EStateM.Result.ok.inj hrun).2
      rw [← hw, put_view]
      exact ⟨rows, ch, hinv⟩
  | cons x l ih =>
      obtain ⟨env, p⟩ := x
      rw [Spacefish.uploadAll] at hrun
      cases hup : uploadFile defaultBuild env p (s.view pid) with
      | error h w₁ =>
          rw [bind_of_error hup] at hrun
          cases hrun
      | ok o w₁ =>
          rw [bind_of_ok hup] at hrun
          obtain ⟨r, hexec⟩ := exec_upload hup
          have hallow : NameAllowed s ⟨pid, env, .upload p⟩ (.ret r) :=
            ⟨hread (env, p) (by simp), (fun h => by cases h), (fun h => by cases h)⟩
          obtain ⟨a₁, rows₁, ch₁, hstep, hinv₁⟩ := hinv.nameStep hallow hexec
          have hlen : names.length + (l.length + 1) ≤ metaBuckets := hfew
          obtain rfl := hstep.upload_eq rfl (hin.room (by omega))
          obtain ⟨rows', ch', hinv'⟩ := ih hinv₁ (by rw [put_view_self]; exact hrun)
            (fun x hx => hread x (by simp [hx]))
            (hin.upload env p) (by simp only [List.length_cons]; omega)
          rw [put_put] at hinv'
          exact ⟨rows', ch', hinv'⟩

end Spacefish
