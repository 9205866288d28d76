import Spacefish.EndOfFile

/-!
Running out of data buckets. The allocator ends the process in the middle of the
call that needs a bucket: after the copy loop has filled buckets and before the size
is stored, or after a meta bucket was made and before it has data. What the other
processes then see is well formed only when nothing had been written yet.
-/

namespace Spacefish

open LinkedArray Program Buffer

variable {s s' : Sys} {rows : Nat → List Int} {ch : Int → List Nat} {e : Event} {env : Env}
  {pid n b off : Nat} {m : Int} {fd offset : Int} {d d' : DataShm} {l pre new : List Nat}
  {buf : List Byte} {w' : World}

/-! Copies that find no bucket. -/

/-- A copy that ends early has not copied everything. -/
theorem Copy.short_of_none {r : Option WriteOut} (hcopy : Copy d l off buf d' r new)
    (hr : r = none) : (l.length + new.length) * dbucketBufSize < off + buf.length := by
  induction hcopy with
  | last hfit => cases hr
  | next hfull hmore hrest ih =>
      have := ih (Option.map_eq_none_iff.mp hr)
      simp only [List.length_cons, List.length_append] at this ⊢
      rw [Nat.add_right_comm, Nat.succ_mul]
      omega
  | grow hfull hmore hix hfree hrest ih =>
      have := ih (Option.map_eq_none_iff.mp hr)
      simp only [List.length_cons, List.length_nil, List.length_append] at this ⊢
      rw [← Nat.add_assoc, Nat.succ_mul]
      omega
  | full hfull hmore hover =>
      have := List.length_pos_iff.mpr hmore
      simp only [List.length_cons, List.length_nil, List.length_append, Nat.zero_add, Nat.add_zero,
        Nat.one_mul]
      omega

/-- A copy that ends early without a new bucket found a full store. -/
theorem Copy.dataFull_of_none {r : Option WriteOut} (hcopy : Copy d l off buf d' r new)
    (hr : r = none) (hnew : new = []) : DataFull d := by
  induction hcopy with
  | last hfit => cases hr
  | next hfull hmore hrest ih =>
      intro c hc
      have := ih (Option.map_eq_none_iff.mp hr) hnew c hc
      rwa [put_inUse] at this
  | grow => cases hnew
  | full hfull hmore hover => exact hover

/-- A chain with as many bytes as fit consists of full buckets. -/
theorem full_of_total (hle : ∀ c, (d.bucket c).bytes ≤ dbucketBufSize)
    (htotal : l.length * dbucketBufSize ≤ total d l) :
    ∀ c ∈ l, (d.bucket c).bytes = dbucketBufSize := by
  intro c hc
  obtain ⟨l₁, l₂, rfl⟩ := List.append_of_mem hc
  have h₁ := total_le (d := d) (l := l₁) (fun b _ => hle b)
  have h₂ := total_le (d := d) (l := l₂) (fun b _ => hle b)
  have hb := hle c
  rw [total_append, total_cons, List.length_append, List.length_cons, Nat.add_mul,
    Nat.succ_mul] at htotal
  omega

/-- The byte counts of a chain stay the same exactly when there was nothing to fill. -/
theorem Copy.total_same_iff (hcopy : Copy d l off buf d' none new) (hd : DataWf d)
    (hnodup : l.Nodup) (hown : ∀ a ∈ l, d.Owned a) :
    total d' (l ++ new) = total d l ↔
      DataFull d ∧ ∀ c ∈ l, (d.bucket c).bytes = dbucketBufSize := by
  obtain ⟨_, hall⟩ := hcopy.full_of_none rfl hd hnodup hown
  have htotal := total_of_full hall
  have hle := total_le (d := d) (l := l) (fun c _ => hd.bytes_le c)
  rw [List.length_append, Nat.add_mul] at htotal
  constructor
  · intro hsame
    have hnil : new = [] := by
      by_contra hne
      have hpos := Nat.mul_pos (List.length_pos_iff.mpr hne) dbucketBufSize_pos
      omega
    exact ⟨hcopy.dataFull_of_none rfl hnil, full_of_total hd.bytes_le (by omega)⟩
  · rintro ⟨hfull, hbytes⟩
    obtain rfl := hfull.no_new hcopy
    rw [htotal, total_of_full hbytes]
    simp

/-! What the calls leave. -/

/-- The calls that may need data buckets. -/
def NeedsBuckets : Call → Prop
  | .open _ _ _ => True
  | .write _ _ => True
  | .pwrite _ _ offset => 0 ≤ offset
  | .upload _ => True
  | _ => False

/-- The buckets from the first one that the call writes to. -/
def reached (s : Sys) (e : Event) : Option (List Nat) :=
  match e.call with
  | .write fd _ => some (chainFrom s.data walkFuel
      (s.table.mb (s.fds e.pid fd.toNat).mindex).lastDbucket)
  | .pwrite fd _ offset => some ((fileChain s (s.fds e.pid fd.toNat).mindex).drop (hops offset))
  | _ => none

/-- The state in which the allocator ends a call. -/
inductive OverUse (s : Sys) (rows : Nat → List Int) (ch : Int → List Nat) (e : Event)
    (w' : World) : Prop where
  | copied {m : Int} {pre l new : List Nat} {b off : Nat} {buf : List Byte}
      (hreach : reached s e = some (b :: l)) (huse : (s.table.mb m).inUse = true)
      (hsplit : ch m = pre ++ b :: l) (htab : w'.table = s.table)
      (hcopy : Copy s.data (b :: l) off buf w'.data none new)
  | bare (hreach : reached s e = none) (hbare : Bare (s.view e.pid) rows w')
  | filled {p : Path} {buf : List Byte} {h : Nat} {m : Int} {ix : Nat} {new : List Nat}
      (hreach : reached s e = none) (hfill : Filled (s.view e.pid) rows p buf h m ix new none w')

theorem Died.overUse {h : Halt} (hreach : reached s e = none)
    (hd : Died (s.view e.pid) rows h w') (hover : h = .exit .dataBucketOverUse) :
    OverUse s rows ch e w' := by
  subst hover
  rcases hd with ⟨hno, _⟩ | hno | ⟨u, hne, hu, _⟩ | ⟨_, ⟨_, hb⟩ | ⟨_, _, _, _, _, _, hf⟩⟩
  · cases hno
  · cases hno
  · exact absurd (Halt.exit.inj hu).symm hne
  · exact .bare hreach hb
  · exact .filled hreach hf

/-- The states in which a call ends for lack of buckets. -/
theorem overUse_ends (hinv : RepInv s rows ch) (hcall : NeedsBuckets e.call) :
    Ends (callOp defaultBuild e.env e.call (s.view e.pid)) (fun _ _ => True)
      (fun h w' => h = .exit .dataBucketOverUse → OverUse s rows ch e w') := by
  obtain ⟨pid, env, call⟩ := e
  have hview : StoreWf ((s.view pid).store rows ch) := hinv.wf.store
  have hother : ∀ {fd : Int} {x : Op World Ret} {r₁ r₂ : Ret} {k : FdInfo → Op World Ret},
      (x = fddes fd >>= fun f => if f.exclusive then pure r₁ else if f.empty then pure r₂ else k f) →
      (¬ ∃ n, UserFd (s.view pid) fd n) → Ends (x (s.view pid)) (fun _ _ => True)
        (fun h w' => h = .exit .dataBucketOverUse → OverUse s rows ch ⟨pid, env, call⟩ w') := by
    intro fd x r₁ r₂ k hx hno
    refine (notUser_same hx (fun n hu => hno ⟨n, hu⟩)).mono (fun _ _ _ => trivial) ?_
    rintro h w' ⟨rfl, _⟩ hover
    cases hover
  cases call with
  | «open» pathname flags mode =>
      refine (sysOpen_ends rfl rfl hview pathname flags mode).mono (fun _ _ _ => trivial) ?_
      rintro h w' (hd | ⟨_, rfl | ⟨rfl, _⟩⟩) hover
      · exact hd.overUse (e := ⟨pid, env, .open pathname flags mode⟩) rfl hover
      · cases hover
      · cases hover
  | write fd buf =>
      by_cases hex : ∃ n, UserFd (s.view pid) fd n
      · obtain ⟨n, hu⟩ := hex
        obtain ⟨huse, _, hchain⟩ := hinv.user hu
        have hheld : Held s n := ⟨pid, fd.toNat, hu.nonempty, hu.exclusive, by
          exact_mod_cast congrArg (Nat.cast (R := Int)) hu.mindex⟩
        obtain ⟨pre, l, hsplit, _, hends⟩ := sysWrite_ends defaultBuild buf rfl hview hu huse
          (hinv.placed n hheld)
        refine hends.mono (fun _ _ _ => trivial) ?_
        rintro h w' ⟨rfl, htab, new, hcopy⟩ _
        refine .copied ?_ huse hsplit htab hcopy
        obtain ⟨hlinked, _, hlen⟩ := hview.suffix huse hsplit
        have hidx : (s.fds pid fd.toNat).mindex = n := hu.mindex
        have hlt : ((s.table.mb n).lastDbucket :: l).length < walkFuel := Nat.lt_succ_of_le hlen
        simp only [reached, hidx]
        exact congrArg some (chainFrom_eq hlinked hlt)
      · exact hother rfl hex
  | pwrite fd buf offset =>
      by_cases hex : ∃ n, UserFd (s.view pid) fd n
      · obtain ⟨n, hu⟩ := hex
        obtain ⟨huse, hcache, hchain⟩ := hinv.user hu
        refine (sysPwrite_ends rfl hview.toLinkWf hu huse hcache hcall).mono
          (fun _ _ _ => trivial) ?_
        rintro h w' ⟨rfl, htab, pre, b, l, new, hsplit, hlen, hcopy⟩ _
        refine .copied ?_ huse hsplit htab hcopy
        have hidx : (s.fds pid fd.toNat).mindex = n := hu.mindex
        simp only [reached, hidx, hchain]
        rw [hsplit, ← hlen, List.drop_left]
      · exact hother rfl hex
  | upload name =>
      change Ends ((uploadFile defaultBuild env name >>= _) (s.view pid)) _ _
      rw [ends_bind]
      refine (uploadFile_ends rfl hview name).mono ?_ ?_
      · intro r w' _
        cases r <;> trivial
      · intro h w' hd hover
        exact hd.overUse (e := ⟨pid, env, .upload name⟩) rfl hover
  | close fd => exact hcall.elim
  | read fd count => exact hcall.elim
  | pread fd count offset => exact hcall.elim
  | unlink pathname => exact hcall.elim
  | rename old new => exact hcall.elim
  | xstat path => exact hcall.elim
  | fxstat fd => exact hcall.elim

/-- The path for which the call makes a file. -/
def createdFor (e : Event) : Option Path :=
  match e.call with
  | .open pathname _ _ => (absPath e.env pathname).toOption
  | .upload name => some name
  | _ => none

/-- What the other processes rely on: sizes, first buckets and paths. -/
structure StillSound (s s' : Sys) (e : Event) : Prop where
  size : ∀ m, (s'.table.mb m).inUse = true →
    (s'.table.mb m).s.stSize = total s'.data (fileChain s' m)
  first : ∀ m, (s'.table.mb m).inUse = true → s'.data.Owned (s'.table.mb m).firstDbucket
  path : ∀ m, (s'.table.mb m).inUse = true →
    if (s.table.mb m).inUse then (s'.table.mb m).path = (s.table.mb m).path
    else createdFor e = some (s'.table.mb m).path

theorem RepInv.first_owned (hinv : RepInv s rows ch) (huse : (s.table.mb m).inUse = true) :
    s.data.Owned (s.table.mb m).firstDbucket := by
  have hne : ch m ≠ [] := hinv.live m huse
  have hfirst : (s.table.mb m).firstDbucket = (ch m).head?.getD noIx :=
    (hinv.wf.store.linked m huse).head_eq
  cases hl : ch m with
  | nil => exact absurd hl hne
  | cons b l =>
      rw [hl] at hfirst
      rw [hfirst]
      exact hinv.wf.store.owned m huse b (by change b ∈ ch m; rw [hl]; simp)

/-- A write that was cut off leaves a sound store exactly when it had nothing to fill. -/
theorem copied_sound (hinv : RepInv s rows ch) (huse : (s.table.mb m).inUse = true)
    (hsplit : ch m = pre ++ b :: l) (hcopy : Copy s.data (b :: l) off buf s'.data none new)
    (htab : s'.table = s.table) :
    StillSound s s' e ↔
      DataFull s.data ∧ ∀ c ∈ b :: l, (s.data.bucket c).bytes = dbucketBufSize := by
  have wf := hinv.wf.store
  obtain ⟨hnodup, hown⟩ := wf.suffix_nodup huse hsplit
  have wf' := wf.copy pre huse hsplit hcopy
  have hlink : LinkWf (s'.store rows (Function.update ch m (ch m ++ new))) := by
    rw [Sys.store, htab]
    exact wf'.toLinkWf
  have hchain : ∀ a, (s.table.mb a).inUse = true →
      fileChain s' a = Function.update ch m (ch m ++ new) a :=
    fun a ha => hlink.fileChain_eq (by rw [htab]; exact ha)
  have hself : fileChain s' m = ch m ++ new := by rw [hchain m huse, Function.update_self]
  have hsize : ∀ a, (s.table.mb a).inUse = true → (s.table.mb a).s.stSize = total s.data (ch a) :=
    hinv.sized
  have hbefore : total s'.data pre = total s.data pre :=
    total_congr (fun c hc => congrArg DataBucket.bytes (wf.copy_before huse hsplit hcopy hc))
  rw [← hcopy.total_same_iff wf.data hnodup hown]
  constructor
  · intro hsound
    have hm := hsound.size m (by rw [htab]; exact huse)
    rw [htab, hsize m huse, hself, hsplit, List.append_assoc, total_append, total_append,
      hbefore] at hm
    omega
  · intro hsame
    refine ⟨fun a ha => ?_, fun a ha => ?_, fun a ha => ?_⟩
    · rw [htab] at ha ⊢
      rw [hsize a ha]
      by_cases ham : a = m
      · subst ham
        rw [hself, hsplit, List.append_assoc, total_append, total_append, hbefore, hsame]
      · rw [hchain a ha, Function.update_of_ne ham]
        exact (total_congr (fun c hc =>
          congrArg DataBucket.bytes (wf.copy_others huse hsplit hcopy ha ham hc))).symm
    · rw [htab] at ha ⊢
      have hfirst := hinv.first_owned ha
      exact ⟨hfirst.1, hcopy.inUse.mpr (Or.inl hfirst.2)⟩
    · rw [htab] at ha ⊢
      rw [if_pos ha]

/-- A file that was made without its data, or with a part of it, is not sound. -/
theorem bare_not_sound (hinv : RepInv s rows ch) (hbare : Bare (s.view e.pid) rows w')
    (htab : s'.table = w'.table) : ¬ StillSound s s' e := by
  obtain ⟨p, h, m, f, hnew, hstays, hsame, _⟩ := hbare
  obtain ⟨t₁, hc, he⟩ := hnew.edited
  rw [← htab] at he
  intro hsound
  have huse : (s'.table.mb m).inUse = true := (he.inUse hstays m).trans hc.new.inUse
  have hfirst : (s'.table.mb m).firstDbucket = noIx := by
    have h₁ : (s'.table.mb m).firstDbucket = (t₁.mb m).firstDbucket :=
      (congrArg FileCore.first he.self).trans (hsame _).1
    rw [h₁, hc.new.firstDbucket]
    exact (hinv.wf.store.table.free m hc.fresh).2
  exact (hsound.first m huse).ne_noIx hfirst

theorem filled_not_sound {p : Path} {h ix : Nat} (hinv : RepInv s rows ch)
    (hfill : Filled (s.view e.pid) rows p buf h m ix new none w') (htab : s'.table = w'.table)
    (hdata : s'.data = w'.data) : ¬ StillSound s s' e := by
  have hview : StoreWf ((s.view e.pid).store rows ch) := hinv.wf.store
  have wf' := hfill.storeWf hview
  obtain ⟨_, huse, _, _, _, hsize⟩ := hfill.core_eq hview
  rw [← htab] at huse hsize wf'
  rw [← hdata] at wf'
  have huse' : (s'.table.mb m).inUse = true := huse
  have hchain : fileChain s' m = ix :: new := by
    have := LinkWf.fileChain_eq (s := s') wf'.toLinkWf huse'
    rwa [Function.update_self] at this
  intro hsound
  have hm := hsound.size m huse'
  have hbuf : (s'.table.mb m).s.stSize = buf.length := hsize
  have hshort := hfill.copy.short_of_none rfl
  have hle := total_le (d := s'.data) (l := ix :: new) (fun c _ => wf'.bytes_le c)
  rw [hchain, hbuf] at hm
  rw [← hm, List.length_cons] at hle
  simp only [List.length_singleton, Nat.zero_add] at hshort
  rw [Nat.add_comm] at hshort
  omega

/-- The state that a call without a bucket leaves is sound exactly when it had reached only
full buckets of a full store. -/
theorem OverUse.sound_iff (hinv : RepInv s rows ch) (hover : OverUse s rows ch e w')
    (htab : s'.table = w'.table) (hdata : s'.data = w'.data) :
    StillSound s s' e ↔
      DataFull s.data ∧ ∃ l, reached s e = some l ∧
        ∀ c ∈ l, (s.data.bucket c).bytes = dbucketBufSize := by
  cases hover with
  | copied hreach huse hsplit hsame hcopy =>
      rw [← hdata] at hcopy
      rw [copied_sound hinv huse hsplit hcopy (htab.trans hsame), hreach]
      simp
  | bare hreach hbare =>
      refine iff_of_false (bare_not_sound hinv hbare htab) (fun ⟨_, l, hl, _⟩ => ?_)
      rw [hreach] at hl
      cases hl
  | filled hreach hfill =>
      refine iff_of_false (filled_not_sound hinv hfill htab hdata) (fun ⟨_, l, hl, _⟩ => ?_)
      rw [hreach] at hl
      cases hl

theorem RepInv.over_use (hinv : RepInv s rows ch) (hcall : NeedsBuckets e.call)
    (hexec : exec defaultBuild s e = (.halt (.exit .dataBucketOverUse), s')) :
    ∃ w', OverUse s rows ch e w' ∧ s'.table = w'.table ∧ s'.data = w'.data := by
  rcases exec_ends (overUse_ends hinv hcall) hexec with ⟨r, w', hout, _⟩ | ⟨h, w', hout, rfl, hover⟩
  · cases hout
  · exact ⟨w', hover (Out.halt.inj hout).symm, rfl, rfl⟩

/-- When a call ends its process because it finds no data bucket, the store that
remains is well formed if and only if no bucket was free before the call and every
bucket that a `write` or `pwrite` reached was full already. -/
theorem over_use_leaves_sound (hinv : RepInv s rows ch) (hcall : NeedsBuckets e.call)
    (hexec : exec defaultBuild s e = (.halt (.exit .dataBucketOverUse), s')) :
    StillSound s s' e ↔
      DataFull s.data ∧ ∃ l, reached s e = some l ∧
        ∀ c ∈ l, (s.data.bucket c).bytes = dbucketBufSize := by
  obtain ⟨w', hover, htab, hdata⟩ := hinv.over_use hcall hexec
  exact hover.sound_iff hinv htab hdata

/-- No store holds a buffer with more bytes than its buckets. -/
theorem RepInv.write_too_long (hinv : RepInv s rows ch) (hu : UserFd (s.view pid) fd n)
    (hlong : totBuckets * dbucketBufSize < buf.length) :
    ∃ s', exec defaultBuild s ⟨pid, env, .write fd buf⟩ = (.halt (.exit .dataBucketOverUse), s') := by
  obtain ⟨huse, _, hchain⟩ := hinv.user hu
  have hview : StoreWf ((s.view pid).store rows ch) := hinv.wf.store
  have hheld : Held s n := ⟨pid, fd.toNat, hu.nonempty, hu.exclusive, by
    exact_mod_cast congrArg (Nat.cast (R := Int)) hu.mindex⟩
  obtain ⟨pre, l, hsplit, _, hends⟩ := sysWrite_ends defaultBuild buf rfl hview hu huse
    (hinv.placed n hheld)
  rcases exec_ends (e := ⟨pid, env, .write fd buf⟩) hends (Prod.eta _).symm with
    ⟨r, w', _, _, _, out, new, hw⟩ | ⟨h, w', hout, _, rfl, _⟩
  · obtain ⟨hnodup, hown⟩ := hview.suffix_nodup huse hsplit
    obtain ⟨l₁, l₂, hl, _, hle, hpos⟩ := hw.copy.cursor rfl hview.data hnodup hown
    have he : Edited s.table w'.table n (wroteBy (some out) (decide (0 < buf.length))) := hw.table
    have wf' := hview.wrote huse hsplit hw.copy he
    have huse' : (w'.table.mb n).inUse = true := (he.inUse (wroteBy_stays _ _) n).trans huse
    have hcount := length_le_totBuckets (wf'.nodup huse')
      (fun c hc => (wf'.owned n huse' c hc).1)
    have hbytes := wf'.bytes_le out.dbindex
    simp only [Function.update_self] at hcount
    rw [show ((s.view pid).store rows ch).ch n = _ from hsplit, List.append_assoc, hl,
      List.length_append, List.length_append, List.length_cons] at hcount
    have hmul := Nat.mul_le_mul_right dbucketBufSize (show l₁.length + 1 ≤ totBuckets by omega)
    rw [Nat.succ_mul] at hmul
    dsimp only at hbytes
    omega
  · exact ⟨_, Prod.ext hout rfl⟩

theorem createdA_run : Run defaultBuild Settled initSys createdA :=
  .tail .refl ⟨_, _, rfl, createdA_allowed⟩

/-- A buffer with one bucket more than there are, written to a new file. -/
def longWrite : Event :=
  ⟨0, emptyDisk, .write 1024 (List.replicate ((totBuckets + 1) * dbucketBufSize) 0)⟩

theorem longWrite_fails :
    ∃ s', exec defaultBuild createdA longWrite = (.halt (.exit .dataBucketOverUse), s') := by
  obtain ⟨rows, ch, hinv⟩ := run_repInv createdA_run
  refine hinv.write_too_long createdA_fd ?_
  rw [List.length_replicate, Nat.succ_mul]
  exact Nat.lt_add_of_pos_right dbucketBufSize_pos

theorem createdA_not_full : ¬ DataFull createdA.data :=
  fun hfull => absurd (hfull 1 (by decide)) (by decide +kernel)

theorem longWrite_leaves_unsound :
    ¬ StillSound createdA (exec defaultBuild createdA longWrite).2 longWrite := by
  obtain ⟨s', hexec⟩ := longWrite_fails
  obtain ⟨rows, ch, hinv⟩ := run_repInv createdA_run
  have hcall : NeedsBuckets longWrite.call := trivial
  rw [hexec]
  exact fun h => createdA_not_full ((over_use_leaves_sound hinv hcall hexec).mp h).1

/-- The buckets are filled, and the size of the file is still 0. -/
theorem over_use_breaks_sizes :
    ¬ ∀ (s s' : Sys) (e : Event), Run defaultBuild Settled initSys s → NeedsBuckets e.call →
      exec defaultBuild s e = (.halt (.exit .dataBucketOverUse), s') → StillSound s s' e := by
  intro hall
  obtain ⟨s', hexec⟩ := longWrite_fails
  obtain ⟨rows, ch, hinv⟩ := run_repInv createdA_run
  have hcall : NeedsBuckets longWrite.call := trivial
  have hsound := hall createdA s' longWrite createdA_run hcall hexec
  obtain ⟨w', hover, htab, hdata⟩ := hinv.over_use hcall hexec
  exact createdA_not_full ((hover.sound_iff hinv htab hdata).mp hsound).1

end Spacefish
