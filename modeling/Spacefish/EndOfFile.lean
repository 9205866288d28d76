import Spacefish.FlatRefinement

/-!
Access at and behind the end of a file. `pread` and `pwrite` walk to the bucket of
their offset first: a bucket that is not there ends the call, and one that ends
before the offset is read as if it did not.
-/

namespace Spacefish

open LinkedArray Program Buffer

/-- The calls of the runs: every descriptor keeps its file, uploads are complete and
the data buckets are not exhausted. -/
def Settled (s : Sys) (e : Event) (out : Out) : Prop :=
  KeepsOpenFiles s e out ∧ ¬ ShortReads e.env e.call ∧ out ≠ .halt (.exit .dataBucketOverUse)

variable {s s' : Sys} {rows : Nat → List Int} {ch : Int → List Nat} {e : Event} {out : Out}
  {env : Env} {pid m : Nat} {fd offset : Int} {count : UInt64} {d : DataShm} {l pre : List Nat}
  {b : Nat}

theorem Settled.step (hinv : RepInv s rows ch) (hallow : Settled s e out)
    (hexec : exec defaultBuild s e = (out, s')) :
    ∃ rows' ch', SysStep s e out rows ch true s' rows' ch' ∧ RepInv s' rows' ch' := by
  obtain ⟨⟨hok, hspares, hout⟩, hshort, hover⟩ := hallow
  obtain ⟨done, rows', ch', hstep⟩ := exec_step hinv.wf hok hexec hout
  cases done with
  | true => exact ⟨rows', ch', hstep, hstep.repInv hinv hspares⟩
  | false =>
      rcases hstep.done rfl with hfull | hread
      · exact absurd hfull hover
      · exact absurd hread hshort

theorem run_repInv (hrun : Run defaultBuild Settled initSys s) : ∃ rows ch, RepInv s rows ch :=
  hrun.invariant (P := fun s => ∃ rows ch, RepInv s rows ch) ⟨_, _, initSys_repInv⟩
    (fun _ _ _ _ ⟨_, _, hinv⟩ hallow hexec => by
      obtain ⟨rows', ch', _, hinv'⟩ := hallow.step hinv hexec
      exact ⟨rows', ch', hinv'⟩)

/-- Files that are created or uploaded and never truncated fill their buckets one
after the other. -/
theorem run_tight
    (hrun : Run defaultBuild (fun s e out => Settled s e out ∧ Untruncated e.call) initSys s)
    (huse : (s.table.mb m).inUse = true) : Tight s.data (fileChain s m) := by
  obtain ⟨rows, ch, hinv, ht⟩ := hrun.invariant
    (P := fun s => ∃ rows ch, RepInv s rows ch ∧ AllTight (s.store rows ch))
    ⟨_, _, initSys_repInv, fun _ hm => absurd hm Bool.false_ne_true⟩
    (fun _ _ _ _ ⟨_, _, hinv, ht⟩ ⟨hallow, hno⟩ hexec => by
      obtain ⟨rows', ch', hstep, hinv'⟩ := hallow.step hinv hexec
      exact ⟨rows', ch', hinv', hstep.effect.allTight hno hinv.wf.store ht⟩)
  rw [hinv.wf.store.toLinkWf.fileChain_eq huse]
  exact ht m huse

theorem RepInv.user (hinv : RepInv s rows ch) (hu : UserFd (s.view pid) fd m) :
    (s.table.mb m).inUse = true ∧ CacheOk (s.fds pid fd.toNat) (ch m) ∧ fileChain s m = ch m := by
  obtain ⟨huse, hcache⟩ := hu.used (hinv.wf.slots pid _)
  exact ⟨huse, hcache, hinv.wf.store.toLinkWf.fileChain_eq huse⟩

/-! Reading. -/

/-- The call returns 0 and copies nothing to its caller. -/
def DeliversNothing (out : Out) : Prop := ∃ r, out = .ret r ∧ r.ret = 0 ∧ r.data = []

/-- In a tight chain the bucket of an offset lies behind full buckets. -/
theorem Tight.end_iff (ht : Tight d (pre ++ b :: l)) (hlen : pre.length = hops offset) :
    hops offset * dbucketBufSize + within offset = total d (pre ++ b :: l) ↔
      total d (b :: l) = within offset := by
  rw [total_append, total_of_full ht.full_before, hlen]
  omega

theorem Tight.not_end (ht : Tight d (pre ++ b :: l)) (hpast : (d.bucket b).bytes < within offset) :
    total d (b :: l) ≠ within offset := by
  have hw := within_lt offset
  cases l with
  | nil =>
      rw [total_cons, total_nil]
      omega
  | cons c l =>
      have hfull := (List.pairwise_cons.mp (List.pairwise_append.mp ht).2.1).1 c (by simp)
      omega

/-- A `pread` behind the end of a file whose buckets are filled one after the other
delivers nothing, if and only if it asks for nothing, the bucket it walks to is not
on the chain, or the position it walks to is the end of the file: the number of links
to walk is an `int`, and for a large offset it wraps around. -/
theorem pread_past_end (hrun : Run defaultBuild Settled initSys s)
    (hu : UserFd (s.view pid) fd m) (hdense : Tight s.data (fileChain s m))
    (hoff : (s.table.mb m).s.stSize < offset) :
    DeliversNothing (exec defaultBuild s ⟨pid, env, .pread fd count offset⟩).1 ↔
      count = 0 ∨ (fileChain s m).length ≤ hops offset ∨
        hops offset * dbucketBufSize + within offset = (s.table.mb m).s.stSize := by
  obtain ⟨rows, ch, hinv⟩ := run_repInv hrun
  obtain ⟨huse, hcache, hchain⟩ := hinv.user hu
  have hsize : (s.table.mb m).s.stSize = total s.data (ch m) := hinv.sized m huse
  have hzero : count = 0 ↔ count.toNat = 0 := by
    rw [← UInt64.toNat_inj]
    rfl
  have hview : StoreWf ((s.view pid).store rows ch) := hinv.wf.store
  rw [hchain] at hdense ⊢
  rw [hsize, hzero]
  have hpos : 0 ≤ offset := by omega
  have hends : Ends (sysPread defaultBuild env fd count offset (s.view pid)) _ _ :=
    sysPread_ends hview hu huse hcache hpos
  rcases exec_ends (e := ⟨pid, env, .pread fd count offset⟩) hends (Prod.eta _).symm with
    ⟨r, w', hout, _, _, _, _, hr, hpd⟩ |
      ⟨h, w', hout, _, rfl, _, _, pre, b, l, hsplit, hlen, hpast, hcount⟩
  · have hdel : DeliversNothing (exec defaultBuild s ⟨pid, env, .pread fd count offset⟩).1 ↔
        r.data = [] := by
      rw [hout]
      constructor
      · rintro ⟨r', ⟨⟩, _, hdata⟩
        exact hdata
      · intro hdata
        refine ⟨r, rfl, ?_, hdata⟩
        rw [hr, hdata]
        rfl
    rw [hdel]
    generalize r.data = data at hpd
    cases hpd with
    | short hlen => exact iff_of_true rfl (Or.inr (Or.inl hlen))
    | @inside pre b l hsplit hlen hin =>
        have hin' : within offset ≤ (s.data.bucket b).bytes := hin
        rw [hsplit] at hdense ⊢
        rw [hdense.end_iff hlen, ← List.length_eq_zero_iff, List.length_take, List.length_drop]
        change min _ ((content s.data (b :: l)).length - _) = 0 ↔ _
        rw [content_length, List.length_append, List.length_cons, total_cons]
        omega
    | @past pre b l data hsplit hlen hpast hcount _ =>
        have hpast' : (s.data.bucket b).bytes < within offset := hpast
        rw [hsplit] at hdense ⊢
        have hne := hdense.not_end hpast'
        rw [hdense.end_iff hlen, ← List.length_eq_zero_iff, hcount, List.length_append,
          List.length_cons]
        omega
  · have hpast' : (s.data.bucket b).bytes < within offset := hpast
    rw [hsplit] at hdense ⊢
    have hne := hdense.not_end hpast'
    rw [hdense.end_iff hlen, hout, List.length_append, List.length_cons]
    refine iff_of_false (fun ⟨_, hno, _⟩ => nomatch hno) ?_
    omega

theorem threeBytes_settled :
    Run defaultBuild (fun s e out => Settled s e out ∧ Untruncated e.call) initSys threeBytes := by
  refine run_of_allReturn (by decide +kernel) (fun c hc s out hret => ?_)
  obtain ⟨hout, hno⟩ := Out.isRet_spec hret
  simp only [List.mem_cons, List.not_mem_nil, or_false] at hc
  rcases hc with rfl | rfl
  · refine ⟨⟨⟨fun happ => absurd happ (by decide), fun _ _ _ => id, hout⟩,
      emptyDisk_complete _, hno _⟩, ?_⟩
    rintro _ _ _ ⟨⟩
    decide
  · exact ⟨⟨⟨trivial, fun _ _ _ => id, hout⟩, emptyDisk_complete _, hno _⟩, fun _ _ _ => nofun⟩

theorem Run.settled
    (hrun : Run defaultBuild (fun s e out => Settled s e out ∧ Untruncated e.call) initSys s) :
    Run defaultBuild Settled initSys s :=
  Relation.ReflTransGen.mono (fun _ _ ⟨e, out, hexec, hallow, _⟩ => ⟨e, out, hexec, hallow⟩) _ _
    hrun

theorem threeBytes_fd : UserFd (threeBytes.view 0) 1024 0 :=
  ⟨by decide, by decide, by decide +kernel, by decide +kernel, by decide +kernel⟩

theorem threeBytes_tight : Tight threeBytes.data (fileChain threeBytes (0 : Nat)) :=
  run_tight threeBytes_settled (by decide +kernel)

/-- A `pread` in the bucket behind a file of three bytes delivers nothing. -/
theorem pread_next_bucket :
    DeliversNothing (exec defaultBuild threeBytes ⟨0, emptyDisk, .pread 1024 5 4096⟩).1 :=
  (pread_past_end threeBytes_settled.settled threeBytes_fd threeBytes_tight (by decide +kernel)).mpr
    (Or.inr (Or.inl (by decide +kernel)))

/-- One byte behind the end of the file the unsigned difference `bytes - off` wraps
around, and `pread` copies what the bucket holds there. -/
theorem pread_past_end_delivers :
    ¬ ∀ (s : Sys) (pid m : Nat) (fd offset : Int) (count : UInt64) (env : Env),
      Run defaultBuild Settled initSys s → UserFd (s.view pid) fd m →
      Tight s.data (fileChain s m) → (s.table.mb m).s.stSize < offset →
      DeliversNothing (exec defaultBuild s ⟨pid, env, .pread fd count offset⟩).1 := by
  intro hall
  obtain ⟨r, hout, hret, _⟩ := hall threeBytes 0 0 1024 4 1 emptyDisk threeBytes_settled.settled
    threeBytes_fd threeBytes_tight (by decide +kernel)
  have hnum : (exec defaultBuild threeBytes ⟨0, emptyDisk, .pread 1024 1 4⟩).1.num = 1 := by
    decide +kernel
  rw [hout] at hnum
  exact absurd (hret.symm.trans hnum) (by decide)

/-! Appending. -/

/-- Write the buffers one after the other, each at the current size of file `m`. -/
def appendAll (pid : Nat) (fd : Int) (m : Nat) : Sys → List (Env × List Byte) → List Out × Sys
  | s, [] => ([], s)
  | s, (env, buf) :: rest =>
      let step := exec defaultBuild s ⟨pid, env, .pwrite fd buf (s.table.mb m).s.stSize⟩
      let later := appendAll pid fd m step.2 rest
      (step.1 :: later.1, later.2)

/-- No buffer starts where a bucket ends. -/
def NoneAtBoundary : Nat → List (Env × List Byte) → Prop
  | _, [] => True
  | k, (_, buf) :: rest =>
      ¬ (0 < k ∧ dbucketBufSize ∣ k) ∧ NoneAtBoundary (k + buf.length) rest

/-- Every call returned the length of its buffer, and the file holds `c` and the
buffers. -/
def Appended (m : Nat) (c : List Byte) (bufs : List (Env × List Byte)) (r : List Out × Sys) :
    Prop :=
  r.1 = bufs.map (fun b => .ret { ret := b.2.length, err := .ok }) ∧
    content r.2.data (fileChain r.2 m) = c ++ bufs.flatMap Prod.snd ∧
    (r.2.table.mb m).s.stSize = (c ++ bufs.flatMap Prod.snd).length

/-- The descriptor refers to a tight file with content `c` whose last bucket is needed. -/
structure Appending (s : Sys) (pid : Nat) (fd : Int) (m : Nat) (c : List Byte) : Prop where
  inv : ∃ rows ch, RepInv s rows ch
  user : UserFd (s.view pid) fd m
  tight : Tight s.data (fileChain s m)
  content : content s.data (fileChain s m) = c
  needed : (fileChain s m).length * dbucketBufSize < c.length + dbucketBufSize ∨
    (fileChain s m).length = 1

/-- New buckets are linked only for bytes that are left. -/
theorem Copy.new_needed {off : Nat} {buf : List Byte} {d' : DataShm} {r : Option WriteOut}
    {new : List Nat} (hcopy : Copy d l off buf d' r new) (hnew : new ≠ []) :
    (l.length + new.length) * dbucketBufSize < off + buf.length + dbucketBufSize := by
  induction hcopy with
  | last hfit => exact absurd rfl hnew
  | next hfull hmore hrest ih =>
      have := ih hnew
      simp only [List.length_cons, List.length_append] at this ⊢
      rw [Nat.add_right_comm, Nat.succ_mul]
      omega
  | @grow d b ix off chunk buf d' r new hfull hmore hix hfree hrest ih =>
      have hbuf := List.length_pos_iff.mpr hmore
      have hlater : (1 + new.length) * dbucketBufSize < buf.length + dbucketBufSize := by
        by_cases hnil : new = []
        · subst hnil
          simpa using hbuf
        · simpa using ih hnil
      simp only [List.length_cons, List.length_append, List.length_nil]
      rw [Nat.zero_add, Nat.add_comm new.length, Nat.add_mul]
      omega
  | full hfull hmore hover => exact absurd rfl hnew

/-- Position `k`, bucket `h` at `w`, against the end of `n` full buckets and one more. -/
theorem end_place {n k bytes h w : Nat} (hk : n * dbucketBufSize + bytes = k)
    (hbytes : bytes ≤ dbucketBufSize) (hplace : h * dbucketBufSize + w = k)
    (hw : w < dbucketBufSize)
    (hneed : (n + 1) * dbucketBufSize < k + dbucketBufSize ∨ n + 1 = 1) :
    (n + 1 ≤ h ↔ 0 < k ∧ dbucketBufSize ∣ k) ∧ (¬ n + 1 ≤ h → n + 1 = h + 1) := by
  unfold dbucketBufSize at *
  omega

/-- Where a file without a needless bucket ends. -/
theorem Appending.place {c : List Byte} (h : Appending s pid fd m c)
    (hlast : (s.table.mb m).s.stSize = offset) :
    0 ≤ offset ∧ hops offset * dbucketBufSize + within offset = c.length ∧
      ((fileChain s m).length ≤ hops offset ↔ 0 < c.length ∧ dbucketBufSize ∣ c.length) ∧
      (¬ (fileChain s m).length ≤ hops offset → (fileChain s m).length = hops offset + 1) := by
  obtain ⟨rows, ch, hinv⟩ := h.inv
  obtain ⟨huse, _, hchain⟩ := hinv.user h.user
  have hsize : (s.table.mb m).s.stSize = total s.data (ch m) := hinv.sized m huse
  have hlt : total s.data (ch m) < 2 ^ 32 := hinv.wf.store.total_lt huse
  have hcount : total s.data (ch m) = c.length := by rw [← content_length, ← hchain, h.content]
  have hoff : 0 ≤ offset := by omega
  have hplace : hops offset * dbucketBufSize + within offset = c.length := by
    have := hops_eq hoff (by omega)
    omega
  have hlive : fileChain s m ≠ [] := by
    rw [hchain]
    exact hinv.live m huse
  -- every bucket but the last one is full
  obtain ⟨pre, b, hsplit⟩ : ∃ pre b, fileChain s m = pre ++ [b] :=
    ⟨_, _, (List.dropLast_append_getLast hlive).symm⟩
  have ht := h.tight
  have hneed := h.needed
  rw [hsplit, List.length_append, List.length_singleton] at hneed
  rw [hsplit] at ht
  rw [← hchain, hsplit, total_append, total_cons, total_nil, total_of_full ht.full_before,
    Nat.add_zero] at hcount
  rw [hsplit, List.length_append, List.length_singleton]
  exact ⟨hoff, hplace, end_place hcount (hinv.wf.store.bytes_le b) hplace (within_lt offset) hneed⟩

theorem UserFd.put {w' : World} (hu : UserFd (s.view pid) fd m)
    (hkept : SlotKept (s.fds pid fd.toNat) (w'.fdTable fd.toNat)) :
    UserFd ((s.put pid w').view pid) fd m := by
  have hfds : (s.put pid w').fds pid = w'.fdTable := Function.update_self ..
  refine ⟨hu.pos, hu.lt, ?_, ?_, ?_⟩
  · rw [Sys.view, hfds, hkept.exclusive]
    exact hu.exclusive
  · rw [Sys.view, hfds, hkept.empty]
    exact hu.nonempty
  · rw [Sys.view, hfds, hkept.mindex]
    exact hu.mindex

/-- The file after a write into its last bucket. -/
theorem Appending.wrote {c buf : List Byte} {w' : World} {o : WriteOut} {new : List Nat}
    (h : Appending s pid fd m c) (hinv : RepInv s rows ch)
    (hinv' : ∃ rows' ch', RepInv (s.put pid w') rows' ch') (hsplit : ch m = pre ++ [b])
    (hlen : pre.length = hops offset)
    (hplace : hops offset * dbucketBufSize + within offset = c.length)
    (hw : WroteFile (s.view pid) w' fd m (ch m) [b] (within offset) buf false o new) :
    Appending (s.put pid w') pid fd m (c ++ buf) := by
  obtain ⟨huse, _, hchain⟩ := hinv.user h.user
  have wf := hinv.wf.store
  have hsplit' : (s.store rows ch).ch m = pre ++ [b] := hsplit
  have hcopy : Copy s.data [b] (within offset) buf w'.data (some o) new := hw.copy
  have he : Edited s.table w'.table m (wroteBy (some o) false) := hw.table
  have ht : Tight s.data (ch m) := hchain ▸ h.tight
  have hbefore : total s.data pre = pre.length * dbucketBufSize :=
    total_of_full (hsplit ▸ ht).full_before
  have hin : within offset ≤ (s.data.bucket b).bytes := by
    have hcount : total s.data (ch m) = c.length := by rw [← content_length, ← hchain, h.content]
    rw [hsplit, total_append, total_cons, total_nil, hbefore, hlen] at hcount
    omega
  have hchain' : fileChain (s.put pid w') m = ch m ++ new := by
    have huse' : (w'.table.mb m).inUse = true := (he.inUse (wroteBy_stays _ _) m).trans huse
    have := LinkWf.fileChain_eq (s := s.put pid w') (wf.wrote huse hsplit' hcopy he).toLinkWf huse'
    rwa [Function.update_self] at this
  refine ⟨hinv', h.user.put (hw.slots.kept fd.toNat), ?_, ?_, ?_⟩
  · rw [hchain']
    exact wf.wrote_tight huse hsplit' hcopy ht
  · rw [hchain']
    refine (wf.wrote_content huse hsplit' hin hcopy ht).trans ?_
    have hend : total s.data pre + within offset = c.length := by rw [hbefore, hlen, hplace]
    change overwrite (Spacefish.content s.data (ch m)) (total s.data pre + _) buf = _
    rw [hend, ← hchain, h.content, overwrite_of_le _ _ _ (by omega), List.take_length]
  · have hneed := h.needed
    rw [hchain, hsplit, List.length_append, List.length_singleton, hlen] at hneed
    rw [hchain', hsplit, List.length_append, List.length_append, List.length_singleton, hlen,
      List.length_append]
    by_cases hnew : new = []
    · subst hnew
      rw [List.length_nil, Nat.add_zero]
      omega
    · have hlater := hcopy.new_needed hnew
      rw [List.length_singleton] at hlater
      rw [Nat.add_assoc, Nat.add_mul]
      omega

/-- A `pwrite` at the end of the file returns 0 when the last bucket is full, and
appends its buffer otherwise. -/
theorem Appending.step {c buf : List Byte} (h : Appending s pid fd m c)
    (hexec : exec defaultBuild s ⟨pid, env, .pwrite fd buf (s.table.mb m).s.stSize⟩ = (out, s'))
    (hover : out ≠ .halt (.exit .dataBucketOverUse)) :
    ((0 < c.length ∧ dbucketBufSize ∣ c.length) ∧ out = .ret { ret := 0, err := .ok }) ∨
      (¬ (0 < c.length ∧ dbucketBufSize ∣ c.length) ∧
        out = .ret { ret := buf.length, err := .ok } ∧ Appending s' pid fd m (c ++ buf)) := by
  obtain ⟨hoff, hplace, hbound, hlast⟩ := h.place rfl
  obtain ⟨rows, ch, hinv⟩ := h.inv
  obtain ⟨huse, hcache, hchain⟩ := hinv.user h.user
  have hview : LinkWf ((s.view pid).store rows ch) := hinv.wf.store.toLinkWf
  rw [← hbound]
  rw [hchain] at hlast ⊢
  have hends : Ends (sysPwrite defaultBuild env fd buf (s.table.mb m).s.stSize (s.view pid)) _ _ :=
    sysPwrite_ends rfl hview h.user huse hcache hoff
  rcases exec_ends (e := ⟨pid, env, .pwrite fd buf (s.table.mb m).s.stSize⟩) hends hexec with
    ⟨r, w', rfl, rfl, ⟨hshort, rfl, _⟩ | ⟨pre, b, l, o, new, hsplit, hlen, rfl, hw⟩⟩ |
      ⟨_, _, hout, _, rfl, _⟩
  · exact Or.inl ⟨hshort, rfl⟩
  · have hon : ¬ (ch m).length ≤ hops (s.table.mb m).s.stSize := by
      rw [hsplit, List.length_append, List.length_cons]
      omega
    have hlength := hlast hon
    obtain rfl : l = [] := by
      rw [hsplit, List.length_append, List.length_cons] at hlength
      exact List.length_eq_zero_iff.mp (by omega)
    have hsettled : Settled s ⟨pid, env, .pwrite fd buf (s.table.mb m).s.stSize⟩
        (.ret { ret := buf.length, err := .ok }) :=
      ⟨⟨hoff, fun _ _ _ => id, trivial⟩, id, hover⟩
    obtain ⟨rows', ch', _, hinv'⟩ := hsettled.step hinv hexec
    exact Or.inr ⟨hon, rfl, h.wrote hinv ⟨rows', ch', hinv'⟩ hsplit hlen hplace hw⟩
  · exact absurd hout hover

theorem Appending.all {c : List Byte} {bufs : List (Env × List Byte)}
    (h : Appending s pid fd m c) (hne : ∀ b ∈ bufs, b.2 ≠ [])
    (hover : ∀ out ∈ (appendAll pid fd m s bufs).1, out ≠ .halt (.exit .dataBucketOverUse)) :
    Appended m c bufs (appendAll pid fd m s bufs) ↔ NoneAtBoundary c.length bufs := by
  induction bufs generalizing s c with
  | nil =>
      obtain ⟨rows, ch, hinv⟩ := h.inv
      obtain ⟨huse, _, hchain⟩ := hinv.user h.user
      refine iff_of_true ⟨rfl, ?_, ?_⟩ trivial
      · simpa [appendAll] using h.content
      · have hsize : (s.table.mb m).s.stSize = total s.data (ch m) := hinv.sized m huse
        simp only [appendAll, List.flatMap_nil, List.append_nil]
        rw [hsize, ← h.content, hchain, content_length]
  | cons b bufs ih =>
      obtain ⟨env, buf⟩ := b
      obtain ⟨hbuf, hne⟩ := List.forall_mem_cons.mp hne
      obtain ⟨hfirst, hlater⟩ := List.forall_mem_cons.mp hover
      rcases h.step (Prod.eta _).symm hfirst with ⟨hbound, hout⟩ | ⟨hbound, hout, happ⟩
      · refine iff_of_false (fun hdone => ?_) (fun hnone => hnone.1 hbound)
        have hret := (List.cons.inj hdone.1).1
        rw [hout] at hret
        have hzero : (0 : Int) = buf.length := congrArg Ret.ret (Out.ret.inj hret)
        have hnil : buf.length = 0 := by omega
        exact hbuf (List.length_eq_zero_iff.mp hnil)
      · have hrest := ih happ hne hlater
        rw [List.length_append] at hrest
        rw [NoneAtBoundary, ← hrest]
        simp only [Appended, appendAll, List.map_cons, List.flatMap_cons, List.cons.injEq, hout,
          true_and, List.append_assoc, hbound, not_false_eq_true]

/-- A file that an `open` has just made and that is empty. -/
theorem created_appending {pathname : Path} {flags mode : Nat} {s₀ : Sys}
    (hrun : Run defaultBuild Settled initSys s)
    (hexec : exec defaultBuild s ⟨pid, env, .open pathname flags mode⟩ = (out, s₀))
    (hallow : Settled s ⟨pid, env, .open pathname flags mode⟩ out)
    (hu : UserFd (s₀.view pid) fd m) (hnew : (s.table.mb m).inUse = false)
    (hempty : (s₀.table.mb m).s.stSize = 0) : Appending s₀ pid fd m [] := by
  obtain ⟨rows, ch, hinv⟩ := run_repInv hrun
  obtain ⟨rows', ch', hstep, hinv'⟩ := hallow.step hinv hexec
  obtain ⟨huse, _, hchain⟩ := hinv'.user hu
  have ht : Tight s₀.data (ch' m) := hstep.effect.tight hinv.wf.store
    (fun huse => absurd (hnew.symm.trans huse) Bool.false_ne_true) huse
  have hsize : (s₀.table.mb m).s.stSize = total s₀.data (ch' m) := hinv'.sized m huse
  rw [hempty] at hsize
  rw [← hchain] at hsize ht
  refine ⟨⟨rows', ch', hinv'⟩, hu, ht, ?_, Or.inr ?_⟩
  · exact List.length_eq_zero_iff.mp (content_length.trans hsize.symm)
  · -- the first of two buckets would be full
    have hlive : fileChain s₀ m ≠ [] := hchain ▸ hinv'.live m huse
    cases hl : fileChain s₀ m with
    | nil => exact absurd hl hlive
    | cons b l =>
        cases l with
        | nil => rfl
        | cons c l =>
            rw [hl] at ht hsize
            have hfull := (List.pairwise_cons.mp ht).1 c (by simp)
            rw [total_cons, hfull] at hsize
            have : 0 < dbucketBufSize := by decide
            omega

/-- Appending to a new file with `pwrite`, each time at its size, works for every
buffer if and only if none of them starts where a bucket ends. -/
theorem pwrite_appends {pathname : Path} {flags mode : Nat} {s₀ : Sys}
    {bufs : List (Env × List Byte)} (hrun : Run defaultBuild Settled initSys s)
    (hexec : exec defaultBuild s ⟨pid, env, .open pathname flags mode⟩ = (out, s₀))
    (hallow : Settled s ⟨pid, env, .open pathname flags mode⟩ out)
    (hu : UserFd (s₀.view pid) fd m) (hnew : (s.table.mb m).inUse = false)
    (hempty : (s₀.table.mb m).s.stSize = 0) (hne : ∀ b ∈ bufs, b.2 ≠ [])
    (hover : ∀ out ∈ (appendAll pid fd m s₀ bufs).1, out ≠ .halt (.exit .dataBucketOverUse)) :
    Appended m [] bufs (appendAll pid fd m s₀ bufs) ↔ NoneAtBoundary 0 bufs :=
  (created_appending hrun hexec hallow hu hnew hempty).all hne hover

/-- The state after the creation of `/a`. -/
def createdA : Sys := afterCalls [.open pathA 66 0]

theorem createdA_allowed :
    Settled initSys ⟨0, emptyDisk, .open pathA 66 0⟩
      (exec defaultBuild initSys ⟨0, emptyDisk, .open pathA 66 0⟩).1 := by
  have hret : (exec defaultBuild initSys ⟨0, emptyDisk, .open pathA 66 0⟩).1.isRet = true := by
    decide +kernel
  exact ⟨⟨fun happ => absurd happ (by decide), fun _ _ _ => id, (Out.isRet_spec hret).1⟩,
    emptyDisk_complete _, (Out.isRet_spec hret).2 _⟩

theorem createdA_fd : UserFd (createdA.view 0) 1024 0 :=
  ⟨by decide, by decide, by decide +kernel, by decide +kernel, by decide +kernel⟩

/-- Two buffers of three bytes. -/
theorem pwrite_appends_twice :
    Appended 0 [] [(emptyDisk, [1, 2, 3]), (emptyDisk, [4, 5, 6])]
      (appendAll 0 1024 0 createdA [(emptyDisk, [1, 2, 3]), (emptyDisk, [4, 5, 6])]) := by
  have hrets : ∀ out ∈ (appendAll 0 1024 0 createdA
      [(emptyDisk, [1, 2, 3]), (emptyDisk, [4, 5, 6])]).1, out.isRet = true := by decide +kernel
  refine (pwrite_appends .refl (Prod.eta _).symm createdA_allowed createdA_fd (by decide +kernel)
    (by decide +kernel) (by decide) (fun out hout => (Out.isRet_spec (hrets out hout)).2 _)).mpr ?_
  exact ⟨by decide, by decide, trivial⟩

/-- A full bucket and one byte. -/
def fullThenByte : List (Env × List Byte) :=
  [(emptyDisk, List.replicate dbucketBufSize 1), (emptyDisk, [2])]

/-- The second `pwrite` looks for a bucket behind the last one and returns 0. -/
theorem pwrite_at_boundary_lost :
    ¬ ∀ (s s₀ : Sys) (pid m : Nat) (fd : Int) (env : Env) (pathname : Path) (flags mode : Nat)
      (out : Out) (bufs : List (Env × List Byte)), Run defaultBuild Settled initSys s →
      exec defaultBuild s ⟨pid, env, .open pathname flags mode⟩ = (out, s₀) →
      Settled s ⟨pid, env, .open pathname flags mode⟩ out → UserFd (s₀.view pid) fd m →
      (s.table.mb m).inUse = false → (s₀.table.mb m).s.stSize = 0 → (∀ b ∈ bufs, b.2 ≠ []) →
      (∀ out ∈ (appendAll pid fd m s₀ bufs).1, out ≠ .halt (.exit .dataBucketOverUse)) →
      Appended m [] bufs (appendAll pid fd m s₀ bufs) := by
  intro hall
  have hrets : ∀ out ∈ (appendAll 0 1024 0 createdA fullThenByte).1, out.isRet = true := by
    decide +kernel
  have happ := hall initSys createdA 0 0 1024 emptyDisk pathA 66 0 _ fullThenByte .refl
    (Prod.eta _).symm createdA_allowed createdA_fd (by decide +kernel) (by decide +kernel)
    (by decide) (fun out hout => (Out.isRet_spec (hrets out hout)).2 _)
  have hnums := congrArg (List.map Out.num) happ.1
  exact absurd hnums (by decide +kernel)

end Spacefish
