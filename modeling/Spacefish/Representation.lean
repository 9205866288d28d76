import Spacefish.Sizes

/-!
The representation of files in the store. In every state that a run reaches,
the chains are finite, in use and disjoint, sizes and byte counts agree, the
cursor of every open file lies on its chain, and free buckets are clean.
-/

namespace Spacefish

open LinkedArray Program Buffer

/-- The buckets met on the way from `i` to the end marker, at most `n` of them. -/
def chainFrom (d : DataShm) : Nat → Nat → List Nat
  | 0, _ => []
  | n + 1, i => if i = noIx then [] else i :: chainFrom d n (d.next i)

/-- The data chain of a file, from `first_dbucket` along `next_ix`. -/
def fileChain (s : Sys) (m : Int) : List Nat :=
  chainFrom s.data walkFuel (s.table.mb m).firstDbucket

structure Represented (s : Sys) : Prop where
  chain : ∀ m, (s.table.mb m).inUse = true →
    Linked s.data.next noIx (s.table.mb m).firstDbucket (fileChain s m) ∧ (fileChain s m).Nodup
  inUse : ∀ m, (s.table.mb m).inUse = true → ∀ b ∈ fileChain s m,
    b < totBuckets ∧ (s.data.bucket b).inUse = true
  apart : ∀ m m', (s.table.mb m).inUse = true → (s.table.mb m').inUse = true → m ≠ m' →
    List.Disjoint (fileChain s m) (fileChain s m')
  bytes : ∀ b, (s.data.bucket b).bytes ≤ dbucketBufSize
  size : ∀ m, (s.table.mb m).inUse = true →
    (s.table.mb m).s.stSize = total s.data (fileChain s m)
  cursor : ∀ m, Held s m → (s.table.mb m).lastDbucket ∈ fileChain s m ∧
    0 ≤ (s.table.mb m).lastDbOffset ∧
    (s.table.mb m).lastDbOffset ≤ (s.data.bucket (s.table.mb m).lastDbucket).bytes
  free : ∀ b, (s.data.bucket b).inUse = false →
    (s.data.bucket b).nextIx = noIx ∧ (s.data.bucket b).bytes = 0

variable {w : World} {s s' : Sys} {rows rows' : Nat → List Int} {ch ch' : Int → List Nat}
  {env : Env} {call : Call} {done : Bool} {st : Store} {e : Event} {out : Out} {m : Int}
  {d : DataShm} {i n : Nat} {l : List Nat}

theorem chainFrom_eq (hl : Linked d.next noIx i l) (hlen : l.length < n) :
    chainFrom d n i = l := by
  induction l generalizing i n with
  | nil =>
      obtain rfl : i = noIx := hl
      obtain ⟨n, rfl⟩ : ∃ k, n = k + 1 := ⟨n - 1, by omega⟩
      simp [chainFrom]
  | cons b l ih =>
      obtain ⟨rfl, hb, htail⟩ := hl
      obtain ⟨n, rfl⟩ : ∃ k, n = k + 1 := ⟨n - 1, by omega⟩
      rw [chainFrom, if_neg hb, ih htail (by simpa using hlen)]

/-- The chain of a file whose links are as they were. -/
theorem fileChain_same (hl : Linked s.data.next noIx (s.table.mb m).firstDbucket l)
    (hown : ∀ c ∈ l, c < totBuckets)
    (hfirst : (s'.table.mb m).firstDbucket = (s.table.mb m).firstDbucket)
    (hnext : ∀ c ∈ l, s'.data.next c = s.data.next c) : fileChain s' m = fileChain s m := by
  have hlen : l.length < walkFuel :=
    Nat.lt_succ_of_le (length_le_totBuckets (Linked.nodup hl) hown)
  have hold : fileChain s m = l := chainFrom_eq hl hlen
  rw [hold]
  refine chainFrom_eq ?_ hlen
  rw [hfirst]
  exact hl.congr hnext

theorem LinkWf.fileChain_eq (wf : LinkWf (s.store rows ch)) (huse : (s.table.mb m).inUse = true) :
    fileChain s m = ch m := by
  have hlen : (ch m).length ≤ totBuckets :=
    length_le_totBuckets (wf.nodup huse) (fun b hb => (wf.owned m huse b hb).1)
  exact chainFrom_eq (wf.linked m huse) (Nat.lt_succ_of_le hlen)

theorem LinkWf.fileChain_linked (wf : LinkWf (s.store rows ch))
    (huse : (s.table.mb m).inUse = true) :
    Linked s.data.next noIx (s.table.mb m).firstDbucket (fileChain s m) := by
  rw [wf.fileChain_eq huse]
  exact wf.linked m huse

/-- A descriptor that is open after a call was open before it, or the call has
just opened it. -/
theorem FdEffect.origin {r : Ret} {fds' : Nat → FdInfo} (hfd : FdEffect w ch env st call r fds')
    (hopen : (fds' i).empty = false) (hexcl : (fds' i).exclusive = false) :
    ((w.fdTable i).empty = false ∧ (w.fdTable i).exclusive = false ∧
      (fds' i).mindex = (w.fdTable i).mindex) ∨
    ∃ m : Int, 0 ≤ m ∧ (fds' i).mindex = m.toNat ∧ st.Used m ∧
      (st.table.mb m).lastDbucket = (st.table.mb m).firstDbucket := by
  cases hfd with
  | same => exact Or.inl ⟨hopen, hexcl, rfl⟩
  | @next _ _ fd m _ hu hnext =>
      by_cases hi : i = fd.toNat
      · subst hi
        have hself := hnext.self
        exact Or.inl ⟨hself.empty.symm.trans hopen, hself.exclusive.symm.trans hexcl, hself.mindex⟩
      · rw [hnext.other i hi] at hopen hexcl ⊢
        exact Or.inl ⟨hopen, hexcl, rfl⟩
  | @opened pathname p flags mode j m _ hpath hslot hpos hused hstart hname =>
      by_cases hi : i = j
      · subst hi
        exact Or.inr ⟨m, hpos, by rw [hslot.self], hused, hstart⟩
      · rw [hslot.other i hi] at hopen hexcl ⊢
        exact Or.inl ⟨hopen, hexcl, rfl⟩
  | forwarded hfwd =>
      rcases hfwd with rfl | ⟨j, rfl⟩
      · exact Or.inl ⟨hopen, hexcl, rfl⟩
      · by_cases hi : i = j
        · subst hi
          rw [Function.update_self] at hexcl
          cases hexcl
        · rw [Function.update_of_ne hi] at hopen hexcl ⊢
          exact Or.inl ⟨hopen, hexcl, rfl⟩
  | @closed fd _ =>
      by_cases hi : i = fd.toNat
      · subst hi
        rw [Function.update_self] at hopen
        cases hopen
      · rw [Function.update_of_ne hi] at hopen hexcl ⊢
        exact Or.inl ⟨hopen, hexcl, rfl⟩

/-- A fresh descriptor table has no descriptor of the store. -/
theorem initFd_not_open (i : Nat) (hopen : (initFd i).empty = false) :
    (initFd i).exclusive = true := by
  simp only [initFd, Bool.not_eq_false', decide_eq_true_eq] at hopen ⊢
  unfold firstUserFd
  omega

/-- A file that a descriptor refers to after an event was referred to before it,
or was just opened, with its cursor at the start. -/
theorem SysStep.held (hstep : SysStep s e out rows ch done s' rows' ch') (hheld : Held s' m) :
    Held s m ∨ ((s'.table.mb m).inUse = true ∧
      (s'.table.mb m).lastDbucket = (s'.table.mb m).firstDbucket) := by
  obtain ⟨pid, i, hopen, hexcl, hidx⟩ := hheld
  by_cases hpid : pid = e.pid
  · subst hpid
    cases out with
    | ret r =>
        rcases (hstep.fds r rfl).origin hopen hexcl with ⟨h₁, h₂, h₃⟩ | ⟨a, hpos, ha, hused, hstart⟩
        · exact Or.inl ⟨e.pid, i, h₁, h₂, by rw [← hidx, h₃]; rfl⟩
        · obtain rfl : a = m := by
            rw [← hidx, ha]
            omega
          exact Or.inr ⟨hused, hstart⟩
    | halt h =>
        rw [hstep.died h rfl] at hopen hexcl
        rw [show initFdTable i = initFd i from rfl] at hopen hexcl
        rw [initFd_not_open i hopen] at hexcl
        cases hexcl
  · rw [hstep.other pid hpid] at hopen hexcl hidx
    exact Or.inl ⟨pid, i, hopen, hexcl, hidx⟩

/-- The invariant behind the representation. -/
structure RepInv (s : Sys) (rows : Nat → List Int) (ch : Int → List Nat) : Prop where
  wf : SysWf s rows ch
  sized : Sized (s.store rows ch)
  live : Live (s.store rows ch)
  placed : ∀ m, Held s m → (s.table.mb m).lastDbucket ≠ noIx

theorem SysWf.held_used (hwf : SysWf s rows ch) (hheld : Held s m) :
    (s.table.mb m).inUse = true := by
  obtain ⟨pid, i, hopen, hexcl, rfl⟩ := hheld
  exact (hwf.slots pid i).used hopen hexcl

theorem SysStep.repInv (hstep : SysStep s e out rows ch true s' rows' ch')
    (hinv : RepInv s rows ch) (hspares : Spares s e) : RepInv s' rows' ch' := by
  have heff := hstep.effect
  have hwf' := hstep.sysWf hinv.wf hspares
  have hlive' : Live (s'.store rows' ch') := heff.live hinv.live
  refine ⟨hwf', heff.sized hinv.wf.store hinv.sized, hlive', ?_⟩
  intro m hheld
  rcases hstep.held hheld with hbefore | ⟨huse, hstart⟩
  · have huse := hinv.wf.held_used hbefore
    exact heff.placed hinv.wf.store (hinv.live m huse) huse (hwf'.held_used hheld)
      (hinv.placed m hbefore)
  · rw [hstart]
    have hfirst : (s'.table.mb m).firstDbucket = (ch' m).head?.getD noIx :=
      (hwf'.store.linked m huse).head_eq
    intro hnil
    cases hl : ch' m with
    | nil => exact hlive' m huse hl
    | cons b l =>
        rw [hl] at hfirst
        exact (hwf'.store.owned m huse b (by change b ∈ ch' m; rw [hl]; simp)).ne_noIx
          (hfirst.symm.trans hnil)

theorem RepInv.represented (hinv : RepInv s rows ch) : Represented s := by
  have wf := hinv.wf.store
  have hch : ∀ m, (s.table.mb m).inUse = true → fileChain s m = ch m :=
    fun m huse => wf.toLinkWf.fileChain_eq huse
  refine ⟨?_, ?_, ?_, wf.bytes_le, ?_, ?_, fun b hb => ⟨wf.links.fresh b hb, wf.empty b hb⟩⟩
  · intro m huse
    rw [hch m huse]
    exact ⟨wf.linked m huse, wf.nodup huse⟩
  · intro m huse
    rw [hch m huse]
    exact wf.owned m huse
  · intro m m' huse huse' hne b hb hb'
    rw [hch m huse] at hb
    rw [hch m' huse'] at hb'
    exact hne (wf.apart m m' huse huse' b hb hb')
  · intro m huse
    rw [hch m huse]
    exact hinv.sized m huse
  · intro m hheld
    have huse := hinv.wf.held_used hheld
    have hne := hinv.placed m hheld
    rw [hch m huse]
    rcases wf.onChain m huse with hnil | hmem
    · exact absurd hnil hne
    · exact ⟨hmem, wf.inBucket m huse hne⟩

/-- The calls of the runs below, one at a time: an `open` without `O_APPEND`,
`close`, `read`, `write`, `pread` and `pwrite` with an offset that is not
negative, and an `unlink` of a file that no descriptor refers to; uploads are
complete and the data buckets are not exhausted. -/
def RepAllowed (s : Sys) (e : Event) (out : Out) : Prop :=
  (match e.call with
    | .open _ flags _ => hasFlag flags oAppend = false
    | .pread _ _ offset => 0 ≤ offset
    | .pwrite _ _ offset => 0 ≤ offset
    | .unlink _ => Spares s e
    | .rename _ _ => False
    | _ => True) ∧
  ¬ ShortReads e.env e.call ∧ ReturnsOrExits out ∧ out ≠ .halt (.exit .dataBucketOverUse)

theorem RepAllowed.ok (hallow : RepAllowed s e out) : CallOk e.call ∧ Spares s e := by
  obtain ⟨hcall, _⟩ := hallow
  unfold Spares
  cases hc : e.call <;> rw [hc] at hcall <;> simp_all [CallOk, Hits, Spares]

theorem initSys_repInv : RepInv initSys (fun _ => []) (fun _ => []) := by
  refine ⟨initSys_wf, fun m hm => absurd hm Bool.false_ne_true,
    fun m hm => absurd hm Bool.false_ne_true, fun m hheld => ?_⟩
  have := initSys_wf.held_used hheld
  exact absurd this Bool.false_ne_true

theorem repAllowed_step (hinv : ∃ rows ch, RepInv s rows ch) (hallow : RepAllowed s e out)
    (hexec : exec defaultBuild s e = (out, s')) : ∃ rows ch, RepInv s' rows ch := by
  obtain ⟨rows, ch, hinv⟩ := hinv
  obtain ⟨hok, hspares⟩ := hallow.ok
  obtain ⟨_, hshort, hout, hover⟩ := hallow
  obtain ⟨done, rows', ch', hstep⟩ := exec_step hinv.wf hok hexec hout
  cases done with
  | true => exact ⟨rows', ch', hstep.repInv hinv hspares⟩
  | false =>
      rcases hstep.done rfl with hfull | hread
      · exact absurd hfull hover
      · exact absurd hread hshort

/-- Every state that such a run reaches represents its files. -/
theorem run_represented {s : Sys} (hrun : Run defaultBuild RepAllowed initSys s) :
    Represented s := by
  obtain ⟨rows, ch, hinv⟩ := hrun.invariant (P := fun s => ∃ rows ch, RepInv s rows ch)
    ⟨_, _, initSys_repInv⟩ (fun s e out s' hinv hallow hexec => repAllowed_step hinv hallow hexec)
  exact hinv.represented

theorem emptyDisk_complete (c : Call) : ¬ ShortReads emptyDisk c := by
  have hread : ∀ p, ¬ ShortRead emptyDisk p := by
    rintro p ⟨st, hst, _⟩
    cases hst
  cases c with
  | «open» pathname flags mode => exact fun ⟨p, _, hp⟩ => hread p hp
  | upload name => exact hread name
  | _ => exact id

theorem run_represented_created :
    Represented (afterCalls [.open pathA 66 0, .write 1024 [1, 2, 3]]) := by
  have hret : (exec defaultBuild initSys ⟨0, emptyDisk, .open pathA 66 0⟩).1.isRet = true := by
    decide +kernel
  have hret' : (exec defaultBuild (afterCalls [.open pathA 66 0])
      ⟨0, emptyDisk, .write 1024 [1, 2, 3]⟩).1.isRet = true := by
    decide +kernel
  refine run_represented (.tail (.tail .refl ⟨⟨0, emptyDisk, .open pathA 66 0⟩, _, rfl, ?_⟩)
    ⟨⟨0, emptyDisk, .write 1024 [1, 2, 3]⟩, _, rfl, ?_⟩)
  · exact ⟨by decide, emptyDisk_complete _, (Out.isRet_spec hret).1, (Out.isRet_spec hret).2 _⟩
  · exact ⟨trivial, emptyDisk_complete _, (Out.isRet_spec hret').1, (Out.isRet_spec hret').2 _⟩

end Spacefish
