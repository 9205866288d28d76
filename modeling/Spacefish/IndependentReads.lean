import Spacefish.ReadPositions

/-!
Readers of one file next to each other. As long as nobody else opens the file or
reads data from it, the reads through one descriptor return a prefix of the
content, the same one as when the reader runs alone.
-/

namespace Spacefish

open LinkedArray Program Buffer

variable {rows : Nat → List Int} {ch : Int → List Nat} {env : Env} {pathname : Path}
  {flags mode : Nat} {fd : Int} {l : List Nat} {s s₀ : Sys} {pid pos n : Nat} {c : List Byte}
  {e : Event} {es : List Event} {r : Ret}

theorem SharedReads.sysWf {out : Out} {s' : Sys} (hshared : SharedReads pid fd e out)
    (hexec : exec defaultBuild s e = (out, s')) (hinv : ∃ rows ch, SysWf s rows ch) :
    ∃ rows ch, SysWf s' rows ch := by
  obtain ⟨hcall, hout, _⟩ := hshared
  refine KeepsOpenFiles.sysWf (e := e) ⟨?_, ?_, hout⟩ hexec hinv
  · cases hc : e.call <;> rw [hc] at hcall <;> simp_all [CallOk]
  · intro m _ _ hit
    cases hc : e.call <;> rw [hc] at hcall hit <;> simp_all [Hits]

theorem readsThrough_iff : readsThrough pid fd e = true ↔
    ∃ env count, e = ⟨pid, env, .read fd count⟩ := by
  constructor
  · intro h
    obtain ⟨pid', env, call⟩ := e
    cases call with
    | read fd' count =>
        obtain ⟨rfl, rfl⟩ := of_decide_eq_true h
        exact ⟨env, count, rfl⟩
    | _ => cases h
  · rintro ⟨env, count, rfl⟩
    simp [readsThrough]

theorem asked_read {count : UInt64} :
    asked pid fd (⟨pid, env, .read fd count⟩ :: es) = count.toNat + asked pid fd es := by
  simp [asked, readsThrough]

theorem asked_other (hnot : readsThrough pid fd e = false) :
    asked pid fd (e :: es) = asked pid fd es := by
  rw [asked]
  cases hc : e.call <;> simp [hnot]

/-- Two takes in a row. -/
theorem take_append_take (x : List Byte) (a b : Nat) :
    x.take a ++ (x.drop (x.take a).length).take b = x.take (a + b) := by
  rw [List.take_add, List.length_take]
  by_cases h : a ≤ x.length
  · rw [Nat.min_eq_left h]
  · rw [Nat.min_eq_right (by omega), List.drop_length, List.drop_of_length_le (by omega)]

/-- The events of an interleaving that leave the reader's position alone. -/
def Undisturbing (pid : Nat) (fd : Int) (n : Nat) (s : Sys) (e : Event) (out : Out) : Prop :=
  SharedReads pid fd e out ∧ Undisturbed pid fd n s e

theorem Reading.delivered_eq (hr : Reading s pid fd n l c pos)
    (hinv : ∃ rows ch, SysWf s rows ch)
    (hes : Along defaultBuild (Undisturbing pid fd n) s es) :
    delivered pid fd s es = (c.drop pos).take (asked pid fd es) := by
  induction es generalizing s pos with
  | nil => rfl
  | cons e es ih =>
      obtain ⟨⟨hshared, hundist⟩, hrest⟩ := hes
      obtain ⟨rows, ch, hwf⟩ := hinv
      have hinv' : ∃ rows ch, SysWf (exec defaultBuild s e).2 rows ch :=
        hshared.sysWf rfl ⟨rows, ch, hwf⟩
      cases hthrough : readsThrough pid fd e with
      | false =>
          have hr' := hr.other hwf hshared hundist hthrough
          rw [delivered, hthrough, if_neg (by simp), List.nil_append, ih hr' hinv' hrest,
            asked_other hthrough]
      | true =>
          obtain ⟨env, count, rfl⟩ := readsThrough_iff.mp hthrough
          obtain ⟨_, hdata, hr'⟩ := hr.read env count hwf (hr.nonempty hwf (hshared.2.2 rfl))
          rw [delivered, hthrough, if_pos rfl, hdata, ih hr' hinv' hrest, asked_read,
            ← take_append_take, ← List.drop_drop]

/-- In such an interleaving the reader only reads if its file has data. -/
theorem Reading.nonempty_of_along (hr : Reading s pid fd n l c pos)
    (hinv : ∃ rows ch, SysWf s rows ch)
    (hes : Along defaultBuild (Undisturbing pid fd n) s es) :
    l ≠ [] ∨ es.filter (readsThrough pid fd) = [] := by
  induction es generalizing s pos with
  | nil => exact Or.inr rfl
  | cons e es ih =>
      obtain ⟨⟨hshared, hundist⟩, hrest⟩ := hes
      obtain ⟨rows, ch, hwf⟩ := hinv
      have hinv' : ∃ rows ch, SysWf (exec defaultBuild s e).2 rows ch :=
        hshared.sysWf rfl ⟨rows, ch, hwf⟩
      cases hthrough : readsThrough pid fd e with
      | false =>
          rw [List.filter_cons, hthrough, if_neg (by simp)]
          exact ih (hr.other hwf hshared hundist hthrough) hinv' hrest
      | true =>
          obtain ⟨env, count, rfl⟩ := readsThrough_iff.mp hthrough
          exact Or.inl (hr.nonempty hwf (hshared.2.2 rfl))

/-- The reader alone. -/
theorem Reading.alone (hr : Reading s pid fd n l c pos) (hinv : ∃ rows ch, SysWf s rows ch)
    (hl : l ≠ []) :
    delivered pid fd s (es.filter (readsThrough pid fd)) =
      (c.drop pos).take (asked pid fd es) := by
  induction es generalizing s pos with
  | nil => rfl
  | cons e es ih =>
      cases hthrough : readsThrough pid fd e with
      | false =>
          rw [List.filter_cons, hthrough, if_neg (by simp), ih hr hinv, asked_other hthrough]
      | true =>
          obtain ⟨env, count, rfl⟩ := readsThrough_iff.mp hthrough
          obtain ⟨rows, ch, hwf⟩ := hinv
          obtain ⟨hret, hdata, hr'⟩ := hr.read env count hwf hl
          have hshared : SharedReads pid fd ⟨pid, env, .read fd count⟩
              (exec defaultBuild s ⟨pid, env, .read fd count⟩).1 :=
            ⟨trivial, hret.orExits, fun _ => hret⟩
          have hinv' := hshared.sysWf rfl ⟨rows, ch, hwf⟩
          rw [List.filter_cons, hthrough, if_pos rfl, delivered, hthrough, if_pos rfl, hdata,
            ih hr' hinv', asked_read, ← take_append_take, ← List.drop_drop]

/-- A file whose cursor stands at the first bucket is read from position 0. -/
theorem Reading.start (hu : UserFd (s.view pid) fd n)
    (hlinked : Linked s.data.next noIx (s.table.mb n).firstDbucket (fileChain s n))
    (hlast : (s.table.mb n).lastDbucket = (s.table.mb n).firstDbucket)
    (hoff : (s.table.mb n).lastDbOffset = 0) :
    Reading s pid fd n (fileChain s n) (content s.data (fileChain s n)) 0 := by
  refine ⟨hu, rfl, rfl, fun hnil => ?_, fun hne => ?_⟩
  · rw [hnil] at hlinked
    exact hlast.trans hlinked
  · cases hl : fileChain s n with
    | nil => exact absurd hl hne
    | cons b l =>
        rw [hl] at hlinked
        refine ⟨[], l, ?_, ?_⟩
        · rw [hlast.trans hlinked.1]
          rfl
        · rw [hoff]
          rfl

/-- An `open` that returned a descriptor leaves its file at position 0. -/
theorem SysWf.open_reading (hinv : SysWf s rows ch) (hexcl : exclusivePath pathname = false)
    (happ : hasFlag flags oAppend = false)
    (hopen : (exec defaultBuild s ⟨pid, env, .open pathname flags mode⟩).1 = .ret r)
    (hfd : 0 ≤ r.ret) :
    ∃ s' n l, (exec defaultBuild s ⟨pid, env, .open pathname flags mode⟩).2 = s' ∧
      (s'.fds pid r.ret.toNat).mindex = n ∧ (∃ rows' ch', SysWf s' rows' ch') ∧
      Reading s' pid r.ret n l (content s'.data (fileChain s' n)) 0 := by
  have hview : StoreWf ((s.view pid).store rows ch) := hinv.store
  have hends := @sysOpen_ends (s.view pid) rows ch env defaultBuild rfl rfl hview pathname flags mode
  have hkeeps : KeepsOpenFiles s ⟨pid, env, .open pathname flags mode⟩
      (exec defaultBuild s ⟨pid, env, .open pathname flags mode⟩).1 := by
    refine ⟨fun h => ?_, fun _ _ _ => id, ?_⟩
    · rw [happ] at h
      cases h
    · rw [hopen]
      exact trivial
  obtain ⟨rows', ch', hwf⟩ := hkeeps.sysWf rfl ⟨rows, ch, hinv⟩
  simp only [exec, callOp] at hopen hwf ⊢
  cases hrun : sysOpen defaultBuild env pathname flags mode (s.view pid) with
  | error x w' =>
      rw [hrun] at hopen
      cases hopen
  | ok r' w' =>
      rw [hrun] at hopen hends hwf
      obtain rfl : r' = r := Out.ret.inj hopen
      have hret : OpenRet env pathname flags rows ch (s.view pid) r' w' := hends
      have hneg : r'.ret ≠ -1 := by omega
      cases hret with
      | forwarded hyes _ _ _ =>
          rw [hexcl] at hyes
          cases hyes
      | tooLong _ hret _ => exact absurd hret hneg
      | failed _ _ _ hret _ => exact absurd hret hneg
      | @opened _ w₁ p m _ hlen hpath hres he hdata hslot =>
          rcases hslot with ⟨rfl, _⟩ | ⟨i, rfl, hslot⟩
          · exact absurd rfl hneg
          · obtain ⟨hpos, huse⟩ : 0 ≤ m ∧ (w'.table.mb m).inUse = true := by
              obtain ⟨_, _, heff⟩ := @Resolved.effect _ _ _ rows ch env pathname p flags mode m
                hview hres he hdata
              exact ⟨heff.2.1, heff.2.2.1⟩
            have hidx : ((m.toNat : Nat) : Int) = m := Int.toNat_of_nonneg hpos
            have hfds : (s.put pid w').fds pid i = w'.fdTable i := by simp [Sys.put]
            have hfree : (s.fds pid i).empty = true := by
              have := hslot.free
              rwa [hres.fds] at this
            have hexcl' : (w'.fdTable i).exclusive = false := by
              rw [hslot.self, hres.fds]
              exact (hinv.slots pid i).kernel hslot.low hfree
            have hlast : (w'.table.mb m).lastDbucket = (w'.table.mb m).firstDbucket :=
              he.last.trans (he.first rfl _).symm
            have hoff : (w'.table.mb m).lastDbOffset = 0 := he.off
            have huse' : ((s.put pid w').table.mb (m.toNat : Nat)).inUse = true := by
              rw [hidx]
              exact huse
            have hlinked : Linked (s.put pid w').data.next noIx
                ((s.put pid w').table.mb (m.toNat : Nat)).firstDbucket
                (fileChain (s.put pid w') (m.toNat : Nat)) :=
              hwf.store.toLinkWf.fileChain_linked huse'
            have hu : UserFd ((s.put pid w').view pid) (i : Int) m.toNat := by
              have hentry : ((s.put pid w').view pid).fdTable (Int.toNat i) = w'.fdTable i := hfds
              refine ⟨Int.natCast_nonneg i, Int.ofNat_lt.mpr hslot.high, ?_, ?_, ?_⟩
              · rw [hentry]
                exact hexcl'
              · rw [hentry, hslot.self]
              · rw [hentry, hslot.self]
            refine ⟨s.put pid w', m.toNat, fileChain (s.put pid w') (m.toNat : Nat), rfl, ?_,
              ⟨rows', ch', hwf⟩, .start hu hlinked ?_ ?_⟩
            · rw [Int.toNat_natCast, hfds, hslot.self]
            · rw [hidx]
              exact hlast
            · rw [hidx]
              exact hoff

/-- What a reader gets while nobody else opens its file or reads data from it: a
prefix of the content, the one it gets alone. -/
theorem reads_independent (hreach : Run defaultBuild KeepsOpenFiles initSys s₀)
    (hexcl : exclusivePath pathname = false) (happ : hasFlag flags oAppend = false)
    (hopen : exec defaultBuild s₀ ⟨pid, env, .open pathname flags mode⟩ = (.ret r, s))
    (hfd : 0 ≤ r.ret)
    (hes : Along defaultBuild
      (Undisturbing pid r.ret (s.fds pid r.ret.toNat).mindex) s es) :
    delivered pid r.ret s es =
        delivered pid r.ret s (es.filter (readsThrough pid r.ret)) ∧
      delivered pid r.ret s es =
        (content s.data (fileChain s (s.fds pid r.ret.toNat).mindex)).take
          (asked pid r.ret es) := by
  obtain ⟨rows, ch, hwf⟩ := run_sysWf hreach
  obtain ⟨s', n, l, hs, hidx, hinv, hr⟩ := hwf.open_reading (s := s₀) hexcl happ
    (congrArg Prod.fst hopen) hfd
  obtain rfl : s' = s := hs.symm.trans (congrArg Prod.snd hopen)
  rw [hidx] at hes ⊢
  have hdel := hr.delivered_eq hinv hes
  rw [List.drop_zero] at hdel
  refine ⟨?_, hdel⟩
  rcases hr.nonempty_of_along hinv hes with hl | hnil
  · rw [hr.alone hinv hl, List.drop_zero, hdel]
  · have hnone : ∀ es : List Event, es.filter (readsThrough pid r.ret) = [] →
        asked pid r.ret es = 0 := by
      intro es
      induction es with
      | nil => exact fun _ => rfl
      | cons e es ih =>
          intro h
          rw [List.filter_eq_nil_iff] at h
          have hnot : readsThrough pid r.ret e = false := by simpa using h e (by simp)
          rw [asked_other hnot]
          exact ih (List.filter_eq_nil_iff.mpr (fun a ha => h a (by simp [ha])))
    rw [hdel, hnil, hnone es hnil]
    rfl

/-- The second process has opened the file of three bytes. -/
def readerOpened : Sys := (exec defaultBuild threeBytes ⟨1, emptyDisk, .open pathA 2 0⟩).2

/-- Two reads of the second process, with a `close` of the first one in between. -/
def twoReads : List Event :=
  [⟨1, emptyDisk, .read 1024 2⟩, ⟨0, emptyDisk, .close 1024⟩, ⟨1, emptyDisk, .read 1024 5⟩]

theorem reads_independent_two :
    delivered 1 1024 readerOpened twoReads =
        delivered 1 1024 readerOpened (twoReads.filter (readsThrough 1 1024)) ∧
      delivered 1 1024 readerOpened twoReads =
        (content readerOpened.data (fileChain readerOpened
          (readerOpened.fds 1 1024).mindex)).take (asked 1 1024 twoReads) := by
  have hopen : (exec defaultBuild threeBytes ⟨1, emptyDisk, .open pathA 2 0⟩).1.isRet = true := by
    decide +kernel
  obtain ⟨r, hr⟩ := Out.ret_of_isRet hopen
  have hnum : (exec defaultBuild threeBytes ⟨1, emptyDisk, .open pathA 2 0⟩).1.num = 1024 := by
    decide +kernel
  have hfd : r.ret = 1024 := by
    rw [hr] at hnum
    exact hnum
  have hrets : ∀ out ∈ outs defaultBuild readerOpened twoReads, out.isRet = true := by
    decide +kernel
  have halong : Along defaultBuild (Undisturbing 1 1024 (readerOpened.fds 1 1024).mindex)
      readerOpened twoReads := by
    refine along_of_returns hrets (fun e he s out hret => ?_)
    have hout := Out.returns_of_isRet hret
    simp only [twoReads, List.mem_cons, List.not_mem_nil, or_false] at he
    rcases he with rfl | rfl | rfl
    · exact ⟨⟨trivial, hout.orExits, fun _ => hout⟩, fun hnot => by simp [readsThrough] at hnot⟩
    · exact ⟨⟨fun h => absurd h (by decide), hout.orExits, fun _ => hout⟩, trivial⟩
    · exact ⟨⟨trivial, hout.orExits, fun _ => hout⟩, fun hnot => by simp [readsThrough] at hnot⟩
  have hexec : exec defaultBuild threeBytes ⟨1, emptyDisk, .open pathA 2 0⟩ =
      (.ret r, readerOpened) := Prod.ext hr rfl
  have h := @reads_independent emptyDisk pathA 2 0 readerOpened threeBytes 1 twoReads r
    threeBytes_reached (by decide) (by decide) hexec (by omega)
  rw [hfd] at h
  exact h halong

/-- A third process opens the file and reads it to the end before the second one
reads. -/
def thirdReader : List Event :=
  [⟨2, emptyDisk, .open pathA 0 0⟩, ⟨2, emptyDisk, .read 1024 3⟩, ⟨1, emptyDisk, .read 1024 3⟩]

/-- The second process then gets nothing, and alone it gets the whole file. -/
theorem third_reader_takes_data :
    Run defaultBuild KeepsOpenFiles initSys threeBytes ∧
      (exec defaultBuild threeBytes ⟨1, emptyDisk, .open pathA 2 0⟩).1.num = 1024 ∧
      Along defaultBuild (fun _ e out => SharedReads 1 1024 e out) readerOpened thirdReader ∧
      delivered 1 1024 readerOpened thirdReader = [] ∧
      delivered 1 1024 readerOpened (thirdReader.filter (readsThrough 1 1024)) = [1, 2, 3] := by
  have hrets : ∀ out ∈ outs defaultBuild readerOpened thirdReader, out.isRet = true := by
    decide +kernel
  refine ⟨threeBytes_reached, by decide +kernel, along_of_returns hrets ?_, by decide +kernel,
    by decide +kernel⟩
  intro e he s out hret
  have hout := Out.returns_of_isRet hret
  simp only [thirdReader, List.mem_cons, List.not_mem_nil, or_false] at he
  rcases he with rfl | rfl | rfl
  · exact ⟨⟨by decide, by decide⟩, hout.orExits, fun _ => hout⟩
  · exact ⟨trivial, hout.orExits, fun _ => hout⟩
  · exact ⟨trivial, hout.orExits, fun _ => hout⟩

end Spacefish
