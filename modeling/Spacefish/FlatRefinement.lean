import Spacefish.FlatSteps

/-!
The store refines the flat files: along every run the results of the calls are
the ones of the model, and the states stay related.
-/

namespace Spacefish

open LinkedArray Program Buffer

structure FlatInv (s : Sys) (rows : Nat → List Int) (ch : Int → List Nat) (a : Flat) : Prop where
  rep : RepInv s rows ch
  named : Named s.table rows
  idle : ∀ h, RowIdle s.table h
  tight : AllTight (s.store rows ch)
  sim : Represents s a

variable {s s' : Sys} {rows rows' : Nat → List Int} {ch ch' : Int → List Nat} {a : Flat}
  {pid n : Nat} {fd offset : Int} {env : Env} {count : UInt64} {buf : List Byte} {e : Event}
  {out : Out} {d : DataShm} {pre l : List Nat} {off b : Nat}

/-- The call on file `n`, made in `s`, does what it does on the flat file. -/
def Accesses (s : Sys) (a : Flat) (pid n : Nat) (call : Call) (r : Ret) (w' : World) : Prop :=
  ∃ f f', a.files (s.table.mb n).path = some f ∧ f.access call = some (r, f') ∧
    Represents (s.put pid w') (a.setFile (s.table.mb n).path f')

theorem content_drop_split : (content d (pre ++ l)).drop (total d pre + off) =
    (content d l).drop off := by
  rw [content_append, ← content_length, List.drop_length_add_append]

/-- A bucket has one place in a chain. -/
theorem split_unique {pre' l' : List Nat} (hnodup : (pre ++ b :: l).Nodup)
    (heq : pre ++ b :: l = pre' ++ b :: l') : pre' = pre ∧ l' = l := by
  have h₁ : b ∉ pre := fun hb => (List.nodup_append.mp hnodup).2.2 b hb b (by simp) rfl
  have h₂ : b ∉ l := (List.nodup_cons.mp (List.nodup_append.mp hnodup).2.1).1
  obtain ⟨h₃, _, h₄⟩ := (List.append_cons_inj_of_notMem h₁ h₂).mp heq
  exact ⟨h₃.symm, h₄.symm⟩

theorem FdNext.kept {i : Nat} {fds fds' : Nat → FdInfo} (hf : FdNext l i fds fds') (j : Nat) :
    SlotKept (fds j) (fds' j) := by
  by_cases hj : j = i
  · subst hj
    exact ⟨hf.self.empty, hf.self.exclusive, hf.self.mindex⟩
  · rw [hf.other j hj]
    exact .refl _

theorem put_view (s : Sys) (pid : Nat) : s.put pid (s.view pid) = s := by
  simp [Sys.put, Sys.view]

theorem Flat.setFile_self {p : Path} {f : FlatFile} (hf : a.files p = some f) :
    a.setFile p f = a := by
  rw [Flat.setFile, ← hf, Function.update_eq_self]

theorem FlatInv.store (hinv : FlatInv s rows ch a) (pid : Nat) :
    StoreWf ((s.view pid).store rows ch) := hinv.rep.wf.store

/-- Files whose bytes and chains stay keep their content and size. -/
theorem FileIs.moved {w' : World} {m : Int} {f : FlatFile} {c : Nat} (hf : FileIs s m f)
    (hdata : w'.data = s.data) {g : FileCore → FileCore} (he : Edited s.table w'.table m g)
    (hfirst : ∀ c, (g c).first = c.first) (hsize : ∀ c, (g c).size = c.size)
    (hcur : (w'.table.mb m).lastDbucket ≠ noIx → ∃ pre l,
      fileChain s m = pre ++ (w'.table.mb m).lastDbucket :: l ∧
        total s.data pre + (w'.table.mb m).lastDbOffset.toNat = c) :
    FileIs (s.put pid w') m { f with cursor := c } := by
  have hchain : fileChain (s.put pid w') m = fileChain s m := by
    change chainFrom w'.data walkFuel (w'.table.mb m).firstDbucket = _
    rw [hdata, he.first (hfirst _)]
    rfl
  refine ⟨?_, ?_, ?_⟩
  · rw [hchain]
    change Spacefish.content w'.data _ = _
    rw [hdata]
    exact hf.content
  · exact (he.size.trans (hsize _)).trans hf.size
  · rw [hchain]
    change (w'.table.mb m).lastDbucket ≠ noIx → ∃ pre l,
      fileChain s m = pre ++ (w'.table.mb m).lastDbucket :: l ∧
        total w'.data pre + (w'.table.mb m).lastDbOffset.toNat = c
    rw [hdata]
    exact hcur

section

variable (hinv : FlatInv s rows ch a) (hu : UserFd (s.view pid) fd n)

include hinv hu

theorem FlatInv.user : (s.table.mb n).inUse = true ∧ (s.table.mb n).lastDbucket ≠ noIx ∧
    CacheOk (s.fds pid fd.toNat) (ch n) ∧ fileChain s n = ch n := by
  have hheld : Held s n := ⟨pid, fd.toNat, hu.nonempty, hu.exclusive, by
    exact_mod_cast congrArg (Nat.cast (R := Int)) hu.mindex⟩
  have huse := hinv.rep.wf.held_used hheld
  exact ⟨huse, hinv.rep.placed n hheld, (hu.used (hinv.rep.wf.slots pid _)).2,
    hinv.rep.wf.store.toLinkWf.fileChain_eq huse⟩

theorem FlatInv.read (count : UInt64) :
    Ends (sysRead env fd count (s.view pid)) (Accesses s a pid n (.read fd count))
      (fun _ _ => False) := by
  obtain ⟨huse, hcur, _, hchain⟩ := hinv.user hu
  obtain ⟨f, hfile, his⟩ := hinv.sim.file n huse
  obtain ⟨pre, l, r, hsplit, hoff, hread, hrun⟩ := sysRead_eq (hinv.store pid) hu huse hcur
  rw [hrun, ends_ok]
  obtain ⟨pre', l', hsplit', hpos⟩ := his.cursor hcur
  have hch : ch n = pre ++ (s.table.mb n).lastDbucket :: l := hsplit
  rw [hchain, hch] at hsplit'
  obtain ⟨rfl, rfl⟩ := split_unique (hch ▸ hinv.rep.wf.store.nodup huse) hsplit'
  have hdata : r.data = (f.content.drop f.cursor).take count.toNat := by
    rw [← his.content, ← hpos, hchain, hch, content_drop_split]
    exact hread.data
  refine ⟨f, { f with cursor := f.cursor + r.data.length }, hfile, ?_, ?_⟩
  · simp only [FlatFile.access, ← hdata]
  · by_cases hlen : r.data.length > 0
    · rw [if_pos hlen]
      have he : Edited s.table (afterRead env fd n r (s.view pid)).table n
          (fun c => { c with last := r.dbindex, off := r.off }) := by
        dsimp only [afterRead, World.setFd]
        exact Edited.setMb rfl
      refine hinv.sim.access hinv.rep.represented huse
        (FdNext.stamp (FdNext.refl (ch n) fd.toNat (s.fds pid))).kept he (Seeks.cursor _ _).toStays
        (fun _ => rfl) (fun _ _ _ _ _ => rfl) (his.moved rfl he (fun _ => rfl) (fun _ => rfl) ?_)
      rw [he.last, he.off, hchain, hch]
      intro _
      obtain ⟨l₁, l₂, hl, _, htot⟩ := hread.place
      refine ⟨pre' ++ l₁, l₂, ?_, ?_⟩
      · rw [List.append_assoc]
        exact congrArg _ hl
      · rw [total_append, ← hpos]
        change _ + ((r.off : Nat) : Int).toNat = _
        rw [Int.toNat_natCast]
        change total s.data l₁ + r.off =
          (s.table.mb n).lastDbOffset.toNat + r.data.length at htot
        omega
    · have hzero : r.data.length = 0 := by omega
      rw [if_neg hlen, put_view, hzero, Nat.add_zero, Flat.setFile_self hfile]
      exact hinv.sim

/-- The content of the file after a write that starts inside it. -/
theorem FlatInv.wrote {w' : World} {f : FlatFile} {moves : Bool} {out : WriteOut} {new : List Nat}
    {x c : Nat} (his : FileIs s n f) (hsplit : ch n = pre ++ x :: l)
    (hoff : off ≤ (s.data.bucket x).bytes)
    (hw : WroteFile (s.view pid) w' fd n (ch n) (x :: l) off buf moves out new)
    (hcur : ∃ pre' l', ch n ++ new = pre' ++ (w'.table.mb n).lastDbucket :: l' ∧
      total w'.data pre' + (w'.table.mb n).lastDbOffset.toNat = c) :
    Represents (s.put pid w') (a.setFile (s.table.mb n).path
      ⟨overwrite f.content (total s.data pre + off) buf, c⟩) := by
  obtain ⟨huse, _, _, hchain⟩ := hinv.user hu
  have wf := hinv.rep.wf.store
  have hcopy : Copy s.data (x :: l) off buf w'.data (some out) new := hw.copy
  have he : Edited s.table w'.table n (wroteBy (some out) moves) := hw.table
  have wf' := wf.wrote huse hsplit hcopy he
  have huse' : (w'.table.mb n).inUse = true := (he.inUse (wroteBy_stays _ _) n).trans huse
  have hchain' : fileChain (s.put pid w') n = ch n ++ new := by
    have := LinkWf.fileChain_eq (s := s.put pid w') wf'.toLinkWf huse'
    rwa [Function.update_self] at this
  have hcontent : content w'.data (ch n ++ new) =
      overwrite f.content (total s.data pre + off) buf := by
    rw [← his.content, hchain]
    exact wf.wrote_content huse hsplit hoff hcopy (hinv.tight n huse)
  have hsized := wf.wrote_sized hinv.rep.sized huse hsplit hcopy he n huse'
  simp only [Function.update_self] at hsized
  refine hinv.sim.access hinv.rep.represented huse hw.slots.kept he (wroteBy_stays _ _)
    (wroteBy_path _ _) ?_ ⟨?_, ?_, ?_⟩
  · intro b hb huseb k hk
    rw [wf.toLinkWf.fileChain_eq huseb] at hk
    exact wf.copy_others huse hsplit hcopy huseb hb hk
  · rw [hchain']
    exact hcontent
  · rw [← hcontent, content_length]
    exact hsized
  · rw [hchain']
    exact fun _ => hcur

theorem FlatInv.write (buf : List Byte) :
    Ends (sysWrite defaultBuild env fd buf (s.view pid)) (Accesses s a pid n (.write fd buf))
      (fun e _ => e = .exit .dataBucketOverUse) := by
  obtain ⟨huse, hcur, _, hchain⟩ := hinv.user hu
  obtain ⟨f, hfile, his⟩ := hinv.sim.file n huse
  obtain ⟨pre, l, hsplit, hoff, hends⟩ := sysWrite_ends defaultBuild buf rfl (hinv.store pid) hu
    huse hcur
  have wf := hinv.rep.wf.store
  have hch : ch n = pre ++ (s.table.mb n).lastDbucket :: l := hsplit
  obtain ⟨pre', l', hsplit', hpos⟩ := his.cursor hcur
  rw [hchain, hch] at hsplit'
  obtain ⟨rfl, rfl⟩ := split_unique (hch ▸ wf.nodup huse) hsplit'
  refine hends.mono ?_ (fun _ _ he => he.1)
  rintro r w' ⟨rfl, out, new, hw⟩
  refine ⟨f, _, hfile, rfl, ?_⟩
  rw [← hpos]
  refine hinv.wrote hu his hch hoff hw ?_
  have hcopy : Copy s.data ((s.table.mb n).lastDbucket :: l') (s.table.mb n).lastDbOffset.toNat buf
    w'.data (some out) new := hw.copy
  have hlast : (w'.table.mb n).lastDbucket = _ := hw.table.last
  have hoff' : (w'.table.mb n).lastDbOffset = _ := hw.table.off
  have hbefore : total w'.data pre' = total s.data pre' :=
    total_congr (fun b hb => congrArg DataBucket.bytes (wf.copy_before huse hch hcopy hb))
  rw [hlast, hoff']
  by_cases hlen : 0 < buf.length
  · obtain ⟨hnodup, hown⟩ := wf.suffix_nodup huse hch
    obtain ⟨l₁, l₂, hl, hfull, _, hend⟩ := hcopy.cursor rfl wf.data hnodup hown
    refine ⟨pre' ++ l₁, l₂, ?_, ?_⟩
    · rw [hch, List.append_assoc, List.append_assoc, hl]
      simp [wroteCore, hlen]
    · rw [total_append, hbefore, total_of_full hfull]
      simp only [wroteCore, hlen, decide_true, if_true, Int.toNat_natCast]
      omega
  · obtain rfl : buf = [] := by simpa using hlen
    refine ⟨pre', l' ++ new, ?_, ?_⟩
    · rw [hch, List.append_assoc]
      rfl
    · rw [hbefore]
      rfl

theorem FlatInv.pread (count : UInt64) (hoff : 0 ≤ offset)
    (hin : offset ≤ (s.table.mb n).s.stSize) :
    Ends (sysPread defaultBuild env fd count offset (s.view pid))
      (Accesses s a pid n (.pread fd count offset)) (fun _ _ => False) := by
  obtain ⟨huse, _, hcache, hchain⟩ := hinv.user hu
  obtain ⟨f, hfile, his⟩ := hinv.sim.file n huse
  have wf := hinv.rep.wf.store
  have hsize : (s.table.mb n).s.stSize = total s.data (ch n) := hinv.rep.sized n huse
  have hlt : total s.data (ch n) < 2 ^ 32 := wf.total_lt huse
  have hplace : ∀ {pre l : List Nat} {b : Nat}, ch n = pre ++ b :: l → pre.length = hops offset →
      total s.data pre + within offset = offset.toNat ∧ within offset ≤ (s.data.bucket b).bytes := by
    intro pre l b hsplit hlen
    have ht : Tight s.data (pre ++ b :: l) := hsplit ▸ hinv.tight n huse
    exact ht.place hlen hoff (by omega) (by rw [← hsplit]; omega)
  refine (sysPread_ends (hinv.store pid) hu huse hcache hoff).mono ?_ ?_
  · rintro r w' ⟨htab, hdata, hfds, hr, hpd⟩
    have htab' : w'.table = s.table := htab
    have hdata' : w'.data = s.data := hdata
    refine ⟨f, f, hfile, ?_, ?_⟩
    · have hdone : r.data = (f.content.drop offset.toNat).take count.toNat := by
        rw [← his.content, hchain]
        generalize r.data = data at hpd
        cases hpd with
        | short hlen =>
            have hle := total_le_of_short wf.bytes_le hoff hlen
            rw [List.drop_eq_nil_of_le (by rw [content_length]; exact hle), List.take_nil]
        | inside hsplit hlen _ =>
            rw [hsplit, ← (hplace hsplit hlen).1, content_drop_split]
            rfl
        | past hsplit hlen hpast _ _ =>
            have := (hplace hsplit hlen).2
            change (s.data.bucket _).bytes < _ at hpast
            omega
      rw [hr, FlatFile.access, ← hdone]
    · have he : Edited s.table w'.table n id := htab' ▸ .refl _ _
      refine hinv.sim.access hinv.rep.represented huse hfds.kept he .id (fun _ => rfl)
        (fun _ _ _ _ _ => by rw [hdata'])
        (his.moved hdata' he (fun _ => rfl) (fun _ => rfl) ?_)
      rw [htab']
      exact his.cursor
  · rintro e w' ⟨_, _, _, pre, b, l, hsplit, hlen, hpast, _⟩
    have := (hplace hsplit hlen).2
    change (s.data.bucket _).bytes < _ at hpast
    omega

theorem FlatInv.pwrite (buf : List Byte) (hoff : 0 ≤ offset)
    (hin : offset < (s.table.mb n).s.stSize) :
    Ends (sysPwrite defaultBuild env fd buf offset (s.view pid))
      (Accesses s a pid n (.pwrite fd buf offset)) (fun e _ => e = .exit .dataBucketOverUse) := by
  obtain ⟨huse, hcur, hcache, hchain⟩ := hinv.user hu
  obtain ⟨f, hfile, his⟩ := hinv.sim.file n huse
  have wf := hinv.rep.wf.store
  have hsize : (s.table.mb n).s.stSize = total s.data (ch n) := hinv.rep.sized n huse
  have hlt : total s.data (ch n) < 2 ^ 32 := wf.total_lt huse
  refine (sysPwrite_ends rfl (hinv.store pid).toLinkWf hu huse hcache hoff).mono ?_
    (fun _ _ he => he.1)
  rintro r w' (⟨hlen, _⟩ | ⟨pre, b, l, out, new, hsplit, hlen, rfl, hw⟩)
  · have hle : total s.data (ch n) ≤ _ := total_le_of_short wf.bytes_le hoff hlen
    omega
  · have ht : Tight s.data (pre ++ b :: l) := hsplit ▸ hinv.tight n huse
    obtain ⟨hpos, hle⟩ := ht.place hlen hoff (by omega) (by rw [← hsplit]; omega)
    refine ⟨f, ⟨_, f.cursor⟩, hfile, rfl, ?_⟩
    rw [← hpos]
    refine hinv.wrote hu his hsplit hle hw ?_
    have hcopy : Copy s.data (b :: l) (within offset) buf w'.data (some out) new := hw.copy
    have hlast : (w'.table.mb n).lastDbucket = (s.table.mb n).lastDbucket := hw.table.last
    have hoff' : (w'.table.mb n).lastDbOffset = (s.table.mb n).lastDbOffset := hw.table.off
    obtain ⟨pre', l', hsplit', hcursor⟩ := his.cursor hcur
    rw [hchain] at hsplit'
    rw [hlast, hoff', ← hcursor, hsplit']
    refine ⟨pre', l' ++ new, by simp, ?_⟩
    -- the buckets before the cursor are full before and after the write
    have ht₁ : Tight s.data (pre' ++ (s.table.mb n).lastDbucket :: l') := hsplit' ▸ hinv.tight n huse
    have ht₂ : Tight w'.data (pre' ++ (s.table.mb n).lastDbucket :: (l' ++ new)) := by
      have := wf.wrote_tight huse hsplit hcopy (hinv.tight n huse)
      rw [show (s.store rows ch).ch n = _ from hsplit'] at this
      simpa using this
    rw [total_of_full ht₂.full_before, total_of_full ht₁.full_before]

end

end Spacefish
