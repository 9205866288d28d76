import Spacefish.OffsetCalls

/-!
Making a file: `create_new_file` and `upload_file` from a well-formed store. A
file that is made completely has a fresh first bucket into which the data was
copied; the failures leave a meta bucket without data, or with a part of it.
-/

namespace Spacefish

open LinkedArray Program Buffer

/-- The meta bucket `m` was made for the path `p` in row `h` and then edited by
`f`. -/
structure NewFile (w : World) (rows : Nat → List Int) (p : Path) (h : Nat) (m : Int)
    (f : FileCore → FileCore) (w' : World) : Prop where
  hashed : hash p = .ok h
  absent : findPath w.table p (rows h) = none
  edited : ∃ t₁, Created w.table t₁ rows h m ∧ Edited t₁ w'.table m f
  fds : w'.fdTable = w.fdTable

def filledCore (p : Path) (ix n : Nat) (c : FileCore) : FileCore :=
  { c with path := p, first := ix, size := n }

/-- A new file that holds `buf`. -/
structure Filled (w : World) (rows : Nat → List Int) (p : Path) (buf : List Byte) (h : Nat)
    (m : Int) (ix : Nat) (new : List Nat) (r : Option WriteOut) (w' : World) : Prop where
  file : NewFile w rows p h m (filledCore p ix buf.length) w'
  short : p.length < pathMax
  bound : ix < totBuckets
  free : (w.data.bucket ix).inUse = false
  copy : Copy (w.data.take ix) [ix] 0 buf w'.data r new

/-- A file left without data. -/
def Bare (w : World) (rows : Nat → List Int) (w' : World) : Prop :=
  ∃ p h m f, NewFile w rows p h m f w' ∧ Stays f ∧
    (∀ c, (f c).first = c.first ∧ (f c).last = c.last ∧ (f c).off = c.off) ∧ w'.data = w.data

/-- What remains of a call that ended early while it made a file. -/
def Spoiled (w : World) (rows : Nat → List Int) (w' : World) : Prop :=
  (DataFull w.data ∧ Bare w rows w') ∨
    ∃ p buf h m ix new, Filled w rows p buf h m ix new none w'

/-- How a call may fail to return: it waits for a row that was left locked; nothing
is said about undefined behaviour; a full store leaves a file half made; the other
exits leave the store alone. -/
def Died (w : World) (rows : Nat → List Int) (e : Halt) (w' : World) : Prop :=
  (e = .hang ∧ ∃ h, RowStuck w.table h) ∨ e = .undefined ∨
    (∃ u, u ≠ .dataBucketOverUse ∧ e = .exit u ∧ w'.table = w.table ∧ w'.data = w.data) ∨
    (e = .exit .dataBucketOverUse ∧ Spoiled w rows w')

variable {w : World} {rows : Nat → List Int} {ch : Int → List Nat} {env : Env} {bld : Build}
  {p : Path} {flags mode h : Nat} {m : Int}

theorem Died.of_rowStop {e : Halt} {t' : MetaShm} (hstop : RowStop w.table p e t') :
    Died w rows e { w with table := t' } := by
  rcases hstop with hhang | ⟨rfl, rfl, _⟩
  · exact Or.inl hhang
  · exact Or.inr (Or.inr (Or.inl ⟨_, by decide, rfl, rfl, rfl⟩))

theorem filledCore_stays (p : Path) (ix n : Nat) : Stays (filledCore p ix n) :=
  ⟨fun _ => rfl, fun _ => rfl, fun _ => rfl⟩

/-- `strcpy` of a path that fits. -/
theorem strcpyPath_eq (hp : p.length < pathMax) {β : Type} {k : PUnit → Op World β} :
    (strcpyPath m p >>= k) w =
      k ⟨⟩ { w with table := w.table.setMb m (fun b => { b with path := p }) } := by
  rw [strcpyPath, inPathBuffer, if_pos hp]
  rfl

theorem strcpyPath_undef (hp : ¬ p.length < pathMax) {β : Type} {k : PUnit → Op World β} :
    (strcpyPath m p >>= k) w = .error .undefined w := by
  rw [strcpyPath, inPathBuffer, if_neg hp]
  rfl

theorem createNewFile_ends (hbld : bld.getFreeDbucketIx = bucketIxAllocAllRandom)
    (wf : StoreWf (w.store rows ch)) (p : Path) (mode : Nat) :
    Ends (createNewFile bld env p mode w)
      (fun r w' => (r = .error .enospc ∧ w' = w ∧ ∃ h, hash p = .ok h ∧
          ((findPath w.table p (rows h)).isSome ∨ TableFull w.table)) ∨
        ∃ h m ix out, r = .ok m ∧ Filled w rows p [] h m ix [] (some out) w')
      (Died w rows) := by
  have hd : DataWf w.data := wf.data
  unfold createNewFile
  rw [ends_bind, onMeta, ends_zoom]
  refine (strictCreateMbucket_ends wf.table env.mrand p).mono ?_ (fun e t' => Died.of_rowStop)
  rintro r t₁ ⟨h, hok, ⟨rfl, rfl, hwhy⟩ | ⟨m, rfl, hnone, hc⟩⟩
  · exact Or.inl ⟨rfl, rfl, h, hok, hwhy⟩
  · change Ends ((onData (bld.getFreeDbucketIx (env.rand 0)) >>= _) { w with table := t₁ }) _ _
    rw [hbld]
    rcases bucketIxAllocAllRandom_cases hd.toLinksOk (env.rand 0) with
      ⟨ix, hix, hfree, halloc⟩ | ⟨hover, halloc⟩
    · rw [bind_of_ok (onData_of_ok (w := { w with table := t₁ }) halloc), run_setMb]
      by_cases hp : p.length < pathMax
      · rw [strcpyPath_eq hp, run_setMb, mbModify, run_setMb]
        have hcopy := Copy.start (w.data.take ix) ix [] (by simp)
        rw [put_nil (Nat.zero_le _)] at hcopy
        refine Or.inr ⟨h, m, ix, _, rfl, ⟨hok, hnone, ⟨t₁, hc, ?_⟩, rfl⟩, hp, hix, hfree, hcopy⟩
        dsimp only
        rw [setMb_setMb, setMb_setMb, setMb_setMb]
        exact Edited.setMb rfl
      · rw [strcpyPath_undef hp]
        exact Or.inr (Or.inl rfl)
    · rw [bind_of_error (onData_of_error (w := { w with table := t₁ }) halloc)]
      refine Or.inr (Or.inr (Or.inr ⟨rfl, Or.inl ⟨hover, p, h, m, id, ?_, ?_, ?_, rfl⟩⟩))
      · exact ⟨hok, hnone, ⟨t₁, hc, .refl _ _⟩, rfl⟩
      · exact ⟨fun _ => rfl, fun _ => rfl, fun _ => rfl⟩
      · exact fun _ => ⟨rfl, rfl, rfl⟩

/-- What the disk holds for a path: the bytes of a complete read. -/
def diskContent (env : Env) (p : Path) : Option (List Byte) :=
  match env.realStat p with
  | .error _ => none
  | .ok st =>
      if env.realOpen p 0 < 0 then none
      else if (env.realRead (env.realOpen p 0) st.stSize).1 = st.stSize then
        some (env.realRead (env.realOpen p 0) st.stSize).2
      else none

/-- The file is on the disk, but reading it does not return all of it. -/
def ShortRead (env : Env) (p : Path) : Prop :=
  ∃ st, env.realStat p = .ok st ∧ 0 ≤ env.realOpen p 0 ∧
    (env.realRead (env.realOpen p 0) st.stSize).1 ≠ st.stSize

theorem uploadFile_ends (hbld : bld.getFreeDbucketIx = bucketIxAllocAllRandom)
    (wf : StoreWf (w.store rows ch)) (p : Path) :
    Ends (uploadFile bld env p w)
      (fun r w' => (∃ e, r = .error e ∧ w' = w) ∨
        (ShortRead env p ∧ (∃ e, r = .error e) ∧ Bare w rows w') ∨
        ∃ buf h m ix new out, diskContent env p = some buf ∧ r = .ok m ∧
          Filled w rows p buf h m ix new (some out) w')
      (Died w rows) := by
  have hd : DataWf w.data := wf.data
  unfold uploadFile
  cases hstat : env.realStat p with
  | error e => exact Or.inl ⟨e, rfl, rfl⟩
  | ok st =>
      dsimp only
      rw [run_ite]
      by_cases hopen : env.realOpen p 0 < 0
      · rw [if_pos hopen]
        exact Or.inl ⟨_, rfl, rfl⟩
      · rw [if_neg hopen, ends_bind, onMeta, ends_zoom]
        refine (strictCreateMbucket_ends wf.table env.mrand p).mono ?_
          (fun e t' => Died.of_rowStop)
        rintro r t₁ ⟨h, hok, ⟨rfl, rfl, hwhy⟩ | ⟨m, rfl, hnone, hc⟩⟩
        · exact Or.inl ⟨_, rfl, rfl⟩
        · dsimp only
          rw [run_ite]
          by_cases hread : (env.realRead (env.realOpen p 0) st.stSize).1 ≠ st.stSize
          · rw [if_pos hread]
            refine Or.inr (Or.inl ⟨⟨st, hstat, by omega, hread⟩, ⟨_, rfl⟩, p, h, m, id, ?_, ?_, ?_,
              rfl⟩)
            · exact ⟨hok, hnone, ⟨t₁, hc, .refl _ _⟩, rfl⟩
            · exact ⟨fun _ => rfl, fun _ => rfl, fun _ => rfl⟩
            · exact fun _ => ⟨rfl, rfl, rfl⟩
          · rw [if_neg hread]
            rw [not_not] at hread
            have hle := env.realRead_le (env.realOpen p 0) st.stSize
            have hlen := env.realRead_length (env.realOpen p 0) st.stSize
            rw [hread] at hle hlen
            rw [Int.toNat_natCast] at hlen
            have hbuf := hlen ▸ Int.ofNat_le.mp hle
            by_cases hp : p.length < pathMax
            · rw [strcpyPath_eq hp, run_setMb]
              dsimp only
              have hdata := uploadData_ends env m hbld
                (w := { w with table := t₁.setMb m (fun b => { b with path := p, s := st }) }) hd
                hbuf
              rw [hlen] at hdata
              rw [setMb_setMb, ends_bind]
              refine hdata.mono ?_ ?_
              · rintro _ w' ⟨ix, new, r, hix, hfree, hcopy, hr, htab, hfds⟩
                obtain ⟨out, rfl⟩ := Option.isSome_iff_exists.mp hr
                refine Or.inr (Or.inr ⟨_, h, m, ix, new, out, ?_, rfl,
                  ⟨hok, hnone, ⟨t₁, hc, ?_⟩, hfds⟩, hp, hix, hfree, hcopy⟩)
                · rw [diskContent, hstat]
                  simp only [hopen, if_false, hread, if_true]
                · rw [htab, setMb_setMb]
                  refine Edited.setMb ?_
                  simp [MetaBucket.core, filledCore, hlen]
              · rintro e w' ⟨rfl, ⟨hover, rfl⟩ | ⟨ix, new, r, hix, hfree, hcopy, hr, htab, hfds⟩⟩
                · refine Or.inr (Or.inr (Or.inr ⟨rfl, Or.inl ⟨hover, p, h, m,
                    (fun c => { c with path := p, size := st.stSize }),
                    ⟨hok, hnone, ⟨t₁, hc, ?_⟩, rfl⟩, ?_, ?_, rfl⟩⟩))
                  · dsimp only
                    exact Edited.setMb rfl
                  · exact ⟨fun _ => rfl, fun _ => rfl, fun _ => rfl⟩
                  · exact fun _ => ⟨rfl, rfl, rfl⟩
                · obtain rfl : r = none := by simpa using hr
                  refine Or.inr (Or.inr (Or.inr ⟨rfl, Or.inr ⟨p, _, h, m, ix, new,
                    ⟨hok, hnone, ⟨t₁, hc, ?_⟩, hfds⟩, hp, hix, hfree, hcopy⟩⟩))
                  rw [htab, setMb_setMb]
                  refine Edited.setMb ?_
                  simp [MetaBucket.core, filledCore, hlen]
            · rw [strcpyPath_undef hp]
              exact Or.inr (Or.inl rfl)

end Spacefish
