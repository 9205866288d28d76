import Spacefish.OpenFd
import Spacefish.System

/-!
What a call can do to the store. `Effect` has one constructor for each kind of
change, whole calls and not single stores to memory: everything that holds in
all reachable states is proved by going through its cases. A call is complete
unless it ran out of data buckets or read a file from the disk only in part.
-/

namespace Spacefish

open LinkedArray Program Buffer

/-- The fields a write leaves; `none` stands for a write that ended its process
before they were stored. -/
def wroteBy (r : Option WriteOut) (moves : Bool) (c : FileCore) : FileCore :=
  match r with
  | some out => wroteCore out moves c
  | none => c

/-- An edit that touches the cursor at most. -/
structure Seeks (f : FileCore → FileCore) : Prop extends Stays f where
  first : ∀ c, (f c).first = c.first
  path : ∀ c, (f c).path = c.path
  size : ∀ c, (f c).size = c.size

/-- `Effect w rows ch env call done s'`: the call, made in the state `w` with the
row lists `rows` and the chains `ch`, leaves the store `s'`. -/
inductive Effect (w : World) (rows : Nat → List Int) (ch : Int → List Nat) (env : Env) :
    Call → Bool → Store → Prop where
  | keep {call : Call} : Effect w rows ch env call true (w.store rows ch)
  | edit {call : Call} {m : Int} {t' : MetaShm} {f : FileCore → FileCore}
      (huse : (w.table.mb m).inUse = true) (he : Edited w.table t' m f) (hf : Seeks f)
      (hlast : (f (w.table.mb m).core).last ∈ ch m ∨ ((f (w.table.mb m).core).last = noIx ∧
        (ch m = [] ∨ (w.table.mb m).lastDbucket = noIx)))
      (hoff : (f (w.table.mb m).core).last ≠ noIx → 0 ≤ (f (w.table.mb m).core).off ∧
        (f (w.table.mb m).core).off ≤ (w.data.bucket (f (w.table.mb m).core).last).bytes) :
      Effect w rows ch env call true ⟨t', w.data, rows, ch⟩
  | write {fd : Int} {buf : List Byte} {m : Nat} {pre l new : List Nat} {d' : DataShm}
      {t' : MetaShm} {r : Option WriteOut} (hu : UserFd w fd m)
      (huse : (w.table.mb m).inUse = true)
      (hsplit : ch m = pre ++ (w.table.mb m).lastDbucket :: l)
      (hcopy : Copy w.data ((w.table.mb m).lastDbucket :: l) (w.table.mb m).lastDbOffset.toNat buf
        d' r new)
      (he : Edited w.table t' m (wroteBy r (decide (0 < buf.length)))) :
      Effect w rows ch env (.write fd buf) r.isSome
        ⟨t', d', rows, Function.update ch m (ch m ++ new)⟩
  | pwrite {fd : Int} {buf : List Byte} {offset : Int} {m b : Nat} {pre l new : List Nat}
      {d' : DataShm} {t' : MetaShm} {r : Option WriteOut} (hu : UserFd w fd m)
      (huse : (w.table.mb m).inUse = true) (hsplit : ch m = pre ++ b :: l)
      (hlen : pre.length = hops offset) (hcopy : Copy w.data (b :: l) (within offset) buf d' r new)
      (he : Edited w.table t' m (wroteBy r false)) :
      Effect w rows ch env (.pwrite fd buf offset) r.isSome
        ⟨t', d', rows, Function.update ch m (ch m ++ new)⟩
  | fill {call : Call} {p : Path} {buf : List Byte} {h : Nat} {m : Int} {ix : Nat}
      {new : List Nat} {r : Option WriteOut} {w₁ : World} {t' : MetaShm}
      {g : FileCore → FileCore} (hf : Filled w rows p buf h m ix new r w₁)
      (he : Edited w₁.table t' m g) (hg : g = id ∨ g = rewound) :
      Effect w rows ch env call r.isSome
        ⟨t', w₁.data, Function.update rows h (rows h ++ [m]), Function.update ch m (ix :: new)⟩
  | bare {call : Call} {p : Path} {h : Nat} {m : Int} {f : FileCore → FileCore} {w₁ : World}
      (hn : NewFile w rows p h m f w₁) (hf : Stays f)
      (hsame : ∀ c, (f c).first = c.first ∧ (f c).last = c.last ∧ (f c).off = c.off) :
      Effect w rows ch env call false
        ⟨w₁.table, w.data, Function.update rows h (rows h ++ [m]), Function.update ch m []⟩
  | truncate {pathname : Path} {flags mode : Nat} {m : Int} {t' : MetaShm}
      (huse : (w.table.mb m).inUse = true) (hflag : truncates flags = true) (hch : ch m ≠ [])
      (he : Edited w.table t' m (fun c => rewound { c with size := 0 })) :
      Effect w rows ch env (.open pathname flags mode) true ⟨t', w.data.clear (ch m), rows, ch⟩
  | release {pathname p : Path} {m : Int} {t' : MetaShm} {rows' : Nat → List Int}
      (hpath : absPath env pathname = .ok p) (huse : (w.table.mb m).inUse = true)
      (hname : samePath p (w.table.mb m).path = true) (hr : Released w.table t' rows rows' m) :
      Effect w rows ch env (.unlink pathname) true ⟨t', w.data, rows', ch⟩
  | rename {old new : Path} {hn : Nat} {m a : Int} {lost : Option Int} {p : Path}
      {t₁ t' : MetaShm} {rows' : Nat → List Int} (hpath : absPath env new = .ok p)
      (hover : ∀ b ∈ lost, samePath p (w.table.mb b).path = true)
      (hr : Renamed w.table t₁ rows rows' hn m lost p) (huse : (t₁.mb a).inUse = true)
      (he : Edited t₁ t' a id) : Effect w rows ch env (.rename old new) true ⟨t', w.data, rows', ch⟩
  | stuck {old new : Path} (ho hn : Nat) :
      Effect w rows ch env (.rename old new) true ⟨w.table.lockBoth ho hn, w.data, rows, ch⟩

variable {w : World} {rows : Nat → List Int} {ch : Int → List Nat} {env : Env} {call : Call}
  {done : Bool} {s' : Store} {m : Int}

theorem Stays.id : Stays id := ⟨fun _ => rfl, fun _ => rfl, fun _ => rfl⟩

theorem Seeks.id : Seeks id := ⟨.id, fun _ => rfl, fun _ => rfl, fun _ => rfl⟩

theorem Seeks.cursor (b : Nat) (off : Int) : Seeks (fun c => { c with last := b, off := off }) :=
  ⟨⟨fun _ => rfl, fun _ => rfl, fun _ => rfl⟩, fun _ => rfl, fun _ => rfl, fun _ => rfl⟩

theorem Seeks.rewound : Seeks rewound :=
  ⟨⟨fun _ => rfl, fun _ => rfl, fun _ => rfl⟩, fun _ => rfl, fun _ => rfl, fun _ => rfl⟩

theorem wroteBy_stays (r : Option WriteOut) (moves : Bool) : Stays (wroteBy r moves) := by
  cases r <;> exact ⟨fun _ => rfl, fun _ => rfl, fun _ => rfl⟩

theorem wroteBy_first (r : Option WriteOut) (moves : Bool) (c : FileCore) :
    (wroteBy r moves c).first = c.first := by
  cases r <;> rfl

/-- The store after a copy into the chain of a file whose fields are then set. -/
theorem StoreWf.wrote {s : Store} {pre l new : List Nat} {off : Nat} {buf : List Byte}
    {d' : DataShm} {t' : MetaShm} {r : Option WriteOut} {moves : Bool} (wf : StoreWf s)
    (huse : s.Used m) (hsplit : s.ch m = pre ++ l) (hcopy : Copy s.data l off buf d' r new)
    (he : Edited s.table t' m (wroteBy r moves)) :
    StoreWf ⟨t', d', s.rows, Function.update s.ch m (s.ch m ++ new)⟩ := by
  have hown : ∀ c ∈ l, s.data.Owned c := fun c hc =>
    wf.owned m huse c (by rw [hsplit]; exact List.mem_append_right _ hc)
  have hnodup : l.Nodup := by
    have := wf.nodup huse
    rw [hsplit] at this
    exact (List.nodup_append.mp this).2.1
  have wf' := wf.copy _ huse hsplit hcopy
  have hcase : ((wroteBy r moves (s.table.mb m).core).last = (s.table.mb m).lastDbucket ∧
        (wroteBy r moves (s.table.mb m).core).off = (s.table.mb m).lastDbOffset) ∨
      ∃ out, r = some out ∧ (wroteBy r moves (s.table.mb m).core).last = out.dbindex ∧
        (wroteBy r moves (s.table.mb m).core).off = out.off := by
    cases r with
    | none => exact Or.inl ⟨rfl, rfl⟩
    | some out =>
        cases moves with
        | false => exact Or.inl ⟨rfl, rfl⟩
        | true => exact Or.inr ⟨out, rfl, rfl, rfl⟩
  rcases hcase with ⟨hlast, hoff⟩ | ⟨out, hr, hlast, hoff⟩
  · refine wf'.edit huse he (wroteBy_stays r moves) (wroteBy_first r moves _) ?_ ?_
    · rw [hlast]
      exact wf'.onChain m huse
    · rw [hlast, hoff]
      exact wf'.inBucket m huse
  · obtain ⟨l₁, l₂, hl, _, hle, _⟩ := hcopy.cursor hr wf.data hnodup hown
    refine wf'.edit huse he (wroteBy_stays r moves) (wroteBy_first r moves _) (Or.inr ?_) ?_
    · rw [hlast]
      simp only [Function.update_self, hsplit, List.append_assoc, hl]
      simp
    · rw [hlast, hoff]
      intro _
      exact ⟨Int.natCast_nonneg _, Int.ofNat_le.mpr hle⟩

/-- An edit that leaves the cursor where it is. -/
theorem Effect.stay {t' : MetaShm} (wf : StoreWf (w.store rows ch))
    (huse : (w.table.mb m).inUse = true) (he : Edited w.table t' m id) :
    Effect w rows ch env call true ⟨t', w.data, rows, ch⟩ :=
  .edit huse he .id ((wf.onChain m huse).symm.imp id (fun hnil => ⟨hnil, Or.inr hnil⟩))
    (wf.inBucket m huse)

theorem Filled.storeWf {p : Path} {buf : List Byte} {h ix : Nat} {new : List Nat}
    {r : Option WriteOut} {w₁ : World} (wf : StoreWf (w.store rows ch))
    (hf : Filled w rows p buf h m ix new r w₁) :
    StoreWf ⟨w₁.table, w₁.data, Function.update rows h (rows h ++ [m]),
      Function.update ch m (ix :: new)⟩ := by
  obtain ⟨t₁, hc, he⟩ := hf.file.edited
  have wf₁ := wf.create hc
  have huse : (t₁.mb m).inUse = true := hc.new.inUse
  have wf₂ := wf₁.adopt huse (Function.update_self ..) (wf.data.take hf.bound hf.free) hf.bound
    hf.free he (filledCore_stays _ _ _) rfl rfl
  have huse₂ : (w₁.table.mb m).inUse = true :=
    (he.inUse (filledCore_stays _ _ _) m).trans huse
  have wf₃ := wf₂.copy [] huse₂ (Function.update_self ..) hf.copy
  simpa [World.store] using wf₃

/-- Every call leaves a well-formed store. -/
theorem Effect.storeWf (he : Effect w rows ch env call done s') (wf : StoreWf (w.store rows ch)) :
    StoreWf s' := by
  cases he with
  | keep => exact wf
  | edit huse he hf hlast hoff =>
      exact wf.edit huse he hf.toStays (hf.first _) (hlast.symm.imp And.left id) hoff
  | write hu huse hsplit hcopy he => exact wf.wrote huse hsplit hcopy he
  | pwrite hu huse hsplit hlen hcopy he => exact wf.wrote huse hsplit hcopy he
  | @fill _ p buf h m ix new r w₁ t' g hf he hg =>
      have wf₁ := hf.storeWf wf
      obtain ⟨t₁, hc, he₁⟩ := hf.file.edited
      have huse : (w₁.table.mb m).inUse = true :=
        (he₁.inUse (filledCore_stays _ _ _) m).trans hc.new.inUse
      rcases hg with rfl | rfl
      · exact wf₁.edit huse he .id rfl (wf₁.onChain m huse) (wf₁.inBucket m huse)
      · refine wf₁.edit huse he Seeks.rewound.toStays rfl (Or.inr ?_) ?_
        · have hfirst := (wf₁.linked m huse).head_eq
          simp only [Function.update_self] at hfirst ⊢
          change (w₁.table.mb m).firstDbucket ∈ _
          rw [hfirst]
          simp
        · exact fun _ => ⟨Int.le_refl _, Int.natCast_nonneg _⟩
  | @bare _ p h m f w₁ hn hf hsame =>
      obtain ⟨t₁, hc, he⟩ := hn.edited
      have wf₁ := wf.create hc
      refine wf₁.edit (m := m) hc.new.inUse he hf (hsame _).1 ?_ ?_
      · rw [(hsame _).2.1]
        exact wf₁.onChain m hc.new.inUse
      · rw [(hsame _).2.1, (hsame _).2.2]
        exact wf₁.inBucket m hc.new.inUse
  | @truncate pathname flags mode m t' huse hflag hch he =>
      refine wf.truncate huse he ⟨fun _ => rfl, fun _ => rfl, fun _ => rfl⟩ rfl (Or.inr ?_) rfl
      have hfirst := (wf.linked m huse).head_eq
      change (w.table.mb m).firstDbucket ∈ ch m
      change (w.table.mb m).firstDbucket = (ch m).head?.getD noIx at hfirst
      rw [hfirst]
      cases hl : ch m with
      | nil => exact absurd hl hch
      | cons b l => simp
  | release hpath huse hname hr => exact wf.release hr
  | rename hpath hover hr huse he =>
      have wf₁ := wf.rename hr
      exact wf₁.edit huse he .id rfl (wf₁.onChain _ huse) (wf₁.inBucket _ huse)
  | stuck ho hn => exact wf.stuck ho hn

end Spacefish
