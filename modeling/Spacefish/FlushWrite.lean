import Spacefish.Upload
import Spacefish.ReadWalk

/-!
The shutdown of the daemon: `flush_write` goes through the meta buckets in use
and calls `write_to_disk` for those whose `consisent` flag was cleared. The model
returns the calls of `write_to_disk` in their order, each with the bytes it hands
to the kernel.
-/

namespace Spacefish

open Program

/-- The loop of `traverse_next_bucket`; `n` positions from `pos` on are left. -/
def traverseFrom (t : MetaShm) : Nat → Nat → Option Nat
  | 0, _ => none
  | n + 1, pos => if (t.mb pos).inUse then some pos else traverseFrom t n (pos + 1)

/-- `traverse_next_bucket`: the next bucket in use behind `mb`, or the first one. -/
def traverseNextBucket (t : MetaShm) (mb : Option Nat) : Option Nat :=
  match mb with
  | none => traverseFrom t metaBuckets 0
  | some m => traverseFrom t (metaBuckets - (m + 1)) (m + 1)

/-- The body of the loop of `flush_write`. -/
def flushBucket (env : Env) (mb : Nat) : Op World (List (Int × List Byte)) := do
  let w ← get
  if (w.table.mb mb).consisent then return []
  let bytes ← writeToDisk env mb
  return [((mb : Int), bytes)]

/-- The loop of `flush_write` from the bucket `mb` on. -/
def flushLoop (env : Env) : Nat → Nat → Op World (List (Int × List Byte))
  | 0, _ => throw .hang
  | fuel + 1, mb => do
      let written ← flushBucket env mb
      let w ← get
      match traverseNextBucket w.table (some mb) with
      | none => return written
      | some next =>
          let rest ← flushLoop env fuel next
          return written ++ rest

def flushWrite (env : Env) : Op World (List (Int × List Byte)) := do
  let w ← get
  match traverseNextBucket w.table none with
  | none => return []
  | some mb => flushLoop env metaBuckets mb

variable {t : MetaShm} {w : World} {env : Env} {n pos k fuel mb : Nat}

/-! The traversal. -/

theorem traverseFrom_none (hnone : traverseFrom t n pos = none) :
    ∀ i : Nat, pos ≤ i → i < pos + n → (t.mb i).inUse = false := by
  induction n generalizing pos with
  | zero =>
      intro i h₁ h₂
      omega
  | succ n ih =>
      intro i h₁ h₂
      unfold traverseFrom at hnone
      split at hnone
      · cases hnone
      · next hfree =>
        by_cases hi : i = pos
        · subst hi
          simpa using hfree
        · exact ih hnone i (by omega) (by omega)

theorem traverseFrom_some (hsome : traverseFrom t n pos = some k) :
    pos ≤ k ∧ k < pos + n ∧ (t.mb k).inUse = true ∧
      ∀ i : Nat, pos ≤ i → i < k → (t.mb i).inUse = false := by
  induction n generalizing pos with
  | zero => cases hsome
  | succ n ih =>
      unfold traverseFrom at hsome
      split at hsome
      · next huse =>
        obtain rfl := Option.some.inj hsome
        exact ⟨by omega, by omega, huse, fun i h₁ h₂ => by omega⟩
      · next hfree =>
        obtain ⟨h₁, h₂, huse, hskip⟩ := ih hsome
        refine ⟨by omega, by omega, huse, fun i hi hik => ?_⟩
        by_cases hp : i = pos
        · subst hp
          simpa using hfree
        · exact hskip i (by omega) hik

/-! `write_to_disk`. -/

theorem writeToDiskRounds_keeps (n i : Nat) (buf : Nat → Byte) (ix : Nat) :
    Keeps (writeToDiskRounds n i buf ix) := by
  induction n generalizing i buf ix with
  | zero => exact .pure _
  | succ n ih => exact (getDbucketPtr_keeps ix).bind (fun db => ih _ _ _)

theorem writeToDisk_keeps (env : Env) (mb : Int) : Keeps (writeToDisk env mb) := by
  have hdata : ∀ {α : Type} {x : Op DataShm α}, Keeps x → Keeps (onData x) :=
    fun hx => hx.zoom (fun _ => rfl)
  refine Keeps.get.bind (fun w => (hdata (writeToDiskRounds_keeps _ _ _ _)).bind (fun r => ?_))
  exact .ite ((hdata (getDbucketPtr_keeps _)).bind (fun _ => .pure _)) (.pure _)

/-- `n` buckets can be reached from `ix` on. -/
def Reaches (d : DataShm) : Nat → Nat → Prop
  | 0, _ => True
  | n + 1, ix => ix / dataBucketsStep < d.dbucketSteps ∧ Reaches d n (d.bucket ix).nextIx

instance decidableReaches (d : DataShm) : (n ix : Nat) → Decidable (Reaches d n ix)
  | 0, _ => .isTrue trivial
  | n + 1, ix =>
      have := decidableReaches d n (d.bucket ix).nextIx
      inferInstanceAs (Decidable (_ ∧ _))

/-- The chain of a file is long enough for its `st_size`. -/
def ChainCovers (w : World) (m : Int) : Prop :=
  Reaches w.data ((toInt ((w.table.mb m).s.stSize / dbucketBufSize : Nat)).toNat +
    (if (w.table.mb m).s.stSize % dbucketBufSize > 0 then 1 else 0)) (w.table.mb m).firstDbucket

instance (w : World) (m : Int) : Decidable (ChainCovers w m) :=
  inferInstanceAs (Decidable (Reaches _ _ _))

theorem writeToDiskRounds_returns (d : DataShm) (n k i : Nat) (buf : Nat → Byte) (ix : Nat)
    (hreach : Reaches d (n + k) ix) :
    ∃ buf' ix', writeToDiskRounds n i buf ix d = .ok (buf', ix') d ∧ Reaches d k ix' := by
  induction n generalizing i buf ix with
  | zero => exact ⟨buf, ix, rfl, by simpa using hreach⟩
  | succ n ih =>
      rw [Nat.succ_add] at hreach
      obtain ⟨hix, hrest⟩ := hreach
      have hptr : getDbucketPtr ix d = .ok (d.bucket ix) d := by
        rw [getDbucketPtr, run_get_bind, run_ite, if_neg (by omega)]
        rfl
      obtain ⟨buf', ix', hrun, hk⟩ := ih (i + 1) _ _ hrest
      exact ⟨buf', ix', by rw [writeToDiskRounds, bind_of_ok hptr, hrun], hk⟩

theorem writeToDisk_returns (env : Env) (m : Int) (hcover : ChainCovers w m) :
    ∃ bytes, writeToDisk env m w = .ok bytes w := by
  obtain ⟨buf, ix, hrun, hlast⟩ := writeToDiskRounds_returns w.data _ _ 0 env.junk _ hcover
  rw [writeToDisk, run_get_bind, bind_of_ok (onData_of_ok hrun)]
  dsimp only
  rw [run_ite]
  split
  · next hoff =>
    rw [if_pos hoff] at hlast
    have hptr : getDbucketPtr ix w.data = .ok (w.data.bucket ix) w.data := by
      rw [getDbucketPtr, run_get_bind, run_ite, if_neg (by have := hlast.1; omega)]
      rfl
    rw [bind_of_ok (onData_of_ok hptr)]
    exact ⟨_, rfl⟩
  · exact ⟨_, rfl⟩

/-! `flush_write`. -/

/-- A bucket in use that is marked for writing back. -/
def Dirty (w : World) (m : Int) : Prop :=
  (w.table.mb m).inUse = true ∧ (w.table.mb m).consisent = false

theorem flushBucket_ends (huse : (w.table.mb mb).inUse = true) :
    Ends (flushBucket env mb w)
      (fun written w' => w' = w ∧ (written.map Prod.fst).Nodup ∧
        ∀ m : Int, m ∈ written.map Prod.fst ↔ m = mb ∧ Dirty w m)
      (fun e _ => ∃ m, Dirty w m ∧ ∃ w', writeToDisk env m w = .error e w') := by
  rw [flushBucket, run_get_bind, run_ite]
  cases hmark : (w.table.mb mb).consisent with
  | true =>
      rw [if_pos rfl]
      refine ⟨rfl, List.nodup_nil, fun m => ⟨fun h => absurd h (by simp), ?_⟩⟩
      rintro ⟨rfl, _, hno⟩
      rw [hmark] at hno
      cases hno
  | false =>
      rw [if_neg (by simp)]
      have hkeep := writeToDisk_keeps env mb w
      cases hrun : writeToDisk env mb w with
      | ok bytes w' =>
          rw [hrun] at hkeep
          obtain rfl : w' = w := hkeep
          rw [bind_of_ok hrun]
          refine ⟨rfl, List.nodup_singleton _, fun m => ?_⟩
          rw [List.map_singleton, List.mem_singleton]
          refine ⟨?_, fun h => h.1⟩
          rintro rfl
          exact ⟨rfl, huse, hmark⟩
      | error e w' =>
          rw [bind_of_error hrun]
          exact ⟨mb, ⟨huse, hmark⟩, w', hrun⟩

theorem flushLoop_ends (huse : (w.table.mb mb).inUse = true) (hlt : mb < metaBuckets)
    (hfuel : metaBuckets - mb ≤ fuel) :
    Ends (flushLoop env fuel mb w)
      (fun calls w' => w' = w ∧ (calls.map Prod.fst).Nodup ∧
        ∀ m : Int, m ∈ calls.map Prod.fst ↔ (mb : Int) ≤ m ∧ m < metaBuckets ∧ Dirty w m)
      (fun e _ => ∃ m, Dirty w m ∧ ∃ w', writeToDisk env m w = .error e w') := by
  induction fuel generalizing mb with
  | zero => omega
  | succ fuel ih =>
      rw [flushLoop, ends_bind]
      refine (flushBucket_ends huse).mono ?_ (fun _ _ h => h)
      rintro written w' ⟨rfl, hnodup, hmem⟩
      rw [run_get_bind]
      cases hnext : traverseNextBucket w'.table (some mb) with
      | none =>
          have hfree := traverseFrom_none hnext
          refine ⟨rfl, hnodup, fun m => ?_⟩
          rw [hmem]
          constructor
          · rintro ⟨rfl, hdirty⟩
            exact ⟨by omega, by omega, hdirty⟩
          · rintro ⟨hle, hm, hdirty⟩
            refine ⟨?_, hdirty⟩
            -- nothing behind `mb` is in use
            by_contra hne
            have hno := hfree m.toNat (by omega) (by omega)
            rw [Int.toNat_of_nonneg (by omega), hdirty.1] at hno
            cases hno
      | some next =>
          obtain ⟨h₁, h₂, huse', hskip⟩ := traverseFrom_some hnext
          dsimp only
          rw [ends_bind]
          refine (ih huse' (by omega) (by omega)).mono ?_ (fun _ _ h => h)
          rintro rest w'' ⟨rfl, hnodup', hmem'⟩
          refine ⟨rfl, ?_, fun m => ?_⟩
          · rw [List.map_append, List.nodup_append]
            refine ⟨hnodup, hnodup', fun a ha b hb hab => ?_⟩
            have := ((hmem a).mp ha).1
            have := ((hmem' b).mp hb).1
            omega
          · rw [List.map_append, List.mem_append, hmem, hmem']
            constructor
            · rintro (⟨rfl, hdirty⟩ | ⟨hle, hm, hdirty⟩)
              · exact ⟨by omega, by omega, hdirty⟩
              · exact ⟨by omega, hm, hdirty⟩
            · rintro ⟨hle, hm, hdirty⟩
              by_cases heq : m = mb
              · exact Or.inl ⟨heq, hdirty⟩
              · refine Or.inr ⟨?_, hm, hdirty⟩
                by_contra hlow
                have hno := hskip m.toNat (by omega) (by omega)
                rw [Int.toNat_of_nonneg (by omega), hdirty.1] at hno
                cases hno

/-- `flush_write` calls `write_to_disk` once for every bucket in use that is
marked, unless one of these calls ends the process. -/
theorem flushWrite_ends (env : Env) (w : World) :
    Ends (flushWrite env w)
      (fun calls w' => w' = w ∧ (calls.map Prod.fst).Nodup ∧
        ∀ m : Int, m ∈ calls.map Prod.fst ↔ 0 ≤ m ∧ m < metaBuckets ∧ Dirty w m)
      (fun e _ => ∃ m, Dirty w m ∧ ∃ w', writeToDisk env m w = .error e w') := by
  rw [flushWrite, run_get_bind]
  cases hfirst : traverseNextBucket w.table none with
  | none =>
      have hfree := traverseFrom_none hfirst
      refine ⟨rfl, List.nodup_nil, fun m => ⟨fun h => absurd h (by simp), ?_⟩⟩
      rintro ⟨hle, hm, hdirty⟩
      have hno := hfree m.toNat (by omega) (by omega)
      rw [Int.toNat_of_nonneg hle, hdirty.1] at hno
      cases hno
  | some mb =>
      obtain ⟨_, h₂, huse, hskip⟩ := traverseFrom_some hfirst
      refine (flushLoop_ends huse (by omega) (by omega)).mono ?_ (fun _ _ h => h)
      rintro calls w' ⟨rfl, hnodup, hmem⟩
      refine ⟨rfl, hnodup, fun m => (hmem m).trans ⟨?_, ?_⟩⟩
      · rintro ⟨hle, hrest⟩
        exact ⟨by omega, hrest⟩
      · rintro ⟨hle, hm, hdirty⟩
        refine ⟨?_, hm, hdirty⟩
        by_contra hlow
        have hno := hskip m.toNat (by omega) (by omega)
        rw [Int.toNat_of_nonneg hle, hdirty.1] at hno
        cases hno

end Spacefish
