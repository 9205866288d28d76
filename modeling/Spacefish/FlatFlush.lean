import Spacefish.FlatNamesRun
import Spacefish.DirtyFlag

/-!
Writing files back, on the flat files: what `write_to_disk` hands over is determined by the
content of the file, and `flush_write` hands over each modified file once. Of the disk
only what its files hold is left.
-/

namespace Spacefish

open LinkedArray Program Buffer

variable {s : Sys} {rows : Nat → List Int} {ch : Int → List Nat} {a : Flat} {w w' : World}
  {env : Env} {m : Int} {f : FlatFile} {path p : Path} {calls : List (Int × List Byte)}
  {disk : Path → Option (List Byte)} {c : List Byte} {fuel mb : Nat}

theorem FlatInv.writeToDisk (hinv : FlatInv s rows ch a) (huse : (s.table.mb m).inUse = true)
    (hf : FileIs s m f) (env : Env) (pid : Nat) :
    Spacefish.writeToDisk env m (s.view pid) =
      .ok (flushed env.junk f.content) (s.view pid) := by
  have wf := hinv.store pid
  have hchain := wf.toLinkWf.fileChain_eq (s := s) huse
  have hsize : (s.table.mb m).s.stSize = total s.data (ch m) := by
    rw [hf.size, ← hf.content, hchain, content_length]
  rw [← hf.content, hchain]
  exact writeToDisk_eq wf.links.steps (wf.linked m huse) (wf.owned m huse) (hinv.tight m huse).dense
    wf.bytes_le hsize (wf.total_lt huse)

/-! The bytes of the calls. -/

/-- Each call hands over what `write_to_disk` does for its bucket. -/
def HandsOver (env : Env) (w : World) (calls : List (Int × List Byte)) : Prop :=
  ∀ x ∈ calls, writeToDisk env x.1 w = .ok x.2 w

theorem flushBucket_handed (env : Env) (mb : Nat) (w : World) :
    Ends (flushBucket env mb w) (fun written w' => w' = w ∧ HandsOver env w written)
      (fun _ _ => True) := by
  rw [flushBucket, run_get_bind, run_ite]
  split
  · exact ⟨rfl, fun _ hx => absurd hx List.not_mem_nil⟩
  · have hkeep := writeToDisk_keeps env mb w
    cases hrun : writeToDisk env mb w with
    | ok bytes w' =>
        rw [hrun] at hkeep
        obtain rfl : w' = w := hkeep
        rw [bind_of_ok hrun]
        refine ⟨rfl, fun x hx => ?_⟩
        obtain rfl := List.mem_singleton.mp hx
        exact hrun
    | error e w' =>
        rw [bind_of_error hrun]
        trivial

theorem flushLoop_handed (env : Env) (fuel mb : Nat) (w : World) :
    Ends (flushLoop env fuel mb w) (fun calls w' => w' = w ∧ HandsOver env w calls)
      (fun _ _ => True) := by
  induction fuel generalizing mb with
  | zero => trivial
  | succ fuel ih =>
      rw [flushLoop, ends_bind]
      refine (flushBucket_handed env mb w).mono ?_ (fun _ _ h => h)
      rintro written w' ⟨rfl, hwritten⟩
      rw [run_get_bind]
      cases traverseNextBucket w'.table (some mb) with
      | none => exact ⟨rfl, hwritten⟩
      | some next =>
          dsimp only
          rw [ends_bind]
          refine (ih next).mono ?_ (fun _ _ h => h)
          rintro rest w'' ⟨rfl, hrest⟩
          exact ⟨rfl, fun x hx => (List.mem_append.mp hx).elim (hwritten x) (hrest x)⟩

theorem flushWrite_handed (hrun : flushWrite env w = .ok calls w') : HandsOver env w calls := by
  rw [flushWrite, run_get_bind] at hrun
  cases hfirst : traverseNextBucket w.table none with
  | none =>
      rw [hfirst] at hrun
      obtain ⟨rfl, _⟩ := EStateM.Result.ok.inj hrun
      exact fun _ hx => absurd hx List.not_mem_nil
  | some mb =>
      have hloop := flushLoop_handed env metaBuckets mb w
      rw [hfirst] at hrun
      dsimp only at hrun
      rw [hrun] at hloop
      exact hloop.2

/-- The calls of `flush_write` are one for each marked file and no others, each with what is
handed over for its content. -/
theorem FlatInv.flushWrite (hinv : FlatInv s rows ch a) (env : Env) (pid : Nat) :
    ∃ calls, Spacefish.flushWrite env (s.view pid) = .ok calls (s.view pid) ∧
      (calls.map Prod.fst).Nodup ∧
      (∀ m, m ∈ calls.map Prod.fst ↔
        (s.table.mb m).inUse = true ∧ (s.table.mb m).consisent = false) ∧
      ∀ x ∈ calls, ∀ f, a.files (s.table.mb x.1).path = some f → x.2 = flushed env.junk f.content := by
  have hwrite : ∀ m, (s.table.mb m).inUse = true → ∃ f, a.files (s.table.mb m).path = some f ∧
      Spacefish.writeToDisk env m (s.view pid) =
        .ok (flushed env.junk f.content) (s.view pid) := by
    intro m huse
    obtain ⟨f, hfile, his⟩ := hinv.sim.file m huse
    exact ⟨f, hfile, hinv.writeToDisk huse his env pid⟩
  have hends := flushWrite_ends env (s.view pid)
  cases hrun : Spacefish.flushWrite env (s.view pid) with
  | error u w' =>
      rw [hrun] at hends
      obtain ⟨m, ⟨huse, _⟩, w'', herr⟩ := hends
      obtain ⟨f, _, hok⟩ := hwrite m huse
      rw [herr] at hok
      cases hok
  | ok calls w' =>
      rw [hrun] at hends
      obtain ⟨rfl, hnodup, hmem⟩ := hends
      refine ⟨calls, rfl, hnodup, fun m => ⟨fun h => ((hmem m).mp h).2.2, ?_⟩, ?_⟩
      · rintro ⟨huse, hmark⟩
        obtain ⟨h, hh, hin⟩ := (hinv.tableWf.inUse_iff m).mp huse
        have hbound := hinv.tableWf.bound h hh m hin
        exact (hmem m).mpr ⟨hbound.1, hbound.2, huse, hmark⟩
      · intro x hx f hfile
        obtain ⟨_, _, huse, _⟩ := (hmem x.1).mp (List.mem_map_of_mem hx)
        obtain ⟨f', hfile', hok⟩ := hwrite x.1 huse
        obtain rfl := Option.some.inj (hfile'.symm.trans hfile)
        exact (EStateM.Result.ok.inj ((flushWrite_handed hrun x hx).symm.trans hok)).1

/-- What the files of the disk hold after the calls of `write_to_disk`, when the kernel opens
every file and takes all its bytes. -/
def diskAfter (t : MetaShm) (calls : List (Int × List Byte)) (disk : Path → Option (List Byte)) :
    Path → Option (List Byte) :=
  calls.foldl (fun d x => Function.update d (t.mb x.1).path (some x.2)) disk

theorem diskAfter_other {t : MetaShm} (hno : ∀ x ∈ calls, (t.mb x.1).path ≠ p) :
    diskAfter t calls disk p = disk p := by
  induction calls generalizing disk with
  | nil => rfl
  | cons x calls ih =>
      rw [diskAfter, List.foldl_cons]
      refine (ih (fun y hy => hno y (List.mem_cons_of_mem _ hy))).trans ?_
      exact Function.update_of_ne (hno x (List.mem_cons_self ..)).symm _ _

/-- One call for the path decides what the disk holds. -/
theorem diskAfter_mem {t : MetaShm} (hmem : ∃ x ∈ calls, (t.mb x.1).path = p)
    (hall : ∀ x ∈ calls, (t.mb x.1).path = p → x.2 = c) : diskAfter t calls disk p = some c := by
  induction calls generalizing disk with
  | nil =>
      obtain ⟨x, hx, _⟩ := hmem
      cases hx
  | cons x calls ih =>
      rw [diskAfter, List.foldl_cons]
      by_cases hlater : ∃ y ∈ calls, (t.mb y.1).path = p
      · exact ih hlater (fun y hy => hall y (List.mem_cons_of_mem _ hy))
      · obtain ⟨y, hy, hyp⟩ := hmem
        obtain rfl : y = x :=
          (List.mem_cons.mp hy).resolve_right (fun hin => hlater ⟨y, hin, hyp⟩)
        refine (diskAfter_other (fun z hz hzp => hlater ⟨z, hz, hzp⟩)).trans ?_
        rw [hyp, Function.update_self, hall y (List.mem_cons_self ..) hyp]

end Spacefish
