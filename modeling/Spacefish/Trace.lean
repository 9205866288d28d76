import Spacefish.SysRun

/-!
Runs as lists of events: what the calls of a list return, and conditions that
every event meets in the state it is made in.
-/

namespace Spacefish

/-- What the calls of a list return when they are made one after the other. -/
def outs (b : Build) : Sys → List Event → List Out
  | _, [] => []
  | s, e :: es => (exec b s e).1 :: outs b (exec b s e).2 es

/-- Every event of the list is admitted in the state it is made in. -/
def Along (b : Build) (allow : Sys → Event → Out → Prop) : Sys → List Event → Prop
  | _, [] => True
  | s, e :: es => allow s e (exec b s e).1 ∧ Along b allow (exec b s e).2 es

/-- A list of calls that all return meets every condition that its events meet
wherever they return. -/
theorem along_of_returns {b : Build} {allow : Sys → Event → Out → Prop} {s : Sys}
    {es : List Event} (hrets : ∀ out ∈ outs b s es, out.isRet = true)
    (hallow : ∀ e ∈ es, ∀ s out, out.isRet = true → allow s e out) : Along b allow s es := by
  induction es generalizing s with
  | nil => trivial
  | cons e es ih =>
      refine ⟨hallow e (by simp) s _ (hrets _ (by simp [outs])), ih ?_ ?_⟩
      · exact fun out hout => hrets out (by simp [outs, hout])
      · exact fun a ha => hallow a (by simp [ha])

/-- The meta bucket that `get_mbucket` finds for a path. -/
def lookup (t : MetaShm) (p : Path) : Option Int :=
  match getMbucket p t with
  | .ok r _ => r
  | .error _ _ => none

/-- `get_mbucket` returns what `lookup` says and leaves the table alone. -/
theorem getMbucket_of_lookup {t : MetaShm} {rows : Nat → List Int} {p : Path} {m : Int}
    (wf : TableWf t rows) (hfind : lookup t p = some m) :
    getMbucket p t = .ok (some m) t ∧
      ∃ h, hash p = .ok h ∧ findPath t p (rows h) = some m := by
  have hends := getMbucket_ends wf p
  unfold lookup at hfind
  cases hrun : getMbucket p t with
  | error e t' =>
      rw [hrun] at hfind
      cases hfind
  | ok r t' =>
      rw [hrun] at hfind hends
      obtain rfl : r = some m := hfind
      obtain ⟨rfl, h, hok, hfound⟩ := hends
      exact ⟨rfl, h, hok, hfound.symm⟩

/-- The calls that return or end their process and free no meta bucket that a
descriptor refers to. -/
def KeepsOpenFiles (s : Sys) (e : Event) (out : Out) : Prop :=
  CallOk e.call ∧ Spares s e ∧ ReturnsOrExits out

theorem KeepsOpenFiles.sysWf {s s' : Sys} {e : Event} {out : Out}
    (hallow : KeepsOpenFiles s e out) (hexec : exec defaultBuild s e = (out, s'))
    (hinv : ∃ rows ch, SysWf s rows ch) : ∃ rows ch, SysWf s' rows ch := by
  obtain ⟨rows, ch, hinv⟩ := hinv
  obtain ⟨hok, hspares, hout⟩ := hallow
  obtain ⟨done, rows', ch', hstep⟩ := exec_step hinv hok hexec hout
  exact ⟨rows', ch', hstep.sysWf hinv hspares⟩

theorem run_sysWf {s : Sys} (hrun : Run defaultBuild KeepsOpenFiles initSys s) :
    ∃ rows ch, SysWf s rows ch :=
  hrun.invariant ⟨_, _, initSys_wf⟩ (fun _ _ _ _ hinv hallow hexec => hallow.sysWf hexec hinv)

/-- A file of three bytes, made by one process. -/
def threeBytes : Sys := afterCalls [.open pathA 66 0, .write 1024 [1, 2, 3]]

theorem threeBytes_reached : Run defaultBuild KeepsOpenFiles initSys threeBytes := by
  refine run_of_allReturn (by decide +kernel) (fun c hc s out hret => ?_)
  have hout := (Out.isRet_spec hret).1
  simp only [List.mem_cons, List.not_mem_nil, or_false] at hc
  rcases hc with rfl | rfl
  · exact ⟨fun happ => absurd happ (by decide), fun _ _ _ => id, hout⟩
  · exact ⟨trivial, fun _ _ _ => id, hout⟩

end Spacefish
