import Spacefish.OpenFlags

/-!
A truncating `open`. Only the branches with `O_CREAT` truncate: without it, an
existing file keeps its content and a file of the disk is uploaded with its own.
-/

namespace Spacefish

open LinkedArray Program Buffer

variable {s s' : Sys} {w₁ w' : World} {rows : Nat → List Int} {ch : Int → List Nat} {env : Env}
  {p pathname : Path} {flags mode pid h : Nat} {m a : Int} {r : Ret}

/-- The file holds nothing. -/
structure EmptyFile (s : Sys) (m : Int) : Prop where
  size : (s.table.mb m).s.stSize = 0
  bytes : ∀ b ∈ fileChain s m, (s.data.bucket b).bytes = 0

/-- The cursor of the file stands at its start. -/
def AtStart (s : Sys) (m : Int) : Prop :=
  (s.table.mb m).lastDbucket = (s.table.mb m).firstDbucket ∧ (s.table.mb m).lastDbOffset = 0

/-- The meta bucket carries the path that `pathname` stands for. -/
def Carries (env : Env) (pathname : Path) (mb : MetaBucket) : Prop :=
  ∃ p, absPath env pathname = .ok p ∧ samePath p mb.path = true

/-- The descriptor `fd` refers to the file of `pathname`, which is empty with its cursor at
the start, and every other file is as it was in `s`. -/
def OpensEmptied (env : Env) (s : Sys) (pid : Nat) (pathname : Path) (fd : Int) (s' : Sys) : Prop :=
  ∃ m : Nat, (s'.fds pid fd.toNat).empty = false ∧ (s'.fds pid fd.toNat).mindex = m ∧
    (s'.table.mb m).inUse = true ∧ Carries env pathname (s'.table.mb m) ∧
    EmptyFile s' m ∧ AtStart s' m ∧
    ∀ a ≠ (m : Int), (s.table.mb a).inUse = true → SameFile s s' a

/-- The file is empty before the call: the one in the store, or the one on the disk
if the store has none. -/
def StartsEmpty (env : Env) (s : Sys) (pathname : Path) : Prop :=
  ∃ p, absPath env pathname = .ok p ∧
    match lookup s.table p with
    | some m => EmptyFile s m
    | none => diskContent env p = some []

theorem exec_open_looksUp {bld : Build}
    (hexec : exec bld s ⟨pid, env, .open pathname flags mode⟩ = (.ret r, s'))
    (wf : TableWf s.table rows) (hexcl : exclusivePath pathname = false)
    (hlen : pathname.length ≤ pathMax) : LooksUp env s.table pathname := by
  cases hrun : sysOpen bld env pathname flags mode (s.view pid) with
  | ok r' w' => exact sysOpen_looksUp hrun wf hexcl hlen
  | error e w' =>
      rw [exec, callOp, hrun] at hexec
      cases hexec

/-- An `open` that returns has found what the rows hold. -/
theorem exec_open_lookup {bld : Build}
    (hexec : exec bld s ⟨pid, env, .open pathname flags mode⟩ = (.ret r, s'))
    (wf : TableWf s.table rows) (hexcl : exclusivePath pathname = false)
    (hlen : pathname.length ≤ pathMax) (hpath : absPath env pathname = .ok p)
    (hok : hash p = .ok h) : lookup s.table p = findPath s.table p (rows h) := by
  obtain ⟨_, q, k, hq, hk, hidle⟩ := exec_open_looksUp hexec wf hexcl hlen
  obtain rfl : p = q := Except.ok.inj (hpath.symm.trans hq)
  obtain rfl : h = k := Except.ok.inj (hok.symm.trans hk)
  exact lookup_of_run (wf.getMbucket_eq hok hidle)

section

variable (wf : StoreWf ((s.view pid).store rows ch))
  (hres : Resolved env pathname p flags rows ch (s.view pid) m w₁)
  (he : Edited w₁.table w'.table m rewound) (hdata : w'.data = w₁.data)

include wf hres he hdata

/-- `open` leaves the files alone that it does not resolve to. -/
theorem Resolved.sameFile (ha : a ≠ m) (huse : (s.table.mb a).inUse = true) :
    SameFile s (s.put pid w') a := by
  have hchain : fileChain s a = ch a := wf.toLinkWf.fileChain_eq huse
  have hcore := he.other a ha
  cases hres with
  | found _ _ _ => exact ⟨⟨_, hcore⟩, fun c _ => congrArg (fun d => d.bucket c) hdata⟩
  | @truncated h _ t' hok hfind _ _ he₁ =>
      refine ⟨⟨_, hcore.trans (he₁.other a ha)⟩, fun c hc => ?_⟩
      change w'.data.bucket c = _
      rw [hdata]
      refine clear_of_not_mem (fun hmem => ha ?_)
      rw [hchain] at hc
      exact wf.apart a m huse (wf.table.findPath_inUse hok hfind) c hc hmem
  | made _ hfill =>
      refine ⟨⟨_, hcore.trans (hfill.file.core_eq ha)⟩, fun c hc => ?_⟩
      change w'.data.bucket c = _
      rw [hdata]
      rw [hchain] at hc
      exact hfill.bucket_eq wf huse hc

/-- The file is in use with the path, and its index is one of the table. -/
theorem Resolved.used :
    0 ≤ m ∧ (w'.table.mb m).inUse = true ∧ samePath p (w'.table.mb m).path = true := by
  have heff : ∃ rows' ch', Effect (s.view pid) rows ch env (.open pathname flags 0) true
      (w'.store rows' ch') ∧ 0 ≤ m ∧ (w'.table.mb m).inUse = true ∧
      samePath p (w'.table.mb m).path = true := hres.effect wf he hdata
  obtain ⟨_, _, _, hfile⟩ := heff
  exact hfile

end

/-- `open` has found a file in the store and left it as it is. -/
theorem found_empty_iff (he : Edited s.table w'.table m rewound) (hdata : w'.data = s.data) :
    EmptyFile (s.put pid w') m ↔ EmptyFile s m := by
  have hsize : (w'.table.mb m).s.stSize = (s.table.mb m).s.stSize := congrArg FileCore.size he.self
  have hfirst : (w'.table.mb m).firstDbucket = (s.table.mb m).firstDbucket :=
    congrArg FileCore.first he.self
  have hchain : fileChain (s.put pid w') m = fileChain s m := by
    unfold fileChain
    change chainFrom w'.data walkFuel (w'.table.mb m).firstDbucket = _
    rw [hdata, hfirst]
  constructor
  · rintro ⟨hs, hb⟩
    refine ⟨hsize.symm.trans hs, fun b hmem => ?_⟩
    have hb := hb b (hchain ▸ hmem)
    change (w'.data.bucket b).bytes = 0 at hb
    rwa [hdata] at hb
  · rintro ⟨hs, hb⟩
    refine ⟨hsize.trans hs, fun b hmem => ?_⟩
    rw [hchain] at hmem
    change (w'.data.bucket b).bytes = 0
    rw [hdata]
    exact hb b hmem

/-- `open` has emptied a file of the store. -/
theorem truncated_empty {t' : MetaShm} (wf : StoreWf ((s.view pid).store rows ch))
    (huse : (s.table.mb m).inUse = true) (he₁ : Edited s.table t' m (fun c => { c with size := 0 }))
    (he : Edited t' w'.table m rewound) (hdata : w'.data = s.data.clear (ch m)) :
    EmptyFile (s.put pid w') m := by
  have hfirst : (w'.table.mb m).firstDbucket = (s.table.mb m).firstDbucket :=
    (congrArg FileCore.first he.self).trans (congrArg FileCore.first he₁.self)
  have hlen : (ch m).length ≤ totBuckets :=
    length_le_totBuckets (wf.nodup huse) (fun b hb => (wf.owned m huse b hb).1)
  have hlinked : Linked w'.data.next noIx (w'.table.mb m).firstDbucket (ch m) := by
    rw [hfirst]
    refine (wf.linked m huse).congr (fun c _ => ?_)
    rw [hdata]
    exact clear_next
  refine ⟨?_, fun b hmem => ?_⟩
  · exact (congrArg FileCore.size he.self).trans (congrArg FileCore.size he₁.self)
  · rw [show fileChain (s.put pid w') m = ch m from
      chainFrom_eq hlinked (Nat.lt_succ_of_le hlen)] at hmem
    change (w'.data.bucket b).bytes = 0
    rw [hdata]
    exact clear_bytes hmem

theorem total_eq_zero {d : DataShm} {l : List Nat} :
    total d l = 0 ↔ ∀ b ∈ l, (d.bucket b).bytes = 0 := by
  induction l with
  | nil => simp
  | cons b l ih =>
      rw [total_cons, Nat.add_eq_zero_iff, ih]
      simp

/-- A file that `open` has made is empty if it was made from nothing. -/
theorem Filled.empty_iff {buf : List Byte} {ix : Nat} {new : List Nat} {out : WriteOut}
    (wf : StoreWf ((s.view pid).store rows ch))
    (hfill : Filled (s.view pid) rows p buf h m ix new (some out) w₁)
    (he : Edited w₁.table w'.table m rewound) (hdata : w'.data = w₁.data) :
    EmptyFile (s.put pid w') m ↔ buf = [] := by
  obtain ⟨_, huse, _, hfirst, _, hsize⟩ := hfill.core_eq wf
  have hfill' : Effect (s.view pid) rows ch emptyDisk (.open p 0 0) true
      ⟨w'.table, w'.data, Function.update rows h (rows h ++ [m]),
        Function.update ch m (ix :: new)⟩ := by
    rw [hdata]
    exact .fill hfill he (Or.inr rfl)
  have wf' : LinkWf ((s.put pid w').store (Function.update rows h (rows h ++ [m]))
      (Function.update ch m (ix :: new))) := (hfill'.storeWf wf).toLinkWf
  have huse' : (w'.table.mb m).inUse = true :=
    (he.inUse Seeks.rewound.toStays m).trans huse
  have hchain : fileChain (s.put pid w') m = ix :: new := by
    rw [wf'.fileChain_eq huse', Function.update_self]
  have hlen : (w'.table.mb m).s.stSize = buf.length :=
    (congrArg FileCore.size he.self).trans hsize
  have hcont := hfill.content_eq wf.data
  constructor
  · rintro ⟨hs, _⟩
    exact List.length_eq_zero_iff.mp (hlen.symm.trans hs)
  · rintro rfl
    refine ⟨hlen, ?_⟩
    rw [hchain]
    change ∀ b ∈ ix :: new, (w'.data.bucket b).bytes = 0
    rw [hdata, ← total_eq_zero, ← content_length, hcont]
    rfl

/-- A truncating `open` that returns a descriptor has emptied the file of its path, put the
cursor to the start and left every other file alone if and only if the flags contain
`O_CREAT` or the file was empty before. -/
theorem truncating_open_empties_iff (wf : StoreWf ((s.view pid).store rows ch))
    (hexcl : exclusivePath pathname = false) (htrunc : oTruncCheck flags = true)
    (hexec : exec defaultBuild s ⟨pid, env, .open pathname flags mode⟩ = (.ret r, s'))
    (hret : 0 ≤ r.ret) :
    OpensEmptied env s pid pathname r.ret s' ↔
      hasFlag flags oCreat = true ∨ StartsEmpty env s pathname := by
  have hends := @sysOpen_ends (s.view pid) rows ch env defaultBuild rfl rfl wf pathname flags mode
  rcases exec_ends (e := ⟨pid, env, .open pathname flags mode⟩) hends hexec with
    ⟨r', w', hr, rfl, hopen⟩ | ⟨e, w', hhalt, _, _⟩
  swap
  · cases hhalt
  obtain rfl := Out.ret.inj hr
  cases hopen with
  | forwarded hyes _ _ _ =>
      rw [hexcl] at hyes
      cases hyes
  | tooLong _ hfail _ => omega
  | failed _ _ _ hfail _ => omega
  | @opened w₁ _ p m _ hlen hpath hres he hdata hslot =>
      rcases hslot with ⟨rfl, _, _⟩ | ⟨i, rfl, hslot⟩
      · dsimp only at hret
        omega
      obtain ⟨hpos, huse, hcarries⟩ := hres.used wf he hdata
      have hm : ((m.toNat : Nat) : Int) = m := Int.toNat_of_nonneg hpos
      have hself : (s.put pid w').fds pid (i : Int).toNat =
          { w₁.fdTable i with empty := false, mindex := m.toNat } := by
        rw [Int.toNat_natCast]
        simpa [Sys.put] using hslot.self
      have hempties : OpensEmptied env s pid pathname i (s.put pid w') ↔
          EmptyFile (s.put pid w') m := by
        constructor
        · rintro ⟨a, _, hidx, _, _, hempty, _⟩
          rw [hself] at hidx
          obtain rfl : m.toNat = a := hidx
          rwa [hm] at hempty
        · intro hempty
          refine ⟨m.toNat, by rw [hself], by rw [hself], ?_⟩
          rw [hm]
          exact ⟨huse, ⟨p, hpath, hcarries⟩, hempty, ⟨he.last.trans (he.first rfl _).symm, he.off⟩,
            fun a ha hused => hres.sameFile wf he hdata ha hused⟩
      rw [hempties]
      have hlook : ∀ {h : Nat}, hash p = .ok h →
          lookup s.table p = findPath s.table p (rows h) := fun hok =>
        exec_open_lookup hexec wf.table hexcl hlen hpath hok
      have hstarts : StartsEmpty env s pathname ↔
          (match lookup s.table p with
            | some m => EmptyFile s m
            | none => diskContent env p = some []) := by
        constructor
        · rintro ⟨q, hq, hempty⟩
          obtain rfl : p = q := Except.ok.inj (hpath.symm.trans hq)
          exact hempty
        · exact fun hempty => ⟨p, hpath, hempty⟩
      cases hres with
      | found hok hfind hflag =>
          have hcreat : ¬ hasFlag flags oCreat = true := by
            simpa [truncates, htrunc] using hflag
          rw [hstarts, hlook hok, show findPath s.table p (rows _) = _ from hfind,
            found_empty_iff he hdata]
          exact ⟨Or.inr, fun h => h.resolve_left hcreat⟩
      | truncated hok hfind hflag hch he₁ =>
          have hcreat : hasFlag flags oCreat = true := (Bool.and_eq_true_iff.mp hflag).1
          exact iff_of_true (truncated_empty wf (wf.table.findPath_inUse hok hfind) he₁ he hdata)
            (Or.inl hcreat)
      | @made buf h _ ix new out _ hstart hfill =>
          rw [hfill.empty_iff wf he hdata]
          by_cases hcreat : hasFlag flags oCreat = true
          · rw [startContent, if_pos ⟨hcreat, Or.inl htrunc⟩] at hstart
            exact iff_of_true (Option.some.inj hstart).symm (Or.inl hcreat)
          · rw [startContent, if_neg (fun h => hcreat h.1)] at hstart
            rw [hstarts, hlook hfill.file.hashed,
              show findPath s.table p (rows h) = none from hfill.file.absent, hstart]
            simp [hcreat]

/-- `O_RDWR | O_CREAT | O_TRUNC` empties a file of three bytes. -/
theorem truncating_open_empties_threeBytes :
    OpensEmptied emptyDisk threeBytes 0 pathA 1025
      (exec defaultBuild threeBytes ⟨0, emptyDisk, .open pathA 578 0⟩).2 := by
  obtain ⟨rows, ch, hinv⟩ := run_sysWf threeBytes_reached
  have hret : (exec defaultBuild threeBytes ⟨0, emptyDisk, .open pathA 578 0⟩).1.isRet = true := by
    decide +kernel
  have hnum : (exec defaultBuild threeBytes ⟨0, emptyDisk, .open pathA 578 0⟩).1.num = 1025 := by
    decide +kernel
  obtain ⟨r, hr⟩ := Out.ret_of_isRet hret
  have hexec : exec defaultBuild threeBytes ⟨0, emptyDisk, .open pathA 578 0⟩ =
      (.ret r, (exec defaultBuild threeBytes ⟨0, emptyDisk, .open pathA 578 0⟩).2) :=
    Prod.ext hr rfl
  rw [hr] at hnum
  have hfd : r.ret = 1025 := hnum
  have wf : StoreWf ((threeBytes.view 0).store rows ch) := hinv.store
  rw [← hfd]
  exact (truncating_open_empties_iff wf (by decide +kernel) (by decide) hexec
    (by omega)).mpr (Or.inl (by decide))

/-- `O_RDWR | O_TRUNC` leaves its three bytes in it. -/
theorem truncating_open_keeps_content :
    ¬ ∀ (s s' : Sys) (pid : Nat) (env : Env) (pathname : Path) (flags mode : Nat)
      (rows : Nat → List Int) (ch : Int → List Nat) (r : Ret),
      StoreWf ((s.view pid).store rows ch) → exclusivePath pathname = false →
      PathExists env s.table pathname → oTruncCheck flags = true →
      hasFlag flags oExcl = false → hasFlag flags oAppend = false →
      exec defaultBuild s ⟨pid, env, .open pathname flags mode⟩ = (.ret r, s') → 0 ≤ r.ret →
      OpensEmptied env s pid pathname r.ret s' := by
  intro hall
  obtain ⟨rows, ch, hinv⟩ := run_sysWf threeBytes_reached
  have hret : (exec defaultBuild threeBytes ⟨0, emptyDisk, .open pathA 514 0⟩).1.isRet = true := by
    decide +kernel
  have hnum : (exec defaultBuild threeBytes ⟨0, emptyDisk, .open pathA 514 0⟩).1.num = 1025 := by
    decide +kernel
  have hzero : ((exec defaultBuild threeBytes ⟨0, emptyDisk, .open pathA 514 0⟩).2.fds 0
      1025).mindex = 0 := by decide +kernel
  have hsize : ((exec defaultBuild threeBytes ⟨0, emptyDisk, .open pathA 514 0⟩).2.table.mb
      0).s.stSize = 3 := by decide +kernel
  obtain ⟨r, hr⟩ := Out.ret_of_isRet hret
  have hexec : exec defaultBuild threeBytes ⟨0, emptyDisk, .open pathA 514 0⟩ =
      (.ret r, (exec defaultBuild threeBytes ⟨0, emptyDisk, .open pathA 514 0⟩).2) :=
    Prod.ext hr rfl
  generalize (exec defaultBuild threeBytes ⟨0, emptyDisk, .open pathA 514 0⟩).2 = s' at *
  rw [hr] at hnum
  have hfd : r.ret = 1025 := hnum
  obtain ⟨m, _, hidx, _, _, hempty, _⟩ := hall threeBytes s' 0 emptyDisk pathA 514 0 rows ch r
    hinv.store (by decide +kernel) threeBytes_hasPath (by decide) (by decide) (by decide) hexec
    (by omega)
  rw [hfd] at hidx
  obtain rfl : 0 = m := hzero.symm.trans hidx
  have hnone := hempty.size
  rw [Int.natCast_zero, hsize] at hnone
  cases hnone

end Spacefish
