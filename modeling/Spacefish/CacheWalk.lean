import Spacefish.LinkRun
import Spacefish.TwoStores

/-!
The offset cache of a descriptor against the plain walk. As long as the file of a
descriptor is not removed, every cached bucket is the one that the walk from the
first bucket of the file leads to, so `pread` and `pwrite` do what they do in a
build without the cache. Chains only grow at their end, also when other
descriptors write to them or truncate them, and a closed descriptor has an empty
cache.
-/

namespace Spacefish

open LinkedArray Program

variable {w w₁ w₂ w' : World} {d d' : DataShm} {gone : Int → Prop} {offset m : Int}
  {n i ix pid : Nat} {f f' : FdInfo} {s s' s₀ : Sys} {e : Event} {out : Out} {env : Env}

/-! The walk. -/

/-- The walk to an offset in the file `m` leads to the bucket `ix`. -/
def World.Walks (w : World) (m offset : Int) (ix : Nat) : Prop :=
  walkLoop (hops offset) (w.table.mb m).firstDbucket w.data = .ok (some ix) w.data

theorem walkLoop_noIx (h : walkLoop n noIx d = .ok (some ix) d) : ix = noIx := by
  cases n with
  | zero =>
      injection h with hsome
      exact (Option.some.inj hsome).symm
  | succ n =>
      rw [walkLoop, run_ite, if_pos rfl] at h
      injection h with hsome
      cases hsome

/-- A walk that ends in a bucket ends there as well when the chains have grown. -/
theorem walkLoop_grows (hd : LinksOk d) (hd' : LinksOk d') (hg : DataGrows d d')
    (hi : d.Owned i) (hne : ix ≠ noIx) (h : walkLoop n i d = .ok (some ix) d) :
    walkLoop n i d' = .ok (some ix) d' := by
  induction n generalizing i with
  | zero =>
      injection h with hsome
      rw [Option.some.inj hsome]
      rfl
  | succ n ih =>
      rw [walkLoop, run_ite, if_neg hi.ne_noIx, bind_of_ok (getDbucketPtr_eq hd.steps hi.1)] at h
      rw [walkLoop, run_ite, if_neg hi.ne_noIx, bind_of_ok (getDbucketPtr_eq hd'.steps hi.1)]
      by_cases hend : d.next i = noIx
      · rw [show (d.bucket i).nextIx = noIx from hend] at h
        exact absurd (walkLoop_noIx h) hne
      · rw [show (d'.bucket i).nextIx = (d.bucket i).nextIx from hg.next i hend]
        exact ih ((hd.target i).resolve_left hend) h

/-- A call that does not remove the file keeps where the walks in it lead. -/
theorem Relinks.walks (hrel : Relinks gone w w') (hok : LinkOk w) (hm : ¬ gone m)
    (hne : ix ≠ noIx) (h : w.Walks m offset ix) : w'.Walks m offset ix := by
  obtain ⟨rows, ch, wf⟩ := hok
  obtain ⟨rows', ch', wf'⟩ := hrel.ok
  have hfirst : (w.table.mb m).firstDbucket ≠ noIx := by
    intro hno
    rw [World.Walks, hno] at h
    exact hne (walkLoop_noIx h)
  have huse : (w.table.mb m).inUse = true := by
    by_contra hno
    exact hfirst (wf.table.free m (Bool.eq_false_iff.mpr hno)).2
  rw [World.Walks, (hrel.kept m huse hm).2 hfirst]
  exact walkLoop_grows wf.links wf'.links hrel.grows ((wf.first_owned m).resolve_left hfirst) hne h

/-! The cache of one descriptor. -/

/-- Every cached bucket for an offset that is not negative is the one that the walk
to the offset leads to. -/
def CacheAgrees (w : World) (f : FdInfo) : Prop :=
  ∀ j < offsetProcessCacheSize, 0 ≤ (f.offDbMapping j).offset → (f.offDbMapping j).dbindex ≠ noIx →
    w.Walks f.mindex (f.offDbMapping j).offset (f.offDbMapping j).dbindex

/-- The entry is an open descriptor of the store. -/
def FdInfo.IsOpen (f : FdInfo) : Prop := f.empty = false ∧ f.exclusive = false

theorem CacheAgrees.of_clean
    (h : ∀ j < offsetProcessCacheSize, (f.offDbMapping j).offset = -1) : CacheAgrees w f := by
  intro j hj hpos
  rw [h j hj] at hpos
  exact absurd hpos (by decide)

/-- What a call makes of an entry agrees with the walk before the call, or was empty. -/
theorem SlotStep.cacheAgrees (hs : SlotStep w f f') (hf : CacheSound w.data f)
    (hopen : f'.IsOpen) (hc : f.IsOpen → CacheAgrees w f) :
    (f.IsOpen ∧ f'.mindex = f.mindex ∧ CacheAgrees w f') ∨
      ∀ j < offsetProcessCacheSize, (f'.offDbMapping j).offset = -1 := by
  cases hs with
  | same => exact Or.inl ⟨hopen, rfl, hc hopen⟩
  | call hused hcall =>
      have hold : f.IsOpen := ⟨hused, hcall.exclusive ▸ hopen.2⟩
      refine Or.inl ⟨hold, hcall.mindex, fun j hj hpos hne => ?_⟩
      rw [hcall.mindex]
      rcases hcall.cache with ⟨hmap, _⟩ | ⟨offset, ix, hwalk, hmap, _⟩
      · rw [hmap] at hpos hne ⊢
        exact hc hold j hj hpos hne
      · obtain rfl : j = 0 := by
          unfold offsetProcessCacheSize at hj
          omega
        rw [hmap, cacheFill, hf.ptr]
        dsimp only
        rw [Function.update_self]
        exact hwalk
  | opens m hfree => exact Or.inr (hf.clean hfree)
  | forwards => exact absurd hopen.2 (by simp)
  | closes => exact absurd hopen.1 (by simp [resetFd])

/-- Every descriptor of the store agrees with the walk. -/
def CacheWalks (s : Sys) (pid i : Nat) : Prop :=
  (s.fds pid i).IsOpen → CacheAgrees (s.view pid) (s.fds pid i)

theorem LinkInv.cacheWalks (hinv : LinkInv s) (hexec : exec defaultBuild s e = (out, s'))
    (hout : ReturnsOrExits out)
    (hspares : (s.fds pid i).IsOpen → ¬ FreesFile e.env s.table (s.fds pid i).mindex e.call)
    (hc : CacheWalks s pid i) : CacheWalks s' pid i := by
  obtain ⟨hrel, hfds, _⟩ := hinv.step hexec hout
  intro hopen
  have hold : ((s.fds pid i).IsOpen ∧ (s'.fds pid i).mindex = (s.fds pid i).mindex ∧
      CacheAgrees (s.view e.pid) (s'.fds pid i)) ∨
      ∀ j < offsetProcessCacheSize, ((s'.fds pid i).offDbMapping j).offset = -1 := by
    by_cases hpid : pid = e.pid
    · subst hpid
      rcases hfds.self with hself | hinit
      · exact (hself i).cacheAgrees (hinv.slot e.pid i) hopen hc
      · rw [hinit]
        exact Or.inr (fun _ _ => rfl)
    · rw [hfds.other pid hpid] at hopen ⊢
      exact Or.inl ⟨hopen, rfl, hc hopen⟩
  rcases hold with ⟨hwas, hmb, hagrees⟩ | hclean
  · intro j hj hpos hne
    exact hrel.walks hinv.links (hmb ▸ hspares hwas) hne (hagrees j hj hpos hne)
  · exact .of_clean hclean

/-! The two builds. -/

/-- The default build with `OFFSET_PROCESS_CACHE` taken out. -/
def uncachedBuild : Build := { defaultBuild with offsetProcessCache := false }

/-- The descriptor without its cache. -/
def FdInfo.sansCache (f : FdInfo) : FdInfo :=
  { f with offDbMapping := fun _ => emptyItem, offDbPtr := 0 }

/-- The worlds differ at most in the caches of the descriptors. -/
structure SansCache (w₁ w₂ : World) : Prop where
  table : w₂.table = w₁.table
  data : w₂.data = w₁.data
  fds : ∀ i, (w₂.fdTable i).sansCache = (w₁.fdTable i).sansCache

theorem SansCache.refl (w : World) : SansCache w w := ⟨rfl, rfl, fun _ => rfl⟩

theorem SansCache.setFd {g : FdInfo → FdInfo} (h : SansCache w₁ w₂) (i : Nat)
    (hg : ∀ f, (g f).sansCache = g f.sansCache) : SansCache (w₁.setFd i g) (w₂.setFd i g) := by
  refine ⟨h.table, h.data, fun j => ?_⟩
  by_cases hj : j = i
  · subst hj
    simp only [World.setFd, Function.update_self, hg, h.fds]
  · simp only [World.setFd, Function.update_of_ne hj, h.fds]

theorem SansCache.fill (w : World) (i ix : Nat) (offset : Int) :
    SansCache (w.setFd i (cacheFill offset ix)) w := by
  refine ⟨rfl, rfl, fun j => ?_⟩
  by_cases hj : j = i
  · subst hj
    simp only [World.setFd, Function.update_self]
    rfl
  · simp only [World.setFd, Function.update_of_ne hj]

theorem onData_sansCache {α : Type} (h : SansCache w₁ w₂) (x : Op DataShm α) :
    Matches SansCache (onData x w₁) (onData x w₂) := by
  refine .zoom (Q := Eq) ?_ ?_
  · rw [h.data]
    cases x w₁.data <;> exact ⟨rfl, rfl⟩
  · rintro d _ rfl
    exact ⟨h.table, rfl, h.fds⟩

theorem stamp_sansCache (h : SansCache w₁ w₂) (fd : Int) (type : Nat) :
    Matches SansCache (setFddes fd (deferStamp env type) w₁)
      (setFddes fd (deferStamp env type) w₂) :=
  .ite (fun _ => .modify (h.setFd _ (fun _ => rfl))) (fun _ => .throw _ h)

theorem setMb_sansCache (h : SansCache w₁ w₂) (m : Int) (F : MetaBucket → MetaBucket) :
    Matches SansCache (setMb m F w₁) (setMb m F w₂) :=
  ⟨rfl, by rw [h.table], h.data, h.fds⟩

/-- With a cache that agrees with the walk, the lookup finds what the walk finds. -/
theorem locate_sansCache {k : Nat} {fd : Int} (hu : UserFd w fd k)
    (hc : CacheAgrees w (w.fdTable fd.toNat)) (hoff : 0 ≤ offset) :
    Matches SansCache
      (locate defaultBuild fd (w.fdTable fd.toNat) (w.table.mb k).firstDbucket offset w)
      (locate uncachedBuild fd (w.fdTable fd.toNat) (w.table.mb k).firstDbucket offset w) := by
  have hplain : locate uncachedBuild fd (w.fdTable fd.toNat) (w.table.mb k).firstDbucket offset w =
      onData (walkLoop (hops offset) (w.table.mb k).firstDbucket) w := by
    change (onData (walkLoop (hops offset) (w.table.mb k).firstDbucket) >>= _) w = _
    cases hrun : onData (walkLoop (hops offset) (w.table.mb k).firstDbucket) w with
    | error e w' => rw [bind_of_error hrun]
    | ok r w' =>
        rw [bind_of_ok hrun]
        cases r <;> rfl
  rw [hplain, locate, run_ite]
  dsimp only
  rw [if_pos (show defaultBuild.offsetProcessCache = true from rfl)]
  split
  · next hhit =>
    rw [cacheLookup_eq] at hhit ⊢
    split at hhit
    · next heq =>
      have hwalk := hc 0 (by decide) (heq ▸ hoff) hhit
      rw [heq, hu.mindex] at hwalk
      rw [if_pos heq, onData_of_ok hwalk]
      exact ⟨rfl, .refl w⟩
    · exact absurd rfl hhit
  · change Matches SansCache ((onData (walkLoop (hops offset) (w.table.mb k).firstDbucket) >>= _) w) _
    cases hrun : onData (walkLoop (hops offset) (w.table.mb k).firstDbucket) w with
    | error e w' =>
        rw [bind_of_error hrun]
        exact ⟨rfl, .refl w'⟩
    | ok r w' =>
        rw [bind_of_ok hrun]
        cases r with
        | none => exact ⟨rfl, .refl w'⟩
        | some ix =>
            change Matches SansCache ((setFddes fd (cacheFill offset ix) >>= _) w') _
            rw [setFddes_eq hu.pos hu.lt]
            exact ⟨rfl, .fill w' _ _ _⟩

theorem writeLoop_build (b : Build) (hbld : b.getFreeDbucketIx = bucketIxAllocAllRandom)
    (guarded : Bool) (fuel dbindex off : Nat) (buf : List Byte) :
    writeLoop b env guarded fuel dbindex off buf =
      writeLoop defaultBuild env guarded fuel dbindex off buf := by
  induction fuel generalizing dbindex off buf with
  | zero => rfl
  | succ fuel ih =>
      have hnext : writeLoop.nextOrNew b env = writeLoop.nextOrNew defaultBuild env := by
        funext round dbindex nextIx
        rw [writeLoop.nextOrNew, hbld]
        rfl
      rw [writeLoop, writeLoop, hnext]
      simp only [ih]

theorem sysPread_sansCache (fd : Int) (count : UInt64) (hoff : 0 ≤ offset)
    (hc : (w.fdTable fd.toNat).IsOpen → CacheAgrees w (w.fdTable fd.toNat)) :
    Matches SansCache (sysPread defaultBuild env fd count offset w)
      (sysPread uncachedBuild env fd count offset w) := by
  unfold sysPread
  refine onFd_matches (.refl w) rfl (fun m hu => ?_)
  rw [run_get_bind, run_get_bind, hu.mindex]
  refine (locate_sansCache hu (hc ⟨hu.nonempty, hu.exclusive⟩) hoff).bind (fun r u₁ u₂ h => ?_)
  cases r with
  | none => exact .pure _ h
  | some ix =>
      refine (onData_sansCache h _).bind (fun data _ _ h => ?_)
      refine .ite (fun _ => ?_) (fun _ => .pure _ h)
      exact (stamp_sansCache h _ _).bind (fun _ _ _ h => .pure _ h)

theorem sysPwrite_sansCache (fd : Int) (buf : List Byte) (hoff : 0 ≤ offset)
    (hc : (w.fdTable fd.toNat).IsOpen → CacheAgrees w (w.fdTable fd.toNat)) :
    Matches SansCache (sysPwrite defaultBuild env fd buf offset w)
      (sysPwrite uncachedBuild env fd buf offset w) := by
  unfold sysPwrite
  refine onFd_matches (.refl w) rfl (fun m hu => ?_)
  rw [run_get_bind, run_get_bind, hu.mindex]
  refine (locate_sansCache hu (hc ⟨hu.nonempty, hu.exclusive⟩) hoff).bind (fun r u₁ u₂ h => ?_)
  cases r with
  | none => exact .pure _ h
  | some ix =>
      dsimp only
      rw [writeLoop_build uncachedBuild rfl]
      refine (onData_sansCache h _).bind (fun r _ _ h => ?_)
      refine .ite (fun _ => ?_) (fun _ => ?_)
      · refine (stamp_sansCache h _ _).bind (fun _ _ _ h => ?_)
        refine (setMb_sansCache h _ _).bind (fun _ _ _ h => ?_)
        exact (setMb_sansCache h _ _).bind (fun _ _ _ h => .pure _ h)
      · exact (setMb_sansCache h _ _).bind (fun _ _ _ h => .pure _ h)

/-! Runs. -/

/-- Two ends of an event that differ at most in the caches of the descriptors. -/
structure SameEnd (p q : Out × Sys) : Prop where
  out : q.1 = p.1
  table : q.2.table = p.2.table
  data : q.2.data = p.2.data
  fds : ∀ pid i, (q.2.fds pid i).sansCache = (p.2.fds pid i).sansCache

theorem exec_sansCache {b₁ b₂ : Build} {s : Sys} (e : Event)
    (h : Matches SansCache (callOp b₁ e.env e.call (s.view e.pid))
      (callOp b₂ e.env e.call (s.view e.pid))) : SameEnd (exec b₁ s e) (exec b₂ s e) := by
  have hput : ∀ w₁ w₂ : World, SansCache w₁ w₂ → ∀ pid i,
      ((s.put e.pid w₂).fds pid i).sansCache = ((s.put e.pid w₁).fds pid i).sansCache := by
    intro w₁ w₂ h pid i
    by_cases hpid : pid = e.pid
    · subst hpid
      simp only [Sys.put, Function.update_self, h.fds]
    · simp only [Sys.put, Function.update_of_ne hpid]
  unfold exec
  revert h
  cases callOp b₁ e.env e.call (s.view e.pid) with
  | ok r w₁ =>
      cases callOp b₂ e.env e.call (s.view e.pid) with
      | ok r₂ w₂ =>
          rintro ⟨rfl, h⟩
          exact ⟨rfl, h.table, h.data, hput _ _ h⟩
      | error x w₂ => exact False.elim
  | error x w₁ =>
      cases callOp b₂ e.env e.call (s.view e.pid) with
      | ok r₂ w₂ => exact False.elim
      | error x₂ w₂ =>
          rintro ⟨rfl, h⟩
          exact ⟨rfl, h.table, h.data, hput _ _ ⟨h.table, h.data, fun _ => rfl⟩⟩

theorem CacheWalks.pread_sameEnd {fd : Int} (hc : CacheWalks s pid fd.toNat) (env : Env)
    (hoff : 0 ≤ offset) (count : UInt64) :
    SameEnd (exec defaultBuild s ⟨pid, env, .pread fd count offset⟩)
      (exec uncachedBuild s ⟨pid, env, .pread fd count offset⟩) :=
  exec_sansCache _ (sysPread_sansCache fd count hoff hc)

theorem CacheWalks.pwrite_sameEnd {fd : Int} (hc : CacheWalks s pid fd.toNat) (env : Env)
    (hoff : 0 ≤ offset) (buf : List Byte) :
    SameEnd (exec defaultBuild s ⟨pid, env, .pwrite fd buf offset⟩)
      (exec uncachedBuild s ⟨pid, env, .pwrite fd buf offset⟩) :=
  exec_sansCache _ (sysPwrite_sansCache fd buf hoff hc)

/-- The calls that return or exit and, while the descriptor is open, do not remove
its file. -/
def KeepsFile (pid i : Nat) (s : Sys) (e : Event) (out : Out) : Prop :=
  ReturnsOrExits out ∧
    ((s.fds pid i).IsOpen → ¬ FreesFile e.env s.table (s.fds pid i).mindex e.call)

/-- From a state in which the descriptor is not open, through any calls of any
processes that do not remove its file while it is open: its cache agrees with the
walk, and every `pread` and `pwrite` through it with an offset that is not negative
ends as it does without the cache. -/
theorem cache_agrees_with_walk (pid : Nat) (fd : Int)
    (hreach : Run defaultBuild AnyCall initSys s₀) (hclosed : ¬ (s₀.fds pid fd.toNat).IsOpen)
    (hrun : Run defaultBuild (KeepsFile pid fd.toNat) s₀ s) :
    CacheWalks s pid fd.toNat ∧ ∀ (env : Env) (offset : Int), 0 ≤ offset →
      (∀ count, SameEnd (exec defaultBuild s ⟨pid, env, .pread fd count offset⟩)
        (exec uncachedBuild s ⟨pid, env, .pread fd count offset⟩)) ∧
      ∀ buf, SameEnd (exec defaultBuild s ⟨pid, env, .pwrite fd buf offset⟩)
        (exec uncachedBuild s ⟨pid, env, .pwrite fd buf offset⟩) := by
  have hinv₀ := run_linkInv initSys_linkInv (fun _ _ _ h => h) hreach
  have hwalks : LinkInv s ∧ CacheWalks s pid fd.toNat := by
    refine hrun.invariant (P := fun s => LinkInv s ∧ CacheWalks s pid fd.toNat)
      ⟨hinv₀, fun hopen => absurd hopen hclosed⟩ ?_
    rintro s e out s' ⟨hinv, hc⟩ ⟨hout, hspares⟩ hexec
    exact ⟨(hinv.step hexec hout).2.2, hinv.cacheWalks hexec hout hspares hc⟩
  exact ⟨hwalks.2, fun env offset hoff =>
    ⟨hwalks.2.pread_sameEnd env hoff, hwalks.2.pwrite_sameEnd env hoff⟩⟩

/-- After `/a` was created and written to at offset 0, the bucket is cached. -/
theorem cache_agrees_after_pwrite :
    ((afterCalls [.open pathA 66 0, .pwrite 1024 [1, 2, 3] 0]).fds 0 1024).offDbMapping 0 = ⟨0, 0⟩ ∧
      CacheWalks (afterCalls [.open pathA 66 0, .pwrite 1024 [1, 2, 3] 0]) 0 1024 := by
  refine ⟨by decide +kernel, (cache_agrees_with_walk 0 1024 .refl ?_ ?_).1⟩
  · exact fun hopen => absurd hopen.1 (by decide)
  · refine run_of_allReturn (by decide +kernel) (fun c hc s out hret => ?_)
    refine ⟨(Out.isRet_spec hret).1, fun _ hrem => ?_⟩
    rcases List.mem_cons.mp hc with rfl | hc
    · exact hrem
    · rcases List.mem_cons.mp hc with rfl | hc
      · exact hrem
      · cases hc

end Spacefish
