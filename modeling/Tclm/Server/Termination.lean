/-
  Tclm.Server.Termination

  When `unregister_process` returns.

  A pass of its loop visits every entry of `held_locks` and releases it.  An entry goes
  when there is something to release: a claim of the process for the path, in whatever
  spelling.  If an entry is left without a claim, the loop never ends.  That happens
  when a request fails late, when `release` withdraws a request that was made for
  another path, and when a lock is released under another spelling of its path.

  In runs in which no call takes away the claim of an entry that stays, every entry has
  its claim (`Backed`), and one pass of the loop is enough.
-/

import Tclm.Server.Cleanup

namespace Tclm.Server

open LockForest (Enters Leaves)

-- ============================================================================
-- Releasing what is claimed
-- ============================================================================

namespace Lock

open NamedTree (find)

/-- A request that waits on the path is found, if nothing else is. -/
theorem seek_ne_nothing_of_cancel {p : ProcessRef} {mode : UInt8} {path : LockPath} {l : Lock}
    (h : (l.val.cancel p mode).isSome) : seek p mode path l ≠ .nothing := by
  have hroot : l.val.seek p mode = .request l.val := if_pos h
  cases path with
  | nil =>
      simp only [seek, hroot]
      split <;> exact Found.noConfusion
  | cons c rest =>
      simp only [seek, hroot]
      split
      · split
        · exact Found.noConfusion
        · assumption
      · exact Found.noConfusion

end Lock

namespace LockForest

/-- Where a process has a claim, a release under the path of the claim finds something. -/
theorem Sound.seek_ne_nothing {f : LockForest} (hf : f.Sound) {x : Claim} (hx : x ∈ f.claims) :
    f.seek x.process x.mode x.path ≠ .nothing := by
  obtain ⟨y, hy, hclaim⟩ := mem_claims_iff.mp hx
  obtain ⟨c, l, hl, hmem⟩ := mem_nodes.mp hy
  obtain ⟨ρ, haddr, hfind⟩ := NamedTree.find_of_mem_nodes l (hf.unique c l hl) hmem
  have hfound : ∀ rest, x.path = y.1 ++ rest → Lock.seek x.process x.mode rest y.2 ≠ .nothing →
      f.seek x.process x.mode x.path ≠ .nothing := by
    intro rest hpath hne
    rw [hpath, haddr, List.append_assoc, List.singleton_append, seek_of_lookup hl,
      Lock.seek_append hfind hne]
    exact hne
  rcases hclaim with ⟨hpath, m, hm, hholds⟩ | ⟨r, hr, hrx⟩
  · refine hfound [] (by simpa using hpath.symm) ?_
    have hunlock := LockState.tryUnlock_isSome.mpr ⟨m, hm, hholds⟩
    simp [Lock.seek, hunlock]
  · have hat := (hf.seats c l hl y hmem r hr).1
    have hp : r.requester = x.process := congrArg Claim.process hrx
    have hm : r.mode = x.mode := congrArg Claim.mode hrx
    have hpath : r.path = x.path := congrArg Claim.path hrx
    refine hfound r.remaining (hpath.symm.trans hat.path) (Lock.seek_ne_nothing_of_cancel ?_)
    cases hcancel : y.2.val.cancel x.process x.mode with
    | some s' => rfl
    | none => exact absurd ⟨hp, hm⟩ (LockState.cancel_eq_none hcancel r hr)

/-- `release` fails only if there is nothing to find. -/
theorem Leaves.seek_eq_nothing {f f' : LockForest} {p : ProcessRef} {mode : UInt8}
    {path rest : LockPath} {as : List LockRequest} {c : LockName} {l l' : Lock}
    (h : Leaves f p mode path .notHeld f' as c rest l l') : f.seek p mode path = .nothing := by
  obtain ⟨-, -, hnot, hcancel⟩ := h.releases.of_notHeld
  rw [h.path_eq, seek_of_lookup h.lookup, Lock.seek_of_notReleased hnot, LockState.seek, hcancel]
  rfl

/-- A release succeeds exactly if there is something to find. -/
theorem release_success_iff {f f' : LockForest} {p p' : Process} {path : PathString} {mode : UInt8}
    {ret : ReleaseStatus} {answered : Finset LockRequest}
    (h : f.release p path mode = .ok (ret, f', p', answered)) :
    ret = .success ↔ f.seek p.object mode (splitPath path) ≠ .nothing := by
  obtain ⟨-, ⟨hnone, rfl, -⟩ | ⟨as, l, l', -, hleave⟩⟩ := release_spec h
  · rw [splitPath_eq path]
    simp [seek, hnone]
  · cases ret with
    | success =>
        have hne := hleave.releases.seek_ne_nothing rfl
        rw [← seek_of_lookup hleave.lookup, ← splitPath_eq path] at hne
        exact iff_of_true rfl hne
    | notHeld =>
        exact iff_of_false (fun h => by cases h) (not_not.mpr hleave.seek_eq_nothing)

/-- Releasing something that the process has a claim for succeeds. -/
theorem Sound.release_success {f : LockForest} (hf : f.Sound) {p : Process} {path : PathString}
    {mode : UInt8} (hclaim : (⟨p.object, mode, splitPath path⟩ : Claim) ∈ f.claims) :
    ∃ f' answered,
      f.release p path mode = .ok (.success, f', p.removeHeldLock path mode, answered) := by
  obtain ⟨⟨ret, f', p', answered⟩, hrun⟩ := hf.release_ok p path mode
  obtain rfl := (release_success_iff hrun).mpr (hf.seek_ne_nothing hclaim)
  obtain ⟨rfl, -⟩ := release_spec hrun
  exact ⟨f', answered, hrun⟩

end LockForest

-- ============================================================================
-- A claim for every entry
-- ============================================================================

/-- How many entries a process has for a path, in whatever spelling, in a mode. -/
def Process.recorded (p : Process) (path : LockPath) (mode : UInt8) : Nat :=
  p.heldLocks.entries.countP fun e => splitPath e.1 = path ∧ e.2 = mode

theorem Process.recorded_removeHeldLock_le {p : Process} {path : PathString} {mode : UInt8}
    (path' : LockPath) (mode' : UInt8) :
    (p.removeHeldLock path mode).recorded path' mode' ≤ p.recorded path' mode' :=
  List.filter_sublist.countP_le

theorem Process.recorded_addHeldLock_le {p : Process} {path : PathString} {mode : UInt8}
    (path' : LockPath) (mode' : UInt8) :
    (p.addHeldLock path mode).recorded path' mode' ≤
      p.recorded path' mode' + if splitPath path = path' ∧ mode = mode' then 1 else 0 := by
  by_cases hmem : (path, mode) ∈ p.heldLocks.entries
  · rw [addHeldLock_of_mem hmem]
    exact Nat.le_add_right _ _
  · rw [recorded, countP_addHeldLock hmem]
    simp [recorded]

namespace Backend

/-- The processes have no more entries for a path and a mode than claims. -/
def Backed (b : Backend) : Prop :=
  ∀ id proc, b.processes.lookup id = some proc → ∀ path mode,
    proc.recorded path mode ≤ b.forest.claims.count ⟨proc.object, mode, path⟩

/-- A condition on release calls: of every claim that the call takes away or may take
    away, enough are left for the entries that are left. -/
def keepsBacked (b : Backend) : Op → Bool
  | .releaseLock pid path mode =>
      match b.processes.lookup pid with
      | some proc =>
          let risk := b.forest.atRisk proc.object mode (splitPath path)
          decide (∀ c ∈ risk, ∀ e ∈ b.processes.entries, e.2.object = c.process →
            (if e.1 = pid then e.2.removeHeldLock path mode else e.2).recorded c.path c.mode +
              risk.count c ≤ b.forest.claims.count c)
      | none => true
  | _ => true

theorem Move.backed {b b' : Backend} {op : Op} {res : Result} {answered : Finset LockRequest}
    (h : Move b op res answered b') (hsound : b.forest.Sound) (hkeeps : keepsBacked b op = true)
    (hb : Backed b) : Backed b' := by
  intro id q hq path' mode'
  cases h with
  | idle | tick => exact hb id q hq path' mode'
  | register hfree =>
      rcases SortedMap.lookup_insert_cases hfree hq with ⟨-, rfl⟩ | hq
      · exact Nat.zero_le _
      · exact hb id q hq path' mode'
  | @enter _ _ pid path mode create proc r ret f' l l' r' hask hp hsame henter hret =>
      have hclaim : r.claim = ⟨proc.object, mode, splitPath path⟩ := hsame.claim_eq
      change q.recorded path' mode' ≤ f'.claims.count _
      rw [henter.claims_eq hret, hclaim]
      rcases lookup_update_cases (f := f') hp hq with ⟨rfl, rfl⟩ | ⟨-, hq⟩
      · refine (Process.recorded_addHeldLock_le path' mode').trans ?_
        rw [Multiset.count_cons]
        refine Nat.add_le_add (hb _ proc hp path' mode') (Nat.le_of_eq ?_)
        simp [Process.addHeldLock, and_comm, eq_comm]
      · exact (hb id q hq path' mode').trans (Multiset.count_le_count_cons _ _ _)
  | @add pid path res proc l hp hl =>
      have hupd := LockForest.updates_setRoot hl (Lock.createNotHeld proc.object (splitPath path) l).2
      have hclaims := LockForest.claims_of_adds hupd (LockForest.createNotHeld_adds ..)
      change q.recorded path' mode' ≤ (LockForest.setRoot ..).claims.count _
      rw [hclaims]
      exact hb id q hq path' mode'
  | @release pid path mode proc f' as l l' hp hleave =>
      obtain ⟨x, -, -, hclaims, hle⟩ := hleave.le_atRisk hsound.seats
      simp only [keepsBacked, hp, decide_eq_true_eq] at hkeeps
      change q.recorded path' mode' ≤ f'.claims.count _
      -- the process before the call
      obtain ⟨q₀, hq₀, hobj, hafter, hbefore⟩ : ∃ q₀, b.processes.lookup id = some q₀ ∧
          q₀.object = q.object ∧
          (if id = pid then q₀.removeHeldLock path mode else q₀) = q ∧
          q.recorded path' mode' ≤ q₀.recorded path' mode' := by
        rcases lookup_update_cases hp hq with ⟨rfl, rfl⟩ | ⟨hid, hq⟩
        · exact ⟨proc, hp, rfl, if_pos rfl, Process.recorded_removeHeldLock_le ..⟩
        · exact ⟨q, hq, rfl, if_neg hid, Nat.le_refl _⟩
      have hcount := congrArg (Multiset.count ⟨q.object, mode', path'⟩) hclaims
      have hrisk := Multiset.count_le_of_le ⟨q.object, mode', path'⟩ hle
      rw [← Multiset.add_cons, Multiset.count_add] at hcount
      by_cases hc : ⟨q.object, mode', path'⟩ ∈ b.forest.atRisk proc.object mode (splitPath path)
      · have hleft := hkeeps _ hc (id, q₀) (SortedMap.lookup_eq_some.mp hq₀) hobj
        rw [hafter] at hleft
        change q.recorded path' mode' + _ ≤ _ at hleft
        omega
      · have hbacked := hb id q₀ hq₀ path' mode'
        rw [Multiset.count_eq_zero.mpr hc] at hrisk
        rw [hobj] at hbacked
        omega

/-- During the loop of `unregister_process` the entries to be visited stay entries, and
    they stay backed. -/
theorem Unregistering.backed {b b₁ : Backend} {id : UInt32} {answered : Finset LockRequest}
    {locks : List (PathString × UInt8)} (h : Unregistering b id answered b₁ locks)
    (hsound : b.forest.Sound) (hb : Backed b)
    (hkeeps : ∀ b₁ op, Within b (.unregisterProcess id) b₁ op → keepsBacked b₁ op = true) :
    b₁.forest.Sound ∧ Backed b₁ ∧ ∃ proc, b₁.processes.lookup id = some proc ∧ locks.Nodup ∧
      ∀ e ∈ locks, e ∈ proc.heldLocks.entries := by
  induction h with
  | start hp => exact ⟨hsound, hb, _, hp, List.nodup_nil, fun e he => by cases he⟩
  | pass _ hp _ ih =>
      obtain ⟨hsound₁, hb₁, -⟩ := ih
      exact ⟨hsound₁, hb₁, _, hp, SortedList.nodup _, fun e he => he⟩
  | @call answered b₁ b₂ path mode locks res more hloop hrel ih =>
      obtain ⟨hsound₁, hb₁, proc, hproc, hnodup, hlocks⟩ := ih
      obtain ⟨hfresh, hnodup⟩ := List.nodup_cons.mp hnodup
      have hmove := move_of_releaseLock hrel
      refine ⟨hmove.forest_sound hsound₁,
        hmove.backed hsound₁ (hkeeps _ _ (.release hloop)) hb₁, ?_⟩
      cases hmove with
      | idle => exact ⟨proc, hproc, hnodup, fun e he => hlocks e (List.mem_cons_of_mem _ he)⟩
      | tick hop => cases hop
      | enter hask => cases hask
      | release hp hleave =>
          obtain rfl := Option.some.inj (hproc.symm.trans hp)
          refine ⟨_, lookup_update hp, hnodup, fun e he => ?_⟩
          refine Process.mem_removeHeldLock.mpr ⟨hlocks e (List.mem_cons_of_mem _ he), ?_⟩
          rintro rfl
          exact hfresh he

/-- Every entry that the loop visits is released. -/
theorem Unregistering.release_success {b b₁ : Backend} {id : UInt32}
    {answered : Finset LockRequest} {path : PathString} {mode : UInt8}
    {locks : List (PathString × UInt8)} (h : Unregistering b id answered b₁ ((path, mode) :: locks))
    (hsound : b.forest.Sound) (hb : Backed b)
    (hkeeps : ∀ b₁ op, Within b (.unregisterProcess id) b₁ op → keepsBacked b₁ op = true) :
    ∃ proc f' more, b₁.processes.lookup id = some proc ∧
      b₁.forest.release proc path mode =
        .ok (.success, f', proc.removeHeldLock path mode, more) := by
  obtain ⟨hsound₁, hb₁, proc, hproc, -, hlocks⟩ := h.backed hsound hb hkeeps
  have hpos : 0 < proc.recorded (splitPath path) mode :=
    List.countP_pos_iff.mpr ⟨(path, mode), hlocks _ (List.mem_cons_self ..), by simp⟩
  have hclaim := Multiset.count_pos.mp (Nat.lt_of_lt_of_le hpos (hb₁ id proc hproc _ mode))
  obtain ⟨f', more, hrun⟩ := hsound₁.release_success hclaim
  exact ⟨proc, f', more, hproc, hrun⟩

/-- A pass over all entries leaves none. -/
theorem Unregistering.releasePass_clears {b b₁ : Backend} {id : UInt32} {proc : Process}
    {answered : Finset LockRequest} {locks : List (PathString × UInt8)}
    (h : Unregistering b id answered b₁ locks) (hproc : b₁.processes.lookup id = some proc)
    (hall : ∀ e ∈ proc.heldLocks.entries, e ∈ locks) (hsound : b.forest.Sound) (hb : Backed b)
    (hkeeps : ∀ b₁ op, Within b (.unregisterProcess id) b₁ op → keepsBacked b₁ op = true) :
    ∃ f' p' answered', releasePass locks b₁.forest proc answered = .ok (f', p', answered') ∧
      p'.heldLocks.entries = [] := by
  induction locks generalizing b₁ proc answered with
  | nil =>
      refine ⟨_, proc, _, rfl, List.eq_nil_iff_forall_not_mem.mpr fun e he => ?_⟩
      exact absurd (hall e he) List.not_mem_nil
  | cons e locks ih =>
      obtain ⟨path, mode⟩ := e
      obtain ⟨proc', f₁, more, hproc', hrun⟩ := h.release_success hsound hb hkeeps
      obtain rfl := Option.some.inj (hproc.symm.trans hproc')
      have hnext := h.call (releaseLock_of_release hproc hrun)
      have hall' : ∀ e ∈ (proc.removeHeldLock path mode).heldLocks.entries, e ∈ locks := by
        intro e he
        obtain ⟨he, hne⟩ := Process.mem_removeHeldLock.mp he
        exact (List.mem_cons.mp (hall e he)).resolve_left hne
      obtain ⟨f', p', answered', hpass, hempty⟩ := ih hnext (lookup_update hproc) hall'
      refine ⟨f', p', answered', ?_, hempty⟩
      simp only [releasePass, hrun, bind, Except.bind]
      exact hpass

theorem backed_init : Backed init := by
  intro id proc hproc
  cases hproc

theorem Backed.drop {b : Backend} {id : UInt32} (h : Backed b) : Backed (b.drop id) :=
  fun id' q hq => h id' q (lookup_of_drop hq)

theorem backed_of_run {b : Backend}
    (h : Lts.Reachable (GuardedStep fun b op => keepsBacked b op = true) init b) :
    b.forest.Sound ∧ Backed b := by
  refine invariant_of_guarded (fun b => b.forest.Sound ∧ Backed b) h
    ⟨LockForest.sound_empty, backed_init⟩ ?_ fun hb => ⟨hb.1, hb.2.drop⟩
  rintro b₁ op res answered b₂ hkeeps ⟨hsound, hbacked⟩ hmove
  exact ⟨hmove.forest_sound hsound, hmove.backed hsound hkeeps hbacked⟩

/-- If no release call of the run, and none that the loop itself makes, takes away the
    claim of an entry that stays, `unregister_process` returns after at most one turn of
    its loop, and every entry that it visits is released. -/
theorem unregister_returns {b : Backend} {id : UInt32} {proc : Process}
    (h : Lts.Reachable (GuardedStep fun b op => keepsBacked b op = true) init b)
    (hproc : b.processes.lookup id = some proc)
    (hkeeps : ∀ b₁ op, Within b (.unregisterProcess id) b₁ op → keepsBacked b₁ op = true) :
    (∃ answered b', ∀ fuel, 0 < fuel →
      b.unregisterProcess fuel id = .ok (.success, answered, b')) ∧
    ∀ answered b₁ path mode locks, Unregistering b id answered b₁ ((path, mode) :: locks) →
      ∃ more b₂, b₁.releaseLock id path mode = .ok (.released, more, b₂) := by
  obtain ⟨hsound, hb⟩ := backed_of_run h
  constructor
  · by_cases hcount : proc.getLockCount > 0
    · have hstart : Unregistering b id ∅ b proc.heldLocks.entries :=
        (Unregistering.start hproc).pass hproc hcount
      obtain ⟨f', p', answered, hpass, hempty⟩ :=
        hstart.releasePass_clears hproc (fun e he => he) hsound hb hkeeps
      have hdone : ¬ p'.getLockCount > 0 := by simp [Process.getLockCount, SortedList.size, hempty]
      refine ⟨answered, { b with forest := f', processes := b.processes.erase id }, ?_⟩
      intro fuel hfuel
      obtain ⟨fuel, rfl⟩ := Nat.exists_eq_succ_of_ne_zero (Nat.pos_iff_ne_zero.mp hfuel)
      have hloop : releaseLoop (fuel + 1) b.forest proc ∅ = .ok (f', p', answered) := by
        simp only [releaseLoop, hcount, if_true, hpass, bind, Except.bind]
        cases fuel <;> simp [releaseLoop, hdone]
      simp [unregisterProcess, tryDestroy, hproc, hloop, bind, Except.bind]
    · refine ⟨∅, { b with processes := b.processes.erase id }, ?_⟩
      intro fuel _
      have hloop : releaseLoop fuel b.forest proc ∅ = .ok (b.forest, proc, ∅) := by
        cases fuel <;> simp [releaseLoop, hcount]
      simp [unregisterProcess, tryDestroy, hproc, hloop, bind, Except.bind]
  · intro answered b₁ path mode locks hloop
    obtain ⟨proc₁, f', more, hproc₁, hrun⟩ := hloop.release_success hsound hb hkeeps
    exact ⟨more, _, releaseLock_of_release hproc₁ hrun⟩

theorem unregister_returns_furnished :
    ∃ answered b', ∀ fuel, 0 < fuel →
      (after 1 furnished).unregisterProcess fuel 0 = .ok (.success, answered, b') := by
  have hrun : along keepsBacked 1 furnished init = true := by decide +kernel
  have hloop : ((after 1 furnished).processes.lookup 0).any (fun proc =>
      decide (proc.heldLocks.size = 2) &&
        passMeets keepsBacked 0 proc.heldLocks.entries (after 1 furnished)) = true := by
    decide +kernel
  obtain ⟨proc, hproc, hpass⟩ := (Option.any_eq_true _ _).mp hloop
  exact (unregister_returns (reachable_along hrun) hproc
    (within_of_passMeets hproc rfl (Bool.and_eq_true_iff.mp hpass).2)).1

-- ============================================================================
-- A loop that does not end
-- ============================================================================

/-- A pass over entries that cannot be released changes nothing. -/
theorem releasePass_stuck {f : LockForest} {p : Process} {locks : List (PathString × UInt8)}
    (h : ∀ e ∈ locks, (f.release p e.1 e.2).toOption.map Prod.fst = some .notHeld)
    (answered : Finset LockRequest) : releasePass locks f p answered = .ok (f, p, answered) := by
  induction locks with
  | nil => rfl
  | cons e locks ih =>
      obtain ⟨path, mode⟩ := e
      have hstatus := h (path, mode) (List.mem_cons_self ..)
      have hrest := ih fun e he => h e (List.mem_cons_of_mem _ he)
      cases hrun : f.release p path mode with
      | error e => simp [hrun, Except.toOption] at hstatus
      | ok x =>
          obtain ⟨ret, f', p', more⟩ := x
          obtain rfl : ret = .notHeld := by simpa [hrun, Except.toOption] using hstatus
          obtain ⟨rfl, ⟨-, -, rfl, rfl⟩ | ⟨as, l, l', rfl, hleave⟩⟩ := LockForest.release_spec hrun
          · simpa [releasePass, hrun, bind, Except.bind] using hrest
          · obtain ⟨rfl, rfl, -, -⟩ := hleave.releases.of_notHeld
            obtain rfl : f' = f := hleave.result.trans (LockForest.setRoot_self hleave.lookup)
            simpa [releasePass, hrun, bind, Except.bind] using hrest

theorem releaseLoop_stuck {f : LockForest} {p : Process}
    (h : ∀ e ∈ p.heldLocks.entries, (f.release p e.1 e.2).toOption.map Prod.fst = some .notHeld)
    (hcount : p.getLockCount > 0) (fuel : Nat) (answered : Finset LockRequest) :
    releaseLoop fuel f p answered = .error .outOfFuel := by
  induction fuel with
  | zero => simp [releaseLoop, hcount]
  | succ fuel ih =>
      simp only [releaseLoop, hcount, if_true, releasePass_stuck h, bind, Except.bind]
      exact ih

/-- Process 0 has asked for `a.b.c`, which does not exist, and waited behind its own lock
    on `a.b`; the request has failed when it gave up that lock, and the entry is still
    there. -/
def hanging : List Op :=
  [.registerProcess, .createLock 0 [0x61, 0x2E, 0x62] true,
    .acquireLock 0 [0x61, 0x2E, 0x62, 0x2E, 0x63] 0, .releaseLock 0 [0x61, 0x2E, 0x62] 2]

/-- There are processes that cannot be unregistered: the loop does not end. -/
theorem unregister_not_returning :
    ¬ ∀ b id proc, Reachable b → b.processes.lookup id = some proc →
      ∃ fuel answered b', b.unregisterProcess fuel id = .ok (.success, answered, b') := by
  intro h
  have hstuck : ((after 1 hanging).processes.lookup 0).any (fun proc =>
      decide (proc.getLockCount > 0) && proc.heldLocks.entries.all fun e =>
        decide (((after 1 hanging).forest.release proc e.1 e.2).toOption.map Prod.fst =
          some .notHeld)) = true := by decide +kernel
  obtain ⟨proc, hproc, hstuck⟩ := (Option.any_eq_true _ _).mp hstuck
  obtain ⟨hcount, hentries⟩ := Bool.and_eq_true_iff.mp hstuck
  have hloop := releaseLoop_stuck
    (fun e he => of_decide_eq_true (List.all_eq_true.mp hentries e he)) (of_decide_eq_true hcount)
  obtain ⟨fuel, answered, b', hrun⟩ := h _ 0 proc (reachable_after 1 hanging) hproc
  simp [unregisterProcess, tryDestroy, hproc, hloop, bind, Except.bind] at hrun

end Backend

end Tclm.Server
