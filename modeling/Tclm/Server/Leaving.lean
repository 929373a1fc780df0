/-
  Tclm.Server.Leaving

  The requests of considerate users are always served.

  Only `unregister_process` can run for ever, when an entry of `held_locks` is left without
  a claim (`Termination`).  That does not happen to processes that write paths as the daemon
  writes them, acquire locks that exist, and wait for the end of a request before the next
  one: a release takes away the claim of the entry that goes, and no other one.
-/

import Tclm.Server.Exchange
import Tclm.Server.Paths
import Tclm.Server.Progress
import Tclm.Server.Termination

namespace Tclm.Server

/-- The path is written the way the daemon writes it. -/
def Spelled (path : PathString) : Prop := Daemon.joinPath (splitPath path) = path

theorem Spelled.eq {s t : PathString} (hs : Spelled s) (ht : Spelled t)
    (h : splitPath s = splitPath t) : s = t := by
  rw [← hs, h, ht]

namespace Process

variable {p : Process} {path : PathString} {mode : UInt8}

/-- The paths of the entries are. -/
def Spelled (p : Process) : Prop := ∀ e ∈ p.heldLocks.entries, Tclm.Server.Spelled e.1

theorem Spelled.addHeldLock (h : p.Spelled) (hpath : Tclm.Server.Spelled path) :
    (p.addHeldLock path mode).Spelled := by
  intro e he
  by_cases hmem : (path, mode) ∈ p.heldLocks.entries
  · rw [addHeldLock_of_mem hmem] at he
    exact h e he
  · have hfree : p.heldLocks.find? (toLex (path, mode)) = none :=
      SortedList.find?_eq_none.mpr fun e' he' heq => hmem (toLex.injective heq ▸ he')
    rcases List.mem_cons.mp ((SortedList.insert_perm hfree).mem_iff.mp he) with rfl | he
    · exact hpath
    · exact h e he

theorem Spelled.removeHeldLock (h : p.Spelled) : (p.removeHeldLock path mode).Spelled :=
  fun e he => h e (mem_removeHeldLock.mp he).1

/-- An entry that is removed is the only one for its path. -/
theorem Spelled.recorded_removeHeldLock (h : p.Spelled) (hpath : Tclm.Server.Spelled path) :
    (p.removeHeldLock path mode).recorded (splitPath path) mode = 0 := by
  refine List.countP_eq_zero.mpr fun e he => ?_
  obtain ⟨he, hne⟩ := mem_removeHeldLock.mp he
  rw [decide_eq_true_eq]
  rintro ⟨hsplit, hmode⟩
  exact hne (Prod.ext ((h e he).eq hpath hsplit) hmode)

end Process

-- ============================================================================
-- Nothing is at risk but what is released
-- ============================================================================

namespace Lock

theorem mem_pendingBelow {path : LockPath} {a : Claim} : ∀ {π : LockPath} {l : Lock},
    a ∈ pendingBelow path l → ∃ y ∈ NamedTree.nodes π l, a ∈ y.2.val.pending := by
  induction path with
  | nil => exact fun ha => absurd ha (Multiset.notMem_zero a)
  | cons c rest ih =>
      intro π l ha
      rw [pendingBelow] at ha
      split at ha
      · rename_i child hfind
        have hchild : child ∈ l.children := List.mem_of_find?_eq_some hfind
        have hbelow : ∀ y ∈ NamedTree.nodes (π ++ [child.name]) child, y ∈ NamedTree.nodes π l :=
          fun y hy => NamedTree.mem_nodes.mpr (.inr ⟨child, hchild, hy⟩)
        rcases Multiset.mem_add.mp ha with ha | ha
        · exact ⟨_, hbelow _ (NamedTree.root_mem_nodes _ child), ha⟩
        · obtain ⟨y, hy, ha⟩ := ih (π := π ++ [child.name]) ha
          exact ⟨y, hbelow y hy, ha⟩
      · exact absurd ha (Multiset.notMem_zero a)

/-- Where a search comes upon a queue, a request of the process is in it. -/
theorem request_of_seek {p : ProcessRef} {mode : UInt8} {s : LockState} {path : LockPath} :
    ∀ {π : LockPath} {l : Lock}, seek p mode path l = .request s →
      ∃ y ∈ NamedTree.nodes π l, ∃ r ∈ y.2.val.lockRequests, r.requester = p := by
  have hroot : ∀ {π : LockPath} {l : Lock}, l.val.seek p mode = .request s →
      ∃ y ∈ NamedTree.nodes π l, ∃ r ∈ y.2.val.lockRequests, r.requester = p := by
    intro π l h
    rw [LockState.seek] at h
    split at h
    · rename_i hcancel
      obtain ⟨s', hcancel⟩ := Option.isSome_iff_exists.mp hcancel
      obtain ⟨pre, r, post, hq, hr, -⟩ := LockState.cancel_eq_some hcancel
      exact ⟨_, NamedTree.root_mem_nodes π l, r, by simp [hq], hr⟩
    · cases h
  induction path with
  | nil =>
      intro π l h
      rw [seek] at h
      split at h
      · cases h
      · exact hroot h
  | cons c rest ih =>
      intro π l h
      rw [seek] at h
      split at h
      · rename_i child hfind
        split at h
        · exact hroot h
        · obtain ⟨y, hy, hr⟩ := ih (π := π ++ [child.name]) h
          exact ⟨y, NamedTree.mem_nodes.mpr (.inr ⟨child, List.mem_of_find?_eq_some hfind, hy⟩), hr⟩
      · exact hroot h

end Lock

namespace LockForest

/-- Where requests wait for locks that exist, none of them fails. -/
theorem Present.doomed_eq {f : LockForest} (h : f.Present) (path : LockPath) : f.doomed path = 0 := by
  rw [doomed, Multiset.filter_eq_nil]
  intro a ha hnone
  obtain ⟨x, hx, ha⟩ : ∃ x ∈ f.nodes, a ∈ x.2.val.pending := by
    cases path with
    | nil => exact absurd ha (Multiset.notMem_zero a)
    | cons c rest =>
        rw [pending] at ha
        split at ha
        · rename_i l hl
          have hnodes : ∀ y ∈ NamedTree.nodes [c] l, y ∈ f.nodes :=
            fun y hy => mem_nodes.mpr ⟨c, l, hl, hy⟩
          rcases Multiset.mem_add.mp ha with ha | ha
          · exact ⟨_, hnodes _ (NamedTree.root_mem_nodes _ l), ha⟩
          · obtain ⟨y, hy, ha⟩ := Lock.mem_pendingBelow (π := [c]) ha
            exact ⟨y, hnodes y hy, ha⟩
        · exact absurd ha (Multiset.notMem_zero a)
  obtain ⟨r, hr, rfl⟩ := List.mem_map.mp (Multiset.mem_coe.mp ha)
  obtain ⟨hr, hcreate⟩ := List.mem_filter.mp hr
  have hfalse : r.createMissing = false := by simpa using hcreate
  exact h r.ticket (mem_tickets.mpr ⟨x, hx, r, hr, rfl⟩) hfalse (Option.isNone_iff_eq_none.mp hnone)

/-- A release by a process without requests puts at risk what it releases. -/
theorem Present.atRisk_le {f : LockForest} (h : f.Present) {p : ProcessRef} {mode : UInt8}
    {path : LockPath} (hwaits : f.waits p = 0) :
    f.atRisk p mode path ≤ {⟨p, mode, path⟩} := by
  rw [atRisk]
  split
  · exact Multiset.zero_le _
  · rw [h.doomed_eq]
    exact le_refl _
  · rename_i s hseek
    exfalso
    obtain ⟨x, hx, r, hr, hp⟩ : ∃ x ∈ f.nodes, ∃ r ∈ x.2.val.lockRequests, r.requester = p := by
      cases path with
      | nil => cases hseek
      | cons c rest =>
          rw [seek] at hseek
          split at hseek
          · rename_i l hl
            obtain ⟨x, hx, hr⟩ := Lock.request_of_seek (π := [c]) hseek
            exact ⟨x, mem_nodes.mpr ⟨c, l, hl, hx⟩, hr⟩
          · cases hseek
    have hmem : r.ticket ∈ f.waits p := mem_waits.mpr ⟨x, hx, r, hr, hp, rfl⟩
    rw [hwaits] at hmem
    exact Multiset.notMem_zero _ hmem

end LockForest

namespace Backend

/-- What holds when processes write paths as the daemon does and acquire locks that exist. -/
structure Kept (b : Backend) : Prop where
  sound : b.forest.Sound
  ticketed : Ticketed b
  distinct : Distinct b
  present : b.forest.Present
  spelled : ∀ id p, b.processes.lookup id = some p → p.Spelled
  backed : Backed b

theorem kept_init : Kept init where
  sound := LockForest.sound_empty
  ticketed := ticketed_init
  distinct := distinct_init
  present := LockForest.present_empty
  spelled := fun _ _ hp => by cases hp
  backed := backed_init

/-- A process without requests releases the claim of the entry that goes. -/
theorem Kept.keepsBacked {b : Backend} (h : Kept b) {pid : UInt32} {path : PathString}
    {mode : UInt8} (hpath : Spelled path) (hready : b.Ready (.releaseLock pid path mode)) :
    keepsBacked b (.releaseLock pid path mode) = true := by
  rw [Backend.keepsBacked]
  split
  · rename_i proc hp
    rw [decide_eq_true_eq]
    intro a ha e he hobj
    have hle : b.forest.atRisk proc.object mode (splitPath path) ≤
        {⟨proc.object, mode, splitPath path⟩} :=
      h.present.atRisk_le (hready pid proc rfl hp)
    obtain rfl := Multiset.mem_singleton.mp (Multiset.mem_of_le hle ha)
    have hid : e.1 = pid := h.distinct.unique (SortedMap.lookup_eq_some.mpr he) hp hobj
    have hproc : e.2 = proc := by
      have hlookup := SortedMap.lookup_eq_some.mpr he
      rw [hid, hp] at hlookup
      exact (Option.some.inj hlookup).symm
    rw [if_pos hid, hproc, (h.spelled pid proc hp).recorded_removeHeldLock hpath, Nat.zero_add]
    refine (Multiset.count_le_of_le _ hle).trans ?_
    rw [Multiset.count_singleton_self, Nat.one_le_iff_ne_zero, ← Nat.pos_iff_ne_zero,
      Multiset.count_pos]
    -- something is found, so the release takes away a claim, which is this one
    have hfound : b.forest.seek proc.object mode (splitPath path) ≠ .nothing := by
      intro hnothing
      rw [LockForest.atRisk, hnothing] at ha
      exact Multiset.notMem_zero _ ha
    obtain ⟨⟨ret, f', p', answered⟩, hrun⟩ := h.sound.release_ok proc path mode
    obtain rfl := (LockForest.release_success_iff hrun).mpr hfound
    obtain ⟨-, ⟨-, hret, -⟩ | ⟨as, l, l', -, hleave⟩⟩ := LockForest.release_spec hrun
    · cases hret
    · obtain ⟨x, -, -, hclaims, hrisk⟩ := hleave.le_atRisk h.sound.seats
      have hx := Multiset.mem_of_le (hrisk.trans hle) (Multiset.mem_cons_self x _)
      rw [hclaims, ← Multiset.mem_singleton.mp hx]
      exact Multiset.mem_cons_self _ _
  · rfl

/-- The path of an operation is written as the daemon writes it. -/
def PathSpelled : Op → Prop
  | .createLock _ path _ | .acquireLock _ path _ | .releaseLock _ path _ => Spelled path
  | .registerProcess | .unregisterProcess _ => True

theorem pathSpelled_of_asks {op : Op} {pid : UInt32} {path : PathString} {mode : UInt8}
    {create : Bool} (h : PathSpelled op) (hask : op.asks = some (pid, path, mode, create)) :
    Spelled path := by
  cases op with
  | registerProcess | unregisterProcess | releaseLock => cases hask
  | createLock pid' path' acquireX =>
      cases acquireX with
      | false => cases hask
      | true =>
          cases hask
          exact h
  | acquireLock =>
      cases hask
      exact h

theorem Move.spelled {b b' : Backend} {op : Op} {res : Result} {answered : Finset LockRequest}
    (h : Move b op res answered b') (hpath : PathSpelled op)
    (hb : ∀ id p, b.processes.lookup id = some p → p.Spelled) :
    ∀ id p, b'.processes.lookup id = some p → p.Spelled := by
  intro id q hq
  cases h with
  | idle | tick | add => exact hb id q hq
  | register hfree =>
      rcases SortedMap.lookup_insert_cases hfree hq with ⟨-, rfl⟩ | hq
      · exact fun e he => by cases he
      · exact hb id q hq
  | @enter _ _ _ _ _ _ _ _ _ f' _ _ _ hask hp =>
      rcases lookup_update_cases (f := f') hp hq with ⟨-, rfl⟩ | ⟨-, hq⟩
      · exact (hb _ _ hp).addHeldLock (pathSpelled_of_asks hpath hask)
      · exact hb id q hq
  | @release _ _ _ _ f' _ _ _ hp =>
      rcases lookup_update_cases (f := f') hp hq with ⟨-, rfl⟩ | ⟨-, hq⟩
      · exact (hb _ _ hp).removeHeldLock
      · exact hb id q hq

theorem Kept.move {b b' : Backend} {op : Op} {res : Result} {answered : Finset LockRequest}
    (h : Kept b) (hmove : Move b op res answered b') (hnames : b.NamesLock op)
    (hpath : PathSpelled op) (hready : b.Ready op) : Kept b' := by
  have hkeeps : Backend.keepsBacked b op = true := by
    cases op with
    | registerProcess | unregisterProcess | createLock | acquireLock => rfl
    | releaseLock => exact h.keepsBacked hpath hready
  exact ⟨hmove.forest_sound h.sound, hmove.ticketed h.sound h.ticketed, hmove.distinct h.distinct,
    hmove.present h.sound hnames h.present, hmove.spelled hpath h.spelled,
    hmove.backed h.sound hkeeps h.backed⟩

-- ============================================================================
-- Processes are unregistered
-- ============================================================================

/-- During the loop of `unregister_process` everything is kept. -/
theorem Unregistering.kept {b b₁ : Backend} {id : UInt32} {answered : Finset LockRequest}
    {locks : List (PathString × UInt8)} (h : Unregistering b id answered b₁ locks) (hb : Kept b)
    (hready : b.Ready (.unregisterProcess id)) : Kept b₁ ∧ ∀ e ∈ locks, Spelled e.1 := by
  induction h with
  | start => exact ⟨hb, fun e he => by cases he⟩
  | pass _ hp _ ih => exact ⟨ih.1, ih.1.spelled id _ hp⟩
  | @call answered b₁ b₂ path mode locks res more hloop hrel ih =>
      obtain ⟨hkept, hlocks⟩ := ih
      refine ⟨hkept.move (move_of_releaseLock hrel) (fun _ _ _ hask => by cases hask)
        (hlocks (path, mode) List.mem_cons_self) ?_, fun e he => hlocks e (List.mem_cons_of_mem _ he)⟩
      intro pid p hpid hp
      obtain rfl := Option.some.inj hpid
      exact hready.within hb.sound hb.ticketed (.release hloop) hp

theorem Kept.within {b b₁ : Backend} {id : UInt32} {op : Op} (h : Kept b)
    (hready : b.Ready (.unregisterProcess id)) (hwithin : Within b (.unregisterProcess id) b₁ op) :
    Backend.keepsBacked b₁ op = true := by
  cases hwithin with
  | self => rfl
  | release hloop =>
      obtain ⟨hkept, hlocks⟩ := hloop.kept h hready
      refine hkept.keepsBacked (hlocks _ List.mem_cons_self) fun pid p hpid hp => ?_
      obtain rfl := Option.some.inj hpid
      exact hready.within h.sound h.ticketed (.release hloop) hp

theorem Kept.drop {b : Backend} {id : UInt32} (h : Kept b) : Kept (b.drop id) :=
  ⟨h.sound, ⟨h.ticketed.once, h.ticketed.issued⟩, h.distinct.drop, h.present,
    fun id' p hp => h.spelled id' p (lookup_of_drop hp), h.backed.drop⟩

theorem Kept.step {b b' : Backend} {e : Event} (h : Kept b) (hstep : Step b e b')
    (hnames : b.NamesLock e.op) (hpath : PathSpelled e.op) (hready : b.Ready e.op) : Kept b' := by
  rcases hstep.cases with hmove | ⟨id, b₁, p, hop, hloop, -, -, -, rfl⟩
  · exact h.move hmove hnames hpath hready
  · rw [hop] at hready
    exact (hloop.kept h hready).1.drop

/-- A pass of the loop is enough. -/
theorem Kept.unregister_ok {b : Backend} (h : Kept b) {id : UInt32}
    (hready : b.Ready (.unregisterProcess id)) : ∃ x, b.unregisterProcess 1 id = .ok x := by
  rw [unregisterProcess, tryDestroy]
  cases hp : b.processes.lookup id with
  | none => exact ⟨_, rfl⟩
  | some p =>
      by_cases hcount : p.getLockCount > 0
      · have hstart := (Unregistering.start hp).pass hp hcount
        obtain ⟨f', p', answered, hpass, hempty⟩ := hstart.releasePass_clears hp (fun _ he => he)
          h.sound h.backed fun b₁ op hwithin => h.within hready hwithin
        have hdone : ¬ p'.getLockCount > 0 := by
          simp [Process.getLockCount, SortedList.size, hempty]
        have hloop : releaseLoop 1 b.forest p ∅ = .ok (f', p', answered) := by
          simp [releaseLoop, hcount, hpass, hdone, bind, Except.bind]
        exact ⟨_, by simp only [if_true, hloop]; rfl⟩
      · have hloop : releaseLoop 1 b.forest p ∅ = .ok (b.forest, p, ∅) := by
          simp [releaseLoop, hcount]
        exact ⟨_, by simp only [if_true, hloop]; rfl⟩

-- ============================================================================
-- Every request is served
-- ============================================================================

theorem createLock_ok (b : Backend) (pid : UInt32) (path : PathString) (acquireX : Bool) :
    ∃ x, b.createLock pid path acquireX = .ok x := by
  rw [createLock]
  cases b.processes.lookup pid with
  | none => exact ⟨_, rfl⟩
  | some p =>
      obtain ⟨⟨ret, f', p'⟩, hrun⟩ := b.forest.create_ok b.nextRequest p path acquireX
      simp only [hrun]
      cases ret with
      | created | queued | «exists» | parentNotHeld => exact ⟨_, rfl⟩

theorem acquireLock_ok (b : Backend) (pid : UInt32) (path : PathString) (mode : UInt8) :
    ∃ x, b.acquireLock pid path mode = .ok x := by
  rw [acquireLock]
  cases b.processes.lookup pid with
  | none => exact ⟨_, rfl⟩
  | some p =>
      rcases b.forest.acquire_spec b.nextRequest p path mode with
        ⟨-, hrun⟩ | ⟨ret, l, l', r', -, -, hrun⟩
      · simp only [hrun]
        exact ⟨_, rfl⟩
      · simp only [hrun]
        cases ret with
        | acquired | queued | nonExistent => exact ⟨_, rfl⟩

theorem releaseLock_ok {b : Backend} (hb : b.forest.Sound) (pid : UInt32) (path : PathString)
    (mode : UInt8) : ∃ x, b.releaseLock pid path mode = .ok x := by
  rw [releaseLock]
  cases b.processes.lookup pid with
  | none => exact ⟨_, rfl⟩
  | some p =>
      obtain ⟨⟨ret, f', p', answered⟩, hrun⟩ := hb.release_ok p path mode
      simp only [hrun]
      cases ret with
      | success | notHeld => exact ⟨_, rfl⟩

end Backend

/-- The daemon has an answer to every request. -/
theorem Daemon.respond_ok {env : Env} (hfuel : env.fuel = 1) (c : Conn) {d : Daemon}
    (h : d.backend.Kept) {q : Comm.Request} (hready : d.backend.Ready (operation q)) :
    ∃ x, d.respond env c q = .ok x := by
  cases q with
  | registerProcess nonce =>
      rw [respond]
      split
      · exact ⟨_, rfl⟩
      · exact ⟨_, rfl⟩
  | unregisterProcess id =>
      obtain ⟨⟨res, answered, b⟩, hrun⟩ := h.unregister_ok hready
      exact ⟨_, by simp only [respond, backend_updatePidConnection, hfuel, hrun]; rfl⟩
  | createLock pid path acquireX =>
      obtain ⟨⟨res, b⟩, hrun⟩ := d.backend.createLock_ok pid path acquireX
      exact ⟨_, by simp only [respond, backend_updatePidConnection, hrun]; rfl⟩
  | acquireLock pid path mode =>
      obtain ⟨⟨res, b⟩, hrun⟩ := d.backend.acquireLock_ok pid path mode
      exact ⟨_, by simp only [respond, backend_updatePidConnection, hrun]; rfl⟩
  | releaseLock pid path mode =>
      obtain ⟨⟨res, answered, b⟩, hrun⟩ := Backend.releaseLock_ok h.sound pid path mode
      exact ⟨_, by simp only [respond, backend_updatePidConnection, hrun]; rfl⟩

/-- Every request can be taken. -/
theorem Daemon.exchange_ok (c : Conn) {d : Daemon} (h : d.backend.Kept) {q : Comm.Request}
    (hready : d.backend.Ready (operation q)) : ∃ rs d', d.Exchange c q rs d' := by
  have hfuel : Env.plain.fuel = 1 := rfl
  obtain ⟨⟨r, answered, d'⟩, hrespond⟩ := respond_ok hfuel c h hready
  exact ⟨_, d', .mk hrespond answered.nodup_toList answered.toList_toFinset⟩

end Tclm.Server
