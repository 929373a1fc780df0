/-
  Tclm.Server.Safety

  Safety of the lock hierarchy in every reachable state.

  - Locks that two processes hold on one line of a tree are compatible.
  - Intent locks cover everything that is held or waited for below, and no operation
    erases an intent lock that is not there.
  - The holders and intent holders of every single lock exclude each other.
  - Nobody creates locks below a lock that another process holds exclusively.
-/

import Tclm.Server.Runs

namespace Tclm.Server.Backend

open NamedTree (find)
open LockForest (Updates)

-- ============================================================================
-- Exclusion along the hierarchy
-- ============================================================================

/-- Two processes hold locks on a lock and on one at or below it: the modes are
    compatible.  So nobody holds anything at or below an X lock of somebody else, no X
    below an S lock, and neither S+ nor X below an S+ lock. -/
theorem compatible_of_reachable {b : Backend} (h : Reachable b) {x y : LockPath × Lock}
    (hx : x ∈ b.forest.nodes) (hy : y ∈ NamedTree.nodes x.1 x.2) {p q : ProcessRef} (hpq : p ≠ q)
    {m m' : Mode} (hp : x.2.val.Holds p m) (hq : y.2.val.Holds q m') : m.compatible m' = true := by
  have hsound := h.forest_sound
  obtain ⟨c, l, hl, hx⟩ := LockForest.mem_nodes.mp hx
  have hcompat := hsound.compat c l hl x hx
  have hcov : Lock.Covered x.1 x.2 := fun z hz => hsound.covered c l hl z (NamedTree.nodes_trans l hx hz)
  exact Lock.compatible_of_holds (n := y.2) (ρ := y.1) hcov hcompat hy hpq hp hq

/-- Process 0 holds S on `a`, process 1 holds S+ on `a.b`. -/
def sharing : List Op :=
  [.registerProcess, .registerProcess, .createLock 0 [0x61, 0x2E, 0x62] true,
    .releaseLock 0 [0x61, 0x2E, 0x62] 2, .acquireLock 0 [0x61] 0,
    .acquireLock 1 [0x61, 0x2E, 0x62] 1]

/-- Whatever they hold there, the modes are compatible. -/
theorem compatible_of_reachable_sharing :
    ∃ n n', (after 1 sharing).forest.node? [[0x61]] = some n ∧ find [[0x62]] n = some n' ∧
      n.val.Holds 0 .S ∧ n'.val.Holds 1 .Splus ∧
      ∀ m m', n.val.Holds 0 m → n'.val.Holds 1 m' → m.compatible m' = true := by
  have hrun : ((after 1 sharing).forest.node? [[0x61]]).any (fun n => decide (n.val.Holds 0 .S) &&
      (find [[0x62]] n).any fun n' => decide (n'.val.Holds 1 .Splus)) = true := by decide +kernel
  obtain ⟨n, hn, hholds⟩ := (Option.any_eq_true _ _).mp hrun
  obtain ⟨hp, hbelow⟩ := Bool.and_eq_true_iff.mp hholds
  obtain ⟨n', hn', hq⟩ := (Option.any_eq_true _ _).mp hbelow
  refine ⟨n, n', hn, hn', of_decide_eq_true hp, of_decide_eq_true hq, fun m m' hm hm' => ?_⟩
  exact compatible_of_reachable (reachable_after 1 sharing) (LockForest.mem_nodes_of_node? hn)
    (NamedTree.mem_nodes_of_find hn') (by decide : (0 : ProcessRef) ≠ 1) hm hm'

-- ============================================================================
-- Intent coverage
-- ============================================================================

/-- What a process holds in a mode at one lock, plus its requests that wait there. -/
def demand (p : ProcessRef) (m : Mode) (s : LockState) : Nat :=
  (s.lockers m).count p + s.lockRequests.countP fun r => r.requester = p ∧ r.mode = m.toByte

theorem needs_held (m : Mode) (π : LockPath) (s : LockState) : needs m (s.held π) = s.lockers m := by
  have hmap : ∀ m' : Mode, needs m ((s.lockers m').map fun p => (⟨p, m'.toByte, π⟩ : Claim)) =
      if m' = m then s.lockers m' else 0 := by
    intro m'
    by_cases hm : m' = m
    · simp [needs, Multiset.filter_map, hm]
    · have hne : m'.toByte ≠ m.toByte := fun heq => hm (Mode.toByte_injective heq)
      simp [needs, Multiset.filter_map, hm, hne]
  rw [LockState.held, needs_add, needs_add, hmap, hmap, hmap]
  cases m <;> simp

/-- The claims at one lock need of the locks above what is held and waited for here. -/
theorem count_needs_claims (p : ProcessRef) (m : Mode) (π : LockPath) (s : LockState) :
    (needs m (s.weigh .claims π)).count p = demand p m s := by
  rw [LockState.weigh_claims, needs_add, Multiset.count_add, needs_held, demand]
  congr 1
  induction s.lockRequests with
  | nil => rfl
  | cons r queue ih =>
      rw [List.map_cons, ← Multiset.cons_coe, List.countP_cons]
      by_cases hm : r.mode = m.toByte
      · rw [needs_cons_of_eq _ hm, Multiset.count_cons, ih]
        by_cases hp : p = r.requester
        · simp [LockRequest.claim, hp, hm]
        · simp [LockRequest.claim, hp, Ne.symm hp]
      · rw [needs_cons_of_ne _ hm, ih]
        simp [hm]

theorem count_needs_weighBelow (p : ProcessRef) (m : Mode) (π : LockPath) (l : Lock) :
    (needs m (Lock.weighBelow .claims π l)).count p =
      ((NamedTree.descendants π l).map fun y => demand p m y.2.val).sum := by
  rw [Lock.weighBelow, NamedTree.sumBelow]
  induction NamedTree.descendants π l with
  | nil => rfl
  | cons y ys ih =>
      rw [List.map_cons, List.sum_cons, needs_add, Multiset.count_add, ih, count_needs_claims,
        List.map_cons, List.sum_cons]

/-- One pass of the release loop runs through if the forest is sound. -/
theorem releasePass_ok {f : LockForest} (hf : f.Sound) (locks : List (PathString × UInt8))
    (p : Process) (answered : Finset LockRequest) :
    ∃ f' p' answered', releasePass locks f p answered = .ok (f', p', answered') ∧ f'.Sound := by
  induction locks generalizing f p answered with
  | nil => exact ⟨f, p, answered, rfl, hf⟩
  | cons e locks ih =>
      obtain ⟨path, mode⟩ := e
      obtain ⟨⟨ret, f₁, p₁, more⟩, hrel⟩ := hf.release_ok p path mode
      have hf₁ : f₁.Sound := by
        obtain ⟨-, ⟨-, -, rfl, -⟩ | ⟨as, l, l', -, hleave⟩⟩ := LockForest.release_spec hrel
        · exact hf
        · exact hleave.sound hf
      obtain ⟨f', p', answered', hrun, hf'⟩ := ih hf₁ p₁ (answered ∪ more)
      exact ⟨f', p', answered', by simp [releasePass, hrel, hrun, bind, Except.bind], hf'⟩

theorem releaseLoop_ne_eraseEnd {f : LockForest} (hf : f.Sound) (fuel : Nat) (p : Process)
    (answered : Finset LockRequest) : releaseLoop fuel f p answered ≠ .error .eraseEnd := by
  induction fuel generalizing f p answered with
  | zero =>
      simp only [releaseLoop]
      split <;> simp
  | succ fuel ih =>
      simp only [releaseLoop]
      split
      · obtain ⟨f', p', answered', hrun, hf'⟩ := releasePass_ok hf p.heldLocks.entries p answered
        rw [hrun]
        exact ih hf' p' answered'
      · simp

/-- No operation on a sound forest runs into `erase(end())`. -/
theorem step_ne_eraseEnd {b : Backend} (hb : b.forest.Sound) (fuel : Nat) (op : Op) :
    b.step fuel op ≠ .error .eraseEnd := by
  cases op with
  | registerProcess => simp [step]
  | unregisterProcess id =>
      simp only [step, unregisterProcess, tryDestroy]
      cases b.processes.lookup id with
      | none => simp [bind, Except.bind]
      | some p =>
          have hloop := releaseLoop_ne_eraseEnd hb fuel p ∅
          cases hrun : releaseLoop fuel b.forest p ∅ with
          | ok x => simp [hrun, bind, Except.bind]
          | error e =>
              rw [hrun] at hloop
              simpa [hrun, bind, Except.bind] using hloop
  | createLock pid path acquireX =>
      simp only [step, createLock]
      cases b.processes.lookup pid with
      | none => simp [bind, Except.bind]
      | some p =>
          obtain ⟨⟨ret, f', p'⟩, hrun⟩ := b.forest.create_ok b.nextRequest p path acquireX
          simp only [hrun, bind, Except.bind]
          cases ret <;> simp
  | acquireLock pid path mode =>
      simp only [step, acquireLock]
      cases b.processes.lookup pid with
      | none => simp [bind, Except.bind]
      | some p =>
          rcases b.forest.acquire_spec b.nextRequest p path mode with
            ⟨-, hrun⟩ | ⟨ret, l, l', r', -, -, hrun⟩
          · simp [hrun, bind, Except.bind]
          · simp only [hrun, bind, Except.bind]
            cases ret <;> simp
  | releaseLock pid path mode =>
      simp only [step, releaseLock]
      cases b.processes.lookup pid with
      | none => simp [bind, Except.bind]
      | some p =>
          obtain ⟨⟨ret, f', p', answered⟩, hrun⟩ := hb.release_ok p path mode
          simp only [hrun, bind, Except.bind]
          cases ret <;> simp

/-- Intent locks of every lock cover what is held and waited for strictly below it, and
    every intent lock that an operation erases is there. -/
theorem intents_cover_of_reachable {b : Backend} (h : Reachable b) :
    (∀ x ∈ b.forest.nodes, ∀ p m,
      ((NamedTree.descendants x.1 x.2).map fun y => demand p m y.2.val).sum ≤
        (x.2.val.intents m).count p) ∧
    ∀ fuel op, b.step fuel op ≠ .error .eraseEnd := by
  have hsound := h.forest_sound
  refine ⟨?_, step_ne_eraseEnd hsound⟩
  intro x hx p m
  obtain ⟨c, l, hl, hx⟩ := LockForest.mem_nodes.mp hx
  have hcovers := hsound.covered c l hl x hx m
  rw [← count_needs_weighBelow]
  exact Multiset.count_le_of_le p hcovers

theorem intents_cover_of_reachable_sharing :
    ((after 1 sharing).forest.node? [[0x61]]).any (fun n =>
      decide (((NamedTree.descendants [[0x61]] n).map fun y => demand 1 .Splus y.2.val).sum = 1)) =
        true ∧
    ∃ n, (after 1 sharing).forest.node? [[0x61]] = some n ∧ 1 ≤ (n.val.intents .Splus).count 1 := by
  have hrun : ((after 1 sharing).forest.node? [[0x61]]).any (fun n =>
      decide (((NamedTree.descendants [[0x61]] n).map fun y => demand 1 .Splus y.2.val).sum = 1)) =
        true := by decide +kernel
  obtain ⟨n, hn, hsum⟩ := (Option.any_eq_true _ _).mp hrun
  have hcover := (intents_cover_of_reachable (reachable_after 1 sharing)).1 _
    (LockForest.mem_nodes_of_node? hn) 1 .Splus
  rw [of_decide_eq_true hsum] at hcover
  exact ⟨hrun, n, hn, hcover⟩

-- ============================================================================
-- The matrix of one lock
-- ============================================================================

/-- The holders and intent holders of every lock exclude each other as the matrix says; the
    intent holders are also those that wait further down. -/
theorem matrix_of_reachable {b : Backend} (h : Reachable b) {x : LockPath × Lock}
    (hx : x ∈ b.forest.nodes) (p : ProcessRef) :
    (x.2.val.lockerX = some p →
      x.2.val.lockersS = 0 ∧ x.2.val.lockersIS = 0 ∧ x.2.val.lockersIX = 0 ∧
        (x.2.val.lockerSplus = none ∨ x.2.val.lockerSplus = some p) ∧
        ∀ q ∈ x.2.val.lockersISplus, q = p) ∧
    (x.2.val.lockersS ≠ 0 → x.2.val.lockerX = none ∧ x.2.val.lockersIX = 0) ∧
    (x.2.val.lockerSplus = some p →
      x.2.val.lockersISplus = 0 ∧ (∀ q ∈ x.2.val.lockersIX, q = p) ∧
        (x.2.val.lockerX = none ∨ x.2.val.lockerX = some p)) ∧
    ∀ y ∈ NamedTree.descendants x.1 x.2, ∀ r ∈ y.2.val.lockRequests, ∀ m : Mode,
      r.mode = m.toByte → r.requester ∈ x.2.val.intents m := by
  have hsound := h.forest_sound
  obtain ⟨c, l, hl, hx⟩ := LockForest.mem_nodes.mp hx
  have hcompat := hsound.compat c l hl x hx
  refine ⟨fun hX => ?_, fun hS => ⟨?_, hcompat.sIX hS⟩, fun hsplus => ?_, fun y hy r hr m hm => ?_⟩
  · have hne : x.2.val.lockerX ≠ none := by
      rw [hX]
      exact Option.some_ne_none p
    refine ⟨hcompat.xS hne, hcompat.xIS hne, hcompat.xIX hne, ?_, fun q hq => hcompat.xISplus hX hq⟩
    cases hq : x.2.val.lockerSplus with
    | none => exact Or.inl rfl
    | some q => exact Or.inr (congrArg some (hcompat.xSplus hX hq))
  · by_contra hX
    exact hS (hcompat.xS hX)
  · have hne : x.2.val.lockerSplus ≠ none := by
      rw [hsplus]
      exact Option.some_ne_none p
    refine ⟨hcompat.splusISplus hne, fun q hq => hcompat.splusIX hsplus hq, ?_⟩
    cases hX : x.2.val.lockerX with
    | none => exact Or.inl rfl
    | some q => exact Or.inr (congrArg some (hcompat.xSplus hX hsplus).symm)
  · -- a waiting request is a claim below
    have hcov : Lock.Covered x.1 x.2 := fun z hz =>
      hsound.covered c l hl z (NamedTree.nodes_trans l hx hz)
    have hclaim : r.claim ∈ y.2.val.weigh .claims y.1 := by
      rw [LockState.weigh_claims]
      exact Multiset.mem_add.mpr (Or.inr (List.mem_map_of_mem hr))
    exact hcov.mem_intents hy hclaim hm

/-- Process 0 holds X and then S+ on `a`, and X on `b.c`, for which process 1 waits. -/
def layered : List Op :=
  [.registerProcess, .registerProcess, .createLock 0 [0x61] true, .acquireLock 0 [0x61] 1,
    .createLock 0 [0x62, 0x2E, 0x63] true, .acquireLock 1 [0x62, 0x2E, 0x63] 0]

/-- The lock `a` has its two holders' rows, and `b` the intent lock for the one that waits. -/
theorem matrix_of_reachable_layered :
    (∃ n, (after 1 layered).forest.node? [[0x61]] = some n ∧ n.val.lockerX = some 0 ∧
      n.val.lockerSplus = some 0 ∧ n.val.lockersS = 0 ∧ n.val.lockersIS = 0 ∧
      n.val.lockersIX = 0 ∧ n.val.lockersISplus = 0) ∧
    ∃ n n' r, (after 1 layered).forest.node? [[0x62]] = some n ∧ find [[0x63]] n = some n' ∧
      r ∈ n'.val.lockRequests ∧ r.requester = 1 ∧ r.requester ∈ n.val.intents .S := by
  have hX : ((after 1 layered).forest.node? [[0x61]]).any (fun n =>
      decide (n.val.lockerX = some 0 ∧ n.val.lockerSplus = some 0)) = true := by decide +kernel
  have hwaits : ((after 1 layered).forest.node? [[0x62]]).any (fun n =>
      (find [[0x63]] n).any fun n' => n'.val.lockRequests.any fun r =>
        decide (r.requester = 1 ∧ r.mode = Mode.S.toByte)) = true := by decide +kernel
  refine ⟨?_, ?_⟩
  · obtain ⟨n, hn, hholds⟩ := (Option.any_eq_true _ _).mp hX
    obtain ⟨hX, hsplus⟩ := of_decide_eq_true hholds
    have hmatrix := matrix_of_reachable (reachable_after 1 layered)
      (LockForest.mem_nodes_of_node? hn) 0
    obtain ⟨hS, hIS, hIX, -, -⟩ := hmatrix.1 hX
    exact ⟨n, hn, hX, hsplus, hS, hIS, hIX, (hmatrix.2.2.1 hsplus).1⟩
  · obtain ⟨n, hn, hbelow⟩ := (Option.any_eq_true _ _).mp hwaits
    obtain ⟨n', hn', hqueue⟩ := (Option.any_eq_true _ _).mp hbelow
    obtain ⟨r, hr, hreq⟩ := List.any_eq_true.mp hqueue
    obtain ⟨hpid, hmode⟩ := of_decide_eq_true hreq
    have hmatrix := matrix_of_reachable (reachable_after 1 layered)
      (LockForest.mem_nodes_of_node? hn) 0
    have hmem := NamedTree.mem_nodes_of_find (π := [[0x62]]) hn'
    rw [NamedTree.nodes_eq, List.mem_cons] at hmem
    rcases hmem with hroot | hmem
    · cases (Prod.mk.inj hroot).1
    · exact ⟨n, n', r, hn, hn', hr, hpid, hmatrix.2.2.2 _ hmem r hr .S hmode⟩

-- ============================================================================
-- Creation below exclusive locks
-- ============================================================================

/-- The process id an operation is issued for. -/
def Op.issuer : Op → Option UInt32
  | .registerProcess => none
  | .unregisterProcess id => some id
  | .createLock pid _ _ => some pid
  | .acquireLock pid _ _ => some pid
  | .releaseLock pid _ _ => some pid

/-- A path below an existing lock that becomes the name of a lock: the tree of its root
    got a new lock there. -/
theorem newIn_of_updates {f f' : LockForest} {c : LockName} {l l' n : Lock} {ρ σ : LockPath}
    (h : Updates f f' c l l') (hn : f.node? ρ = some n) (hold : f.node? (ρ ++ σ) = none)
    (hnew : f'.node? (ρ ++ σ) ≠ none) :
    ∃ ρ', ρ = c :: ρ' ∧ find ρ' l = some n ∧ Lock.NewIn l l' (ρ' ++ σ) := by
  cases ρ with
  | nil => cases hn
  | cons d ρ =>
      rw [List.cons_append] at hold hnew
      by_cases hd : d = c
      · subst hd
        refine ⟨ρ, rfl, h.node?_before hn, ?_, by rwa [h.node?_after] at hnew⟩
        rcases h.before with hl | ⟨hl, -⟩
        · simpa only [LockForest.node?, hl, Option.bind_some] using hold
        · simp [LockForest.node?, hl] at hn
      · rw [h.node?_ne hd] at hnew
        exact absurd hold hnew

/-- Two locks on the way to one address cannot both be held in X by different
    processes. -/
theorem lockerX_eq {π τ ρ ρ' : LockPath} {l n n' : Lock} {p q : ProcessRef}
    (hcov : Lock.Covered π l) (hcompat : Lock.All (fun _ s => s.Compat) π l) (hρ : ρ <+: τ)
    (hρ' : ρ' <+: τ) (hn : find ρ l = some n) (hn' : find ρ' l = some n')
    (hp : n.val.lockerX = some p) (hq : n'.val.lockerX = some q) : p = q := by
  -- one of the two is above the other
  have hline : ∀ {ρ σ n n' p q}, find ρ l = some n → find (ρ ++ σ) l = some n' →
      n.val.lockerX = some p → n'.val.lockerX = some q → p = q := by
    intro ρ σ n n' p q hn hn' hp hq
    have hmem : (π ++ ρ, n) ∈ NamedTree.nodes π l := NamedTree.mem_nodes_of_find hn
    rw [NamedTree.find_append, hn, Option.bind_some] at hn'
    have hbelow : (π ++ ρ ++ σ, n') ∈ NamedTree.nodes (π ++ ρ) n := NamedTree.mem_nodes_of_find hn'
    have hcov' : Lock.Covered (π ++ ρ) n := fun z hz => hcov z (NamedTree.nodes_trans l hmem hz)
    by_contra hpq
    have hbad : Mode.compatible .X .X = true :=
      Lock.compatible_of_holds hcov' (hcompat _ hmem) hbelow hpq hp hq
    cases hbad
  rcases List.prefix_or_prefix_of_prefix hρ hρ' with ⟨σ, rfl⟩ | ⟨σ, rfl⟩
  · exact hline hn hn' hp hq
  · exact (hline hn' hn hq hp).symm

/-- A move that is not made for `p` leaves the locks below an X lock of `p` as they are,
    and `p` keeps the X lock. -/
theorem Move.protected_by_X {b b' : Backend} {op : Op} {res : Result}
    {answered : Finset LockRequest} {ρ : LockPath} {n : Lock} {p : ProcessRef}
    (h : Move b op res answered b') (hb : b.forest.Sound) (hn : b.forest.node? ρ = some n)
    (hX : n.val.lockerX = some p)
    (hother : ∀ pid proc, op.issuer = some pid → b.processes.lookup pid = some proc →
      proc.object ≠ p) :
    (∃ n', b'.forest.node? ρ = some n' ∧ n'.val.lockerX = some p) ∧
      ∀ σ, b'.forest.node? (ρ ++ σ) = none ↔ b.forest.node? (ρ ++ σ) = none := by
  cases h with
  | idle | tick | register => exact ⟨⟨n, hn, hX⟩, fun _ => Iff.rfl⟩
  | @enter _ _ pid path mode create proc r ret f' l l' r' hask hp hsame henter =>
      have hext := henter.updates.extends (LockState.steady_keepsHolders fun _ => True).refl
        (henter.acquires.extends (LockState.steady_keepsHolders fun _ => True))
      obtain ⟨n', hn', hkeeps⟩ := hext ρ n hn
      refine ⟨⟨n', hn', hkeeps p .X trivial hX⟩, fun σ => ⟨hext.node?_eq_none, fun hold => ?_⟩⟩
      by_contra hnew
      obtain ⟨ρ', rfl, hρ', hnew'⟩ := newIn_of_updates henter.updates hn hold hnew
      obtain ⟨-, hopen⟩ := henter.acquires.new_lock (createsInX_of_asks hask hsame) hnew'
      exact hopen ρ' n (List.prefix_append ρ' σ) hρ' p hX
  | @add pid path res proc l hp hl =>
      have hupd := LockForest.updates_setRoot hl (Lock.createNotHeld proc.object (splitPath path) l).2
      have hadds := LockForest.createNotHeld_adds proc.object (splitPath path) l
      have hext := hupd.extends (LockState.steady_keepsHolders fun _ => True).refl
        (hadds.extends (LockState.steady_keepsHolders fun _ => True).refl)
      obtain ⟨n', hn', hkeeps⟩ := hext ρ n hn
      refine ⟨⟨n', hn', hkeeps p .X trivial hX⟩, fun σ => ⟨hext.node?_eq_none, fun hold => ?_⟩⟩
      by_contra hnew
      obtain ⟨ρ', rfl, hρ', hnew'⟩ := newIn_of_updates hupd hn hold hnew
      -- the issuer owns a lock on the way, and that cannot be next to the X lock of `p`
      obtain ⟨ρ₁, n₁, hρ₁, hn₁, hX₁⟩ : Lock.OwnsAbove proc.object l (ρ' ++ σ) :=
        LockForest.createNotHeld_new_lock hnew'
      have heq := lockerX_eq (hb.covered _ l hl) (hb.compat _ l hl) hρ₁ (List.prefix_append ρ' σ)
        hn₁ hρ' hX₁ hX
      exact hother pid proc rfl hp heq
  | @release pid path mode proc f' as l l' hp hleave =>
      have hne : p ≠ proc.object := (hother pid proc rfl hp).symm
      have hext := hleave.updates.extends (LockState.steady_keepsHolders _).refl
        hleave.releases.keepsHolders
      obtain ⟨n', hn', hkeeps⟩ := hext ρ n hn
      refine ⟨⟨n', hn', hkeeps p .X hne hX⟩, fun σ => ⟨hext.node?_eq_none, fun hold => ?_⟩⟩
      by_contra hnew
      obtain ⟨ρ', rfl, hρ', hnew'⟩ := newIn_of_updates hleave.updates hn hold hnew
      have hl := hleave.lookup
      obtain ⟨-, hopen⟩ := hleave.releases.new_lock (hb.seats _ l hl) (hb.covered _ l hl)
        (hb.compat _ l hl) hnew'
      exact hne (hopen ρ' n (List.prefix_append ρ' σ) hρ' p hX)

/-- The calls an operation makes are made for its issuer. -/
theorem Within.issuer_eq {b b₁ : Backend} {op op₁ : Op} (h : Within b op b₁ op₁) :
    op₁.issuer = op.issuer := by
  cases h <;> rfl

theorem issuer_of_asks {op : Op} {pid : UInt32} {path : PathString} {mode : UInt8} {create : Bool}
    (hask : op.asks = some (pid, path, mode, create)) : op.issuer = some pid := by
  cases op with
  | registerProcess | unregisterProcess | releaseLock => cases hask
  | createLock pid path acquireX =>
      cases acquireX with
      | true => cases hask; rfl
      | false => cases hask
  | acquireLock => cases hask; rfl

/-- The issuer of a move stays the same `Process` object. -/
theorem Move.object_eq {b b' : Backend} {op : Op} {res : Result} {answered : Finset LockRequest}
    {pid : UInt32} {proc' : Process} (h : Move b op res answered b') (hissuer : op.issuer = some pid)
    (hproc' : b'.processes.lookup pid = some proc') :
    ∃ proc, b.processes.lookup pid = some proc ∧ proc.object = proc'.object := by
  cases h with
  | idle | tick | add => exact ⟨proc', hproc', rfl⟩
  | register => cases hissuer
  | @enter _ _ pid₁ path mode create proc r ret f' l l' r' hask hp hsame henter =>
      obtain rfl : pid₁ = pid := Option.some.inj ((issuer_of_asks hask).symm.trans hissuer)
      obtain rfl : proc.addHeldLock path mode = proc' :=
        Option.some.inj ((lookup_update (f := f') hp).symm.trans hproc')
      exact ⟨proc, hp, rfl⟩
  | @release pid₁ path mode proc f' as l l' hp hleave =>
      obtain rfl : pid₁ = pid := Option.some.inj hissuer
      obtain rfl : proc.removeHeldLock path mode = proc' :=
        Option.some.inj ((lookup_update (f := f') hp).symm.trans hproc')
      exact ⟨proc, hp, rfl⟩

/-- While `p` holds X on a lock, no operation that is issued for somebody else, and no
    request that it wakes up, creates a lock below. -/
theorem locks_below_X_of_step {b b' : Backend} {e : Event} (h : Reachable b) (hstep : Step b e b')
    {ρ : LockPath} {n : Lock} {p : ProcessRef} (hn : b.forest.node? ρ = some n)
    (hX : n.val.lockerX = some p)
    (hother : ∀ pid proc, e.op.issuer = some pid → b.processes.lookup pid = some proc →
      proc.object ≠ p) :
    ∀ σ, b'.forest.node? (ρ ++ σ) = none ↔ b.forest.node? (ρ ++ σ) = none := by
  have hinv := Step.invariant
    (fun b₁ => b₁.forest.Sound ∧ (∃ n₁, b₁.forest.node? ρ = some n₁ ∧ n₁.val.lockerX = some p) ∧
      (∀ σ, b₁.forest.node? (ρ ++ σ) = none ↔ b.forest.node? (ρ ++ σ) = none) ∧
      ∀ pid proc, e.op.issuer = some pid → b₁.processes.lookup pid = some proc → proc.object ≠ p)
    hstep ⟨h.forest_sound, ⟨n, hn, hX⟩, fun _ => Iff.rfl, hother⟩ ?_ ?_
  · exact hinv.2.2.1
  · rintro b₁ op res answered b₂ hwithin ⟨hsound, ⟨n₁, hn₁, hX₁⟩, hsame, hobj⟩ hmove
    have hissuer := hwithin.issuer_eq
    obtain ⟨hX₂, hsame₂⟩ := hmove.protected_by_X hsound hn₁ hX₁
      fun pid proc hpid => hobj pid proc (hissuer ▸ hpid)
    refine ⟨hmove.forest_sound hsound, hX₂, fun σ => (hsame₂ σ).trans (hsame σ), ?_⟩
    intro pid proc hpid hproc
    obtain ⟨proc₁, hproc₁, hobj₁⟩ := hmove.object_eq (hissuer.trans hpid) hproc
    rw [← hobj₁]
    exact hobj pid proc₁ hpid hproc₁
  · rintro b₁ id proc - - - ⟨hsound, hX₁, hsame, hobj⟩
    exact ⟨hsound, hX₁, hsame, fun pid proc hpid hproc => hobj pid proc hpid (lookup_of_drop hproc)⟩

/-- Process 0 holds X on `a`. -/
def owning : List Op :=
  [.registerProcess, .registerProcess, .createLock 0 [0x61] true]

theorem locks_below_X_of_step_owning :
    ((after 1 owning).forest.node? [[0x61]]).any (fun n => decide (n.val.lockerX = some 0)) = true ∧
    ((next 1 (after 1 owning) (.createLock 1 [0x61, 0x2E, 0x62] true)).forest.node?
      [[0x61], [0x62]] = none ↔ (after 1 owning).forest.node? [[0x61], [0x62]] = none) := by
  have hrun : ((after 1 owning).forest.node? [[0x61]]).any
      (fun n => decide (n.val.lockerX = some 0)) = true := by decide +kernel
  obtain ⟨n, hn, hX⟩ := (Option.any_eq_true _ _).mp hrun
  have hres : ((after 1 owning).step 1 (.createLock 1 [0x61, 0x2E, 0x62] true)).toOption.map
      Prod.fst = some (.created .queued) := by decide +kernel
  have hobj : ((after 1 owning).processes.lookup 1).all (fun proc => proc.object ≠ 0) = true := by
    decide +kernel
  refine ⟨hrun, locks_below_X_of_step (reachable_after 1 owning) (step_next hres) hn
    (of_decide_eq_true hX) ?_ [[0x62]]⟩
  intro pid proc hpid hproc
  obtain rfl : 1 = pid := Option.some.inj hpid
  rw [hproc] at hobj
  simpa using hobj

end Tclm.Server.Backend
