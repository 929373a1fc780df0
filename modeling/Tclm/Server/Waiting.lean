/-
  Tclm.Server.Waiting

  Who waits, waits for a reason.

  In runs with defined modes, a lock with waiting requests has a holder or an intent
  holder.  The stronger statement, that the first request of every queue is blocked,
  is broken by `release` in one way: it withdraws a waiting request without looking at
  the queue again.  If the withdrawn request was the first one, the next may be free to
  go.  In runs in which that does not happen the stronger statement holds in every
  state.
-/

import Tclm.Server.Safety

namespace Tclm.Server

-- ============================================================================
-- Free and blocked locks
-- ============================================================================

/-- The mode of the request is one of S, S+ and X. -/
def LockRequest.ModeDefined (r : LockRequest) : Prop := (Mode.ofByte r.mode).isSome = true

theorem intrinsic_modeDefined : Intrinsic LockRequest.ModeDefined := by
  intro r r' hsame hr
  rw [LockRequest.ModeDefined, hsame.mode]
  exact hr

namespace LockState

/-- Nobody holds the lock or an intent lock on it. -/
structure Free (s : LockState) : Prop where
  lockersS : s.lockersS = 0
  lockerSplus : s.lockerSplus = none
  lockerX : s.lockerX = none
  lockersIS : s.lockersIS = 0
  lockersISplus : s.lockersISplus = 0
  lockersIX : s.lockersIX = 0

variable {s s' : LockState} {r : LockRequest}

theorem Free.mayLock (h : s.Free) (p : ProcessRef) (m : Mode) : s.MayLock p m := by
  have hmem : ∀ {ps : Multiset ProcessRef} {q}, ps = 0 → q ∈ ps → p = q := by
    rintro _ q rfl hq
    exact absurd hq (Multiset.notMem_zero q)
  cases m with
  | S => exact ⟨h.lockerX, h.lockersIX⟩
  | Splus => exact ⟨h.lockerSplus, h.lockersISplus, Or.inl h.lockerX, fun q => hmem h.lockersIX⟩
  | X =>
      exact ⟨h.lockersS, h.lockerX, h.lockersIS, h.lockersIX, Or.inl h.lockerSplus,
        fun q => hmem h.lockersISplus⟩

theorem Free.mayIntend (h : s.Free) (p : ProcessRef) (m : Mode) : s.MayIntend p m := by
  cases m with
  | S => exact h.lockerX
  | Splus => exact ⟨h.lockerSplus, Or.inl h.lockerX⟩
  | X => exact ⟨h.lockersS, h.lockerX, Or.inl h.lockerSplus⟩

/-- A free lock blocks no request with a defined mode. -/
theorem not_free_of_blocks (h : s.Blocks r) (hr : r.ModeDefined) : ¬ s.Free := by
  intro hfree
  obtain ⟨m, hm⟩ := Option.isSome_iff_exists.mp hr
  unfold Blocks at h
  split at h
  · simp [tryLock, hm, hfree.mayLock r.requester m] at h
  · simp [tryIntent, hm, hfree.mayIntend r.requester m] at h

theorem not_free_addLocker {p : ProcessRef} {m : Mode} : ¬ (s.addLocker p m).Free := by
  intro h
  cases m with
  | S => exact Multiset.cons_ne_zero h.lockersS
  | Splus => exact absurd h.lockerSplus (Option.some_ne_none p)
  | X => exact absurd h.lockerX (Option.some_ne_none p)

theorem not_free_intend {p : ProcessRef} {ps : Multiset ProcessRef} {m : Mode} :
    ¬ (s.setIntents (p ::ₘ ps) m).Free := by
  intro h
  cases m with
  | S => exact Multiset.cons_ne_zero h.lockersIS
  | Splus => exact Multiset.cons_ne_zero h.lockersISplus
  | X => exact Multiset.cons_ne_zero h.lockersIX

/-- A lock with waiting requests is not free. -/
def Waits (s : LockState) : Prop := s.lockRequests ≠ [] → ¬ s.Free

theorem Free.setRequests (queue : List LockRequest) :
    Free { s with lockRequests := queue } ↔ s.Free :=
  ⟨fun h => ⟨h.1, h.2, h.3, h.4, h.5, h.6⟩, fun h => ⟨h.1, h.2, h.3, h.4, h.5, h.6⟩⟩

end LockState

theorem waits_rule : LocalRule LockRequest.ModeDefined fun _ s => s.Waits where
  intrinsic := intrinsic_modeDefined
  fresh _ h := absurd rfl h
  grows := by
    intro r π s s' hr hgrows hs
    cases hgrows with
    | granted _ hlock =>
        obtain ⟨m, -, -, rfl⟩ := LockState.tryLock_eq_some hlock
        exact fun _ => LockState.not_free_addLocker
    | intended _ hintent =>
        rcases LockState.tryIntent_eq_some hintent with ⟨m, -, -, rfl⟩ | ⟨hnone, -⟩
        · exact fun _ => LockState.not_free_intend
        · rw [LockRequest.ModeDefined, hnone] at hr
          cases hr
    | enqueued _ hblocks =>
        intro _ hfree
        exact LockState.not_free_of_blocks hblocks hr ((LockState.Free.setRequests _).mp hfree)

/-- Whatever `release` does to a lock, the wake-up loop leaves it with no queue or with
    a blocked one. -/
theorem waits_releaseRule (p : ProcessRef) (mode : UInt8) :
    ReleaseRule LockRequest.ModeDefined p mode (fun _ s => s.Waits) fun _ _ => True where
  stable := waits_rule
  between := ⟨intrinsic_modeDefined, fun _ => trivial, fun _ _ _ => trivial⟩
  unlock _ _ := trivial
  erase _ _ := trivial
  pop _ _ := trivial
  settle := by
    intro π s _ hseats hsettled hne
    obtain ⟨r, queue, hq⟩ := List.exists_cons_of_ne_nil hne
    have hr : r.ModeDefined := (hseats r (by rw [hq]; exact List.mem_cons_self ..)).2.2
    exact LockState.not_free_of_blocks (hsettled r queue hq) hr

theorem LockState.Waits.cancel {s s' : LockState} {p : ProcessRef} {mode : UInt8} (h : s.Waits)
    (hcancel : s.cancel p mode = some s') : s'.Waits := by
  obtain ⟨pre, r, post, hq, -, -, rfl, -⟩ := cancel_eq_some hcancel
  intro _ hfree
  exact h (by simp [hq]) ((Free.setRequests _).mp hfree)

-- ============================================================================
-- Runs with defined modes
-- ============================================================================

/-- The mode byte of the operation, if it has one, is one of S, S+ and X. -/
def Backend.Op.ModeDefined : Backend.Op → Prop
  | .acquireLock _ _ mode => (Mode.ofByte mode).isSome = true
  | .releaseLock _ _ mode => (Mode.ofByte mode).isSome = true
  | _ => True

instance decidableModeDefined : (op : Backend.Op) → Decidable op.ModeDefined
  | .registerProcess => isTrue trivial
  | .unregisterProcess _ => isTrue trivial
  | .createLock _ _ _ => isTrue trivial
  | .acquireLock _ _ mode => inferInstanceAs (Decidable ((Mode.ofByte mode).isSome = true))
  | .releaseLock _ _ mode => inferInstanceAs (Decidable ((Mode.ofByte mode).isSome = true))

theorem modeDefined_of_asks {op : Backend.Op} {pid : UInt32} {path : PathString} {mode : UInt8}
    {create : Bool} {p : Process} {address : Nat} {r : LockRequest} (hop : op.ModeDefined)
    (hask : op.asks = some (pid, path, mode, create))
    (hsame : Lock.SameRequest (p.request address path mode create) r) : r.ModeDefined := by
  refine intrinsic_modeDefined _ _ hsame ?_
  cases op with
  | registerProcess | unregisterProcess | releaseLock => cases hask
  | createLock pid path acquireX =>
      cases acquireX with
      | true => cases hask; rfl
      | false => cases hask
  | acquireLock => cases hask; exact hop

namespace Backend

/-- Operations with defined modes. -/
def ModalStep (b : Backend) (e : Event) (b' : Backend) : Prop := e.op.ModeDefined ∧ Step b e b'

theorem modal_after {fuel : Nat} {ops : List Op} (h : ∀ op ∈ ops, op.ModeDefined) :
    Lts.Reachable ModalStep init (after fuel ops) := by
  have hfold : ∀ b, Lts.Reachable ModalStep init b →
      Lts.Reachable ModalStep init (ops.foldl (next fuel) b) := by
    induction ops with
    | nil => exact fun b hb => hb
    | cons op ops ih =>
        intro b hb
        refine ih (fun op hop => h op (List.mem_cons_of_mem _ hop)) _ (reachable_next hb ?_)
        exact fun _ _ _ hstep => ⟨h op (List.mem_cons_self ..), fuel, hstep⟩
  exact hfold init (Lts.Reachable.refl init)

/-- In a run with defined modes nobody waits for a free lock. -/
theorem queue_empty_of_free {b : Backend} (h : Lts.Reachable ModalStep init b)
    {x : LockPath × Lock} (hx : x ∈ b.forest.nodes) (hfree : x.2.val.Free) :
    x.2.val.lockRequests = [] := by
  have hinv := h.invariant
    (fun b => b.forest.All (LockState.Seats LockRequest.ModeDefined) ∧
      b.forest.All fun _ s => s.Waits) ⟨LockForest.all_empty, LockForest.all_empty⟩ ?_
  · by_contra hne
    exact LockForest.all_iff.mp hinv.2 x hx hne hfree
  · rintro b e b' ⟨hseats, hwaits⟩ ⟨hop, hstep⟩
    exact hstep.all waits_releaseRule (fun hask hsame => modeDefined_of_asks hop hask hsame)
      (fun _ _ _ _ _ _ hc hP => hP.cancel hc) hseats hwaits

/-- Process 1 waits for `a` until process 0 gives it back, and then gives it back, too. -/
def passedOn : List Op :=
  [.registerProcess, .registerProcess, .createLock 0 [0x61] true, .acquireLock 1 [0x61] 0,
    .releaseLock 0 [0x61] 2, .releaseLock 1 [0x61] 0]

/-- There was a queue at the lock. -/
theorem queue_empty_of_free_passedOn :
    (∃ n, (after 1 (passedOn.take 4)).forest.node? [[0x61]] = some n ∧ n.val.lockRequests ≠ []) ∧
      ∃ n, (after 1 passedOn).forest.node? [[0x61]] = some n ∧ n.val.Free ∧
        n.val.lockRequests = [] := by
  have hqueue : ((after 1 (passedOn.take 4)).forest.node? [[0x61]]).any (fun n =>
      decide (n.val.lockRequests ≠ [])) = true := by decide +kernel
  obtain ⟨n, hn, hne⟩ := (Option.any_eq_true _ _).mp hqueue
  refine ⟨⟨n, hn, of_decide_eq_true hne⟩, ?_⟩
  have hrun : ((after 1 passedOn).forest.node? [[0x61]]).any (fun n => decide (n.val.lockersS = 0 ∧
      n.val.lockerSplus = none ∧ n.val.lockerX = none ∧ n.val.lockersIS = 0 ∧
      n.val.lockersISplus = 0 ∧ n.val.lockersIX = 0)) = true := by decide +kernel
  obtain ⟨n, hn, hfree⟩ := (Option.any_eq_true _ _).mp hrun
  obtain ⟨h₁, h₂, h₃, h₄, h₅, h₆⟩ := of_decide_eq_true hfree
  have hfree : n.val.Free := ⟨h₁, h₂, h₃, h₄, h₅, h₆⟩
  exact ⟨n, hn, hfree, queue_empty_of_free (modal_after (by decide))
    (LockForest.mem_nodes_of_node? hn) hfree⟩

end Backend

-- ============================================================================
-- Blocked requests stay blocked while locks are granted
-- ============================================================================

namespace LockState

variable {s s' : LockState}

/-- The lock has got more holders and intent holders. -/
structure Fuller (s s' : LockState) : Prop where
  lockersS : s.lockersS ≤ s'.lockersS
  lockerSplus : s'.lockerSplus = none → s.lockerSplus = none
  lockerSplus_eq : ∀ p, s'.lockerSplus = some p → s.lockerSplus = none ∨ s.lockerSplus = some p
  lockerX : s'.lockerX = none → s.lockerX = none
  lockerX_eq : ∀ p, s'.lockerX = some p → s.lockerX = none ∨ s.lockerX = some p
  intents : ∀ m, s.intents m ≤ s'.intents m

/-- What may be granted in the fuller state may be granted in the other. -/
theorem Fuller.mayLock (h : Fuller s s') {p : ProcessRef} {m : Mode} (hmay : s'.MayLock p m) :
    s.MayLock p m := by
  have hzero : ∀ {ps qs : Multiset ProcessRef}, ps ≤ qs → qs = 0 → ps = 0 := by
    rintro ps _ hle rfl
    exact Multiset.le_zero.mp hle
  cases m with
  | S => exact ⟨h.lockerX hmay.1, hzero (h.intents .X) hmay.2⟩
  | Splus =>
      obtain ⟨hsplus, hisplus, hx, hix⟩ := hmay
      refine ⟨h.lockerSplus hsplus, hzero (h.intents .Splus) hisplus, ?_,
        fun q hq => hix q (Multiset.mem_of_le (h.intents .X) hq)⟩
      rcases hx with hx | hx
      · exact Or.inl (h.lockerX hx)
      · exact h.lockerX_eq p hx
  | X =>
      obtain ⟨hs, hx, his, hix, hsplus, hisplus⟩ := hmay
      refine ⟨hzero h.lockersS hs, h.lockerX hx, hzero (h.intents .S) his,
        hzero (h.intents .X) hix, ?_, fun q hq => hisplus q (Multiset.mem_of_le (h.intents .Splus) hq)⟩
      rcases hsplus with hsplus | hsplus
      · exact Or.inl (h.lockerSplus hsplus)
      · exact h.lockerSplus_eq p hsplus

theorem Fuller.mayIntend (h : Fuller s s') {p : ProcessRef} {m : Mode} (hmay : s'.MayIntend p m) :
    s.MayIntend p m := by
  have hzero : s'.lockersS = 0 → s.lockersS = 0 := fun hs => Multiset.le_zero.mp (hs ▸ h.lockersS)
  cases m with
  | S => exact h.lockerX hmay
  | Splus =>
      obtain ⟨hsplus, hx⟩ := hmay
      refine ⟨h.lockerSplus hsplus, ?_⟩
      rcases hx with hx | hx
      · exact Or.inl (h.lockerX hx)
      · exact h.lockerX_eq p hx
  | X =>
      obtain ⟨hs, hx, hsplus⟩ := hmay
      refine ⟨hzero hs, h.lockerX hx, ?_⟩
      rcases hsplus with hsplus | hsplus
      · exact Or.inl (h.lockerSplus hsplus)
      · exact h.lockerSplus_eq p hsplus

theorem Fuller.blocks (h : Fuller s s') {r : LockRequest} (hblocks : s.Blocks r) :
    s'.Blocks r := by
  unfold Blocks at hblocks ⊢
  split
  · rename_i hrest
    rw [hrest] at hblocks
    by_contra hne
    obtain ⟨t, ht⟩ := Option.ne_none_iff_exists'.mp hne
    obtain ⟨m, hm, hmay, -⟩ := tryLock_eq_some ht
    simp [tryLock, hm, h.mayLock hmay] at hblocks
  · rename_i hrest
    rw [hrest] at hblocks
    by_contra hne
    obtain ⟨t, ht⟩ := Option.ne_none_iff_exists'.mp hne
    rcases tryIntent_eq_some ht with ⟨m, hm, hmay, -⟩ | ⟨hm, -⟩
    · simp [tryIntent, hm, h.mayIntend hmay] at hblocks
    · simp [tryIntent, hm] at hblocks

theorem fuller_addLocker {p : ProcessRef} {m : Mode} (hmay : s.MayLock p m) :
    Fuller s (s.addLocker p m) := by
  have hintents : ∀ m', s.intents m' ≤ (s.addLocker p m).intents m' :=
    fun m' => intents_addLocker.ge
  cases m with
  | S =>
      exact ⟨Multiset.le_cons_self _ _, id, fun _ => Or.inr, id, fun _ => Or.inr, hintents⟩
  | Splus =>
      exact ⟨le_refl _, fun h => (by cases h), fun _ _ => Or.inl hmay.1, id, fun _ => Or.inr, hintents⟩
  | X =>
      exact ⟨le_refl _, id, fun _ => Or.inr, fun h => (by cases h), fun _ _ => Or.inl hmay.2.1, hintents⟩

theorem fuller_intend {p : ProcessRef} {m : Mode} :
    Fuller s (s.setIntents (p ::ₘ s.intents m) m) := by
  refine ⟨?_, ?_, ?_, ?_, ?_, fun m' => ?_⟩
  · rw [lockersS_setIntents]
  · rw [lockerSplus_setIntents]
    exact id
  · rw [lockerSplus_setIntents]
    exact fun _ => Or.inr
  · rw [lockerX_setIntents]
    exact id
  · rw [lockerX_setIntents]
    exact fun _ => Or.inr
  · by_cases hm : m' = m
    · subst hm
      rw [intents_setIntents]
      exact Multiset.le_cons_self _ _
    · rw [intents_setIntents_ne hm]

/-- `Blocks` does not look at the queue or at the status of the request. -/
theorem blocks_congr (queue : List LockRequest) (r : LockRequest) :
    Blocks { s with lockRequests := queue } r ↔ s.Blocks r := by
  have hlock : ∀ m, MayLock { s with lockRequests := queue } r.requester m ↔ s.MayLock r.requester m :=
    fun m => by cases m <;> rfl
  have hintend : ∀ m,
      MayIntend { s with lockRequests := queue } r.requester m ↔ s.MayIntend r.requester m :=
    fun m => by cases m <;> rfl
  unfold Blocks
  split
  · unfold tryLock
    split <;> simp [hlock]
  · unfold tryIntent
    split <;> simp [hintend]

instance decidableBlocks (s : LockState) (r : LockRequest) : Decidable (s.Blocks r) :=
  match h : r.remaining with
  | [] => decidable_of_iff (s.tryLock r = none) (by simp [Blocks, h])
  | _ :: _ => decidable_of_iff (s.tryIntent r = none) (by simp [Blocks, h])

end LockState

theorem settled_rule : LocalRule (fun _ => True) fun _ s => s.Settled where
  intrinsic _ _ _ _ := trivial
  fresh _ _ _ h := by cases h
  grows := by
    intro r π s s' _ hgrows hs x queue hq
    cases hgrows with
    | granted _ hlock =>
        have hq' := (LockState.lockRequests_of_tryLock hlock).symm.trans hq
        obtain ⟨m, -, hmay, rfl⟩ := LockState.tryLock_eq_some hlock
        exact (LockState.fuller_addLocker hmay).blocks (hs x queue hq')
    | intended _ hintent =>
        have hq' := (LockState.lockRequests_of_tryIntent hintent).symm.trans hq
        rcases LockState.tryIntent_eq_some hintent with ⟨m, -, -, rfl⟩ | ⟨-, rfl⟩
        · exact LockState.fuller_intend.blocks (hs x queue hq')
        · exact hs x queue hq'
    | enqueued _ hblocks =>
        refine (LockState.blocks_congr _ x).mpr ?_
        have hq' : s.lockRequests ++ [r.withStatus .queued] = x :: queue := hq
        cases hold : s.lockRequests with
        | nil =>
            rw [hold] at hq'
            cases hq'
            exact hblocks
        | cons y ys =>
            rw [hold] at hq'
            cases hq'
            exact hs x ys hold

theorem settled_releaseRule (p : ProcessRef) (mode : UInt8) :
    ReleaseRule (fun _ => True) p mode (fun _ s => s.Settled) fun _ _ => True where
  stable := settled_rule
  between := ⟨fun _ _ _ _ => trivial, fun _ => trivial, fun _ _ _ => trivial⟩
  unlock _ _ := trivial
  erase _ _ := trivial
  pop _ _ := trivial
  settle _ _ h := h

-- ============================================================================
-- Withdrawing a request
-- ============================================================================

namespace LockState

/-- If the first request of the queue is one of the process in the mode, the request
    behind it is blocked. -/
def nextBlocked (p : ProcessRef) (mode : UInt8) (s : LockState) : Bool :=
  match s.lockRequests with
  | r :: next :: _ => !(decide (r.requester = p) && decide (r.mode = mode)) || decide (s.Blocks next)
  | _ => true

/-- Withdrawing a request keeps a settled queue settled if the next one is blocked. -/
theorem Settled.cancel {s s' : LockState} {p : ProcessRef} {mode : UInt8} (h : s.Settled)
    (hcancel : s.cancel p mode = some s') (hnext : s.nextBlocked p mode = true) : s'.Settled := by
  obtain ⟨pre, r, post, hq, hp, hm, rfl, -⟩ := cancel_eq_some hcancel
  intro x queue hx
  refine (blocks_congr _ x).mpr ?_
  have hx' : pre ++ post = x :: queue := hx
  cases pre with
  | nil =>
      obtain rfl : post = x :: queue := hx'
      rw [nextBlocked, hq] at hnext
      simpa [hp, hm] using hnext
  | cons y pre =>
      cases hx'
      exact h x (pre ++ r :: post) hq

end LockState

namespace Backend

/-- If the call withdraws the first request of a queue, the next one is blocked: a
    condition on release calls. -/
def withdrawsBlocked (b : Backend) : Op → Bool
  | .releaseLock pid path mode =>
      match b.processes.lookup pid with
      | some p =>
          match b.forest.seek p.object mode (splitPath path) with
          | .request s => s.nextBlocked p.object mode
          | _ => true
      | none => true
  | _ => true

/-- Re-running `Lock::acquire (r, false)` for the first request of a queue gets it
    nowhere. -/
def HeadsBlocked (f : LockForest) : Prop :=
  ∀ x ∈ f.nodes, ∀ r queue, x.2.val.lockRequests = r :: queue →
    ∃ l' r', Lock.acquire r.remaining x.2 r false = .ok (.queued, l', r') ∧
      r'.currentLevel = r.currentLevel

/-- In a run in which no release withdraws the first request of a queue in front of one
    that could go on, the first request of every queue is blocked in every state. -/
theorem heads_blocked_of_run {b : Backend}
    (h : Lts.Reachable (GuardedStep fun b op => b.withdrawsBlocked op = true) init b) :
    HeadsBlocked b.forest := by
  have hinv := h.invariant
    (fun b => b.forest.All (LockState.Seats fun _ => True) ∧ b.forest.All fun _ s => s.Settled)
    ⟨LockForest.all_empty, LockForest.all_empty⟩ ?_
  · intro x hx r queue hq
    exact ⟨_, _, Lock.acquire_of_blocks (LockForest.all_iff.mp hinv.2 x hx r queue hq), rfl⟩
  · rintro b e b' ⟨hseats, hsettled⟩ ⟨hcond, hstep⟩
    refine hstep.all settled_releaseRule (fun _ _ => trivial) ?_ hseats hsettled
    intro b₁ pid path mode p l ρ rest n s' hwithin hp hl hpath hn hnot hc hP
    have hsafe := hcond _ _ hwithin
    have hseek := Lock.seek_of_cancel hn hnot hc
    rw [← hpath, ← LockForest.seek_of_lookup hl, ← splitPath_eq] at hseek
    simp only [withdrawsBlocked, hp, hseek] at hsafe
    exact hP.cancel hc hsafe

/-- Process 0 holds X on `a`; of the two requests behind it the first has been
    withdrawn. -/
def withdrawn : List Op :=
  [.registerProcess, .registerProcess, .registerProcess, .createLock 0 [0x61] true,
    .acquireLock 1 [0x61] 0, .acquireLock 2 [0x61] 2, .releaseLock 1 [0x61] 0]

theorem heads_blocked_of_run_withdrawn :
    (∃ x ∈ (after 1 withdrawn).forest.nodes, x.2.val.lockRequests ≠ []) ∧
      HeadsBlocked (after 1 withdrawn).forest := by
  have hqueue : ((after 1 withdrawn).forest.nodes.any fun x =>
      !x.2.val.lockRequests.isEmpty) = true := by decide +kernel
  have hrun : along withdrawsBlocked 1 withdrawn init = true := by decide +kernel
  obtain ⟨x, hx, hne⟩ := List.any_eq_true.mp hqueue
  refine ⟨⟨x, hx, fun hnil => ?_⟩, heads_blocked_of_run (reachable_along hrun)⟩
  simp [hnil] at hne

/-- Processes 0 and 1 hold S and S+ on `a`; process 2 waits for X, process 3 behind it for
    S+.  Then process 1 gives up its lock, which frees the lock for process 3 only, and
    process 2 withdraws its request. -/
def stranded : List Op :=
  [.registerProcess, .registerProcess, .registerProcess, .registerProcess,
    .createLock 0 [0x61] true, .releaseLock 0 [0x61] 2, .acquireLock 0 [0x61] 0,
    .acquireLock 1 [0x61] 1, .acquireLock 2 [0x61] 2, .acquireLock 3 [0x61] 1,
    .releaseLock 1 [0x61] 1]

/-- Withdrawing a request can leave a request at the head of the queue that could have
    the lock. -/
theorem heads_not_blocked :
    ¬ ∀ b e b', Lts.Reachable ModalStep init b → ModalStep b e b' →
      ((∃ pid path mode, e.op = .releaseLock pid path mode) ∨
        ∃ id, e.op = .unregisterProcess id) → HeadsBlocked b'.forest := by
  intro h
  have hres : ((after 1 stranded).step 1 (.releaseLock 2 [0x61] 2)).toOption.map Prod.fst =
      some (.released .released) := by decide +kernel
  have hreach : Lts.Reachable ModalStep init (after 1 stranded) := modal_after (by decide)
  have hheads := h _ _ _ hreach ⟨by decide, step_next hres⟩ (Or.inl ⟨2, [0x61], 2, rfl⟩)
  have hqueue : ((next 1 (after 1 stranded) (.releaseLock 2 [0x61] 2)).forest.nodes.any fun x =>
      match x.2.val.lockRequests with
      | r :: _ => decide ((Lock.acquire r.remaining x.2 r false).toOption.map Prod.fst =
          some .acquired)
      | [] => false) = true := by decide +kernel
  obtain ⟨x, hx, hacq⟩ := List.any_eq_true.mp hqueue
  cases hq : x.2.val.lockRequests with
  | nil => simp [hq] at hacq
  | cons r queue =>
      obtain ⟨l', r', hrun, -⟩ := hheads x hx r queue hq
      simp [hq, hrun, Except.toOption] at hacq

end Backend

end Tclm.Server
