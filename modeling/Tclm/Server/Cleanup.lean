/-
  Tclm.Server.Cleanup

  What `unregister_process` leaves behind.

  The loop of `unregister_process` is driven by `held_locks`, a set, while the forest
  counts locks and requests with multiplicity.  If a process asks for something that
  stands in its `held_locks` already, it may have two claims and one entry, and a lock
  survives its process.

  Otherwise a process never has more claims than entries, and it has as many only if
  no request of it has failed late (`Tallies`).  So when all entries are gone, no claim
  is left, and no intent lock either.
-/

import Tclm.Server.Balance

namespace Tclm.Server

open LockForest (Enters Leaves)

/-- The process is a holder or an intent holder, or one of its requests waits here. -/
def LockState.Mentions (p : ProcessRef) (s : LockState) : Prop :=
  p ∈ s.lockersS ∨ s.lockerSplus = some p ∨ s.lockerX = some p ∨ p ∈ s.lockersIS ∨
    p ∈ s.lockersISplus ∨ p ∈ s.lockersIX ∨ ∃ r ∈ s.lockRequests, r.requester = p

instance decidableMentions (p : ProcessRef) (s : LockState) : Decidable (s.Mentions p) :=
  inferInstanceAs (Decidable (_ ∨ _ ∨ _ ∨ _ ∨ _ ∨ _ ∨ _))

-- ============================================================================
-- Claims and entries by mode
-- ============================================================================

/-- How many locks the process holds or waits for in the mode. -/
def LockForest.claimed (f : LockForest) (p : ProcessRef) (mode : UInt8) : Nat :=
  f.claims.countP fun c => c.process = p ∧ c.mode = mode

/-- How many entries the process has in the mode. -/
def Process.heldIn (p : Process) (mode : UInt8) : Nat :=
  p.heldLocks.entries.countP fun e => e.2 = mode

namespace LockForest

variable {f f' : LockForest} {c : LockName} {l l' : Lock} {q : ProcessRef} {m : UInt8}

theorem Enters.claimed_eq {r r' : LockRequest} {ret : AcquireStatus}
    (h : Enters f r ret f' c l l' r') (hret : ret ≠ .nonExistent) :
    f'.claimed q m = f.claimed q m + if r.requester = q ∧ r.mode = m then 1 else 0 := by
  rw [claimed, h.claims_eq hret, Multiset.countP_cons]
  rfl

theorem Leaves.claimed_eq {p : ProcessRef} {mode : UInt8} {path rest : LockPath}
    {as : List LockRequest} {good : LockRequest → Prop}
    (h : Leaves f p mode path .success f' as c rest l l') (hseats : f.All (LockState.Seats good)) :
    f.claimed q m = f'.claimed q m +
      (Lock.lost as).countP (fun c => c.process = q ∧ c.mode = m) +
      if p = q ∧ mode = m then 1 else 0 := by
  obtain ⟨x, hx, hclaims⟩ := h.claims_eq hseats
  rw [claimed, hclaims, Multiset.countP_cons, Multiset.countP_add, hx.process_eq, hx.mode_eq]
  rfl

/-- A process without claims and with exact intent locks is not mentioned. -/
theorem not_mentions {p : ProcessRef} (hclaims : ∀ mode, f.claimed p mode = 0)
    (hbalanced : ∀ mode, f.Accounted (LockState.Balances fun q m => q = p ∧ m = mode))
    {x : LockPath × Lock} (hx : x ∈ f.nodes) : ¬ x.2.val.Mentions p := by
  have hnone : ∀ c ∈ f.claims, c.process ≠ p := by
    intro c hc hp
    exact Multiset.countP_eq_zero.mp (hclaims c.mode) c hc ⟨hp, rfl⟩
  have hholds : ∀ m, ¬ x.2.val.Holds p m := by
    intro m hm
    exact hnone ⟨p, m.toByte, x.1⟩ (mem_claims_iff.mpr ⟨x, hx, Or.inl ⟨rfl, m, rfl, hm⟩⟩) rfl
  have hintents : ∀ m, p ∉ x.2.val.intents m := by
    intro m
    obtain ⟨c, l, hl, hmem⟩ := mem_nodes.mp hx
    have hcount := hbalanced m.toByte c l hl x hmem p m ⟨rfl, rfl⟩
    rw [← Multiset.count_eq_zero, hcount, Backend.count_needs_weighBelow]
    refine List.sum_eq_zero fun n hn => ?_
    obtain ⟨y, hy, rfl⟩ := List.mem_map.mp hn
    have hy' : y ∈ f.nodes := by
      refine mem_nodes.mpr ⟨c, l, hl, NamedTree.nodes_trans l hmem ?_⟩
      rw [NamedTree.nodes_eq]
      exact List.mem_cons_of_mem _ hy
    rw [← Backend.count_needs_claims p m y.1, Multiset.count_eq_zero, mem_needs]
    rintro ⟨c', hc', -, hp⟩
    exact hnone c' (mem_claims.mpr ⟨y, hy', hc'⟩) hp
  rintro (h | h | h | h | h | h | ⟨r, hr, h⟩)
  · exact hholds .S h
  · exact hholds .Splus h
  · exact hholds .X h
  · exact hintents .S h
  · exact hintents .Splus h
  · exact hintents .X h
  · exact hnone r.claim (mem_claims_iff.mpr ⟨x, hx, Or.inr ⟨r, hr, rfl⟩⟩) h

end LockForest

-- ============================================================================
-- Never more claims than entries
-- ============================================================================

namespace Backend

/-- The process object `p` does not ask for what stands in its `held_locks`. -/
def asksAnew (p : ProcessRef) (b : Backend) (op : Op) : Bool :=
  match op.asks with
  | some (pid, path, mode, _) =>
      (b.processes.lookup pid).all fun proc =>
        decide (proc.object = p → (path, mode) ∉ proc.heldLocks.entries)
  | none => true

/-- `n` tells how many entries the process object `p` has in each mode; it has none
    before it is registered. -/
inductive Books (b : Backend) (p : ProcessRef) : (UInt8 → Nat) → Prop where
  | unborn (h : b.nextProcess ≤ p) : Books b p fun _ => 0
  | registered {id proc} (hproc : b.processes.lookup id = some proc) (hobj : proc.object = p) :
      Books b p proc.heldIn

/-- The process has no more claims than entries in any mode, and if it has as many its
    intent locks in the mode are exact. -/
def Tallies (p : ProcessRef) (b : Backend) : Prop :=
  ∀ n, Books b p n → ∀ mode, b.forest.claimed p mode ≤ n mode ∧
    (b.forest.claimed p mode = n mode →
      b.forest.Accounted (LockState.Balances fun q m => q = p ∧ m = mode))

theorem tallies_init (p : ProcessRef) : Tallies p init := by
  intro n hn mode
  refine ⟨?_, fun _ => LockForest.accounted_empty⟩
  exact Nat.zero_le _

theorem Books.congr {b b' : Backend} {p : ProcessRef} {n : UInt8 → Nat} (h : Books b p n)
    (hnext : b'.nextProcess = b.nextProcess) (hprocs : b'.processes = b.processes) :
    Books b' p n := by
  cases h with
  | unborn h => exact .unborn (hnext ▸ h)
  | registered hq hobj => exact .registered (hprocs ▸ hq) hobj

/-- Books after a request of `proc` has been recorded. -/
theorem Books.of_enter {b : Backend} {p : ProcessRef} {n : UInt8 → Nat} {pid : UInt32}
    {proc : Process} {f : LockForest} {path : PathString} {mode : UInt8}
    (hn : Books (b.update pid f (proc.addHeldLock path mode)) p n) (hb : Distinct b)
    (hproc : b.processes.lookup pid = some proc)
    (hanew : proc.object = p → (path, mode) ∉ proc.heldLocks.entries) :
    ∃ n₀, Books b p n₀ ∧ ∀ m, n m = n₀ m + if proc.object = p ∧ mode = m then 1 else 0 := by
  cases hn with
  | unborn h =>
      have hne : proc.object ≠ p := (Nat.lt_of_lt_of_le (hb.issued hproc) h).ne
      exact ⟨_, .unborn h, fun m => by simp [hne]⟩
  | registered hq hobj =>
      rcases lookup_update_cases hproc hq with ⟨rfl, rfl⟩ | ⟨hid, hq⟩
      · have hobj : proc.object = p := hobj
        refine ⟨_, .registered hproc hobj, fun m => ?_⟩
        rw [Process.heldIn, Process.countP_addHeldLock (hanew hobj)]
        simp [Process.heldIn, hobj]
      · have hne : proc.object ≠ p := fun h => hid (hb.unique hq hproc (hobj.trans h.symm))
        exact ⟨_, .registered hq hobj, fun m => by simp [hne]⟩

/-- Books after something of `proc` has been released. -/
theorem Books.of_release {b : Backend} {p : ProcessRef} {n : UInt8 → Nat} {pid : UInt32}
    {proc : Process} {f : LockForest} {path : PathString} {mode : UInt8}
    (hn : Books (b.update pid f (proc.removeHeldLock path mode)) p n)
    (hproc : b.processes.lookup pid = some proc) :
    ∃ n₀, Books b p n₀ ∧ ∀ m, n₀ m ≤ n m + if proc.object = p ∧ mode = m then 1 else 0 := by
  cases hn with
  | unborn h => exact ⟨_, .unborn h, fun m => Nat.zero_le _⟩
  | registered hq hobj =>
      rcases lookup_update_cases hproc hq with ⟨rfl, rfl⟩ | ⟨hid, hq⟩
      · have hobj : proc.object = p := hobj
        refine ⟨_, .registered hproc hobj, fun m => ?_⟩
        by_cases hmem : (path, mode) ∈ proc.heldLocks.entries
        · rw [Process.heldIn, Process.countP_removeHeldLock hmem]
          simp [Process.heldIn, hobj]
        · rw [Process.removeHeldLock_of_notMem hmem]
          exact Nat.le_add_right _ _
      · exact ⟨_, .registered hq hobj, fun m => Nat.le_add_right _ _⟩

theorem Move.tallies {b b' : Backend} {op : Op} {res : Result} {answered : Finset LockRequest}
    {p : ProcessRef} (h : Move b op res answered b') (hsound : b.forest.Sound)
    (hdistinct : Distinct b) (hanew : asksAnew p b op = true) (hb : Tallies p b) :
    Tallies p b' := by
  intro n hn mode
  cases h with
  | idle => exact hb n hn mode
  | tick => exact hb n (hn.congr rfl rfl) mode
  | register hfree =>
      refine hb n ?_ mode
      cases hn with
      | unborn h => exact .unborn (Nat.le_of_succ_le h)
      | @registered id q hq hobj =>
          rcases SortedMap.lookup_insert_cases hfree hq with ⟨-, rfl⟩ | hq
          · exact .unborn (Nat.le_of_eq hobj)
          · exact .registered hq hobj
  | @enter _ _ pid path emode create proc r ret f' l l' r' hask hp hsame henter hret =>
      simp only [asksAnew, hask, hp, Option.all_some, decide_eq_true_eq] at hanew
      have hn' : Books (b.update pid f' (proc.addHeldLock path emode)) p n := hn.congr rfl rfl
      obtain ⟨n₀, hn₀, hcount⟩ := hn'.of_enter hdistinct hp hanew
      obtain ⟨hle, hbalanced⟩ := hb n₀ hn₀ mode
      have hclaimed : f'.claimed p mode = b.forest.claimed p mode +
          if r.requester = p ∧ r.mode = mode then 1 else 0 := henter.claimed_eq hret
      have hreq : r.requester = proc.object := hsame.requester
      have hmode : r.mode = emode := hsame.mode
      rw [hreq, hmode] at hclaimed
      change f'.claimed p mode ≤ n mode ∧ (f'.claimed p mode = n mode → f'.Accounted _)
      rw [hclaimed, hcount]
      refine ⟨Nat.add_le_add_right hle _, fun heq => ?_⟩
      exact henter.accounted (balances_rule _) (hbalanced (Nat.add_right_cancel heq))
  | @add pid path res proc l hp hl =>
      have hupd := LockForest.updates_setRoot hl (Lock.createNotHeld proc.object (splitPath path) l).2
      have hadds := LockForest.createNotHeld_adds proc.object (splitPath path) l
      obtain ⟨hle, hbalanced⟩ := hb n (hn.congr rfl rfl) mode
      have hclaims := LockForest.claims_of_adds hupd hadds
      simp only [LockForest.claimed] at hle hbalanced ⊢
      rw [hclaims]
      exact ⟨hle, fun heq => hupd.accounted_of_adds hadds (balances_rule _) (hbalanced heq)⟩
  | @release pid path rmode proc f' as l l' hp hleave =>
      obtain ⟨n₀, hn₀, hcount⟩ := hn.of_release hp
      obtain ⟨hle, hbalanced⟩ := hb n₀ hn₀ mode
      have hclaimed : b.forest.claimed p mode = f'.claimed p mode +
          (Lock.lost as).countP (fun c => c.process = p ∧ c.mode = mode) +
          if proc.object = p ∧ rmode = mode then 1 else 0 := hleave.claimed_eq hsound.seats
      have hmode := hcount mode
      change f'.claimed p mode ≤ n mode ∧ (f'.claimed p mode = n mode → f'.Accounted _)
      refine ⟨by omega, fun heq => ?_⟩
      -- as many claims as entries: nothing of the process has been lost
      have hlost : (Lock.lost as).countP (fun c => c.process = p ∧ c.mode = mode) = 0 := by omega
      have hequal : b.forest.claimed p mode = n₀ mode := by omega
      refine hleave.accounted (balances_rule _) (fun c hc _ => ?_) hsound.seats (hbalanced hequal)
      exact Multiset.countP_eq_zero.mp hlost c hc

/-- What holds of the process object `p` in every run in which it asks for new things
    only. -/
structure Recorded (p : ProcessRef) (b : Backend) : Prop where
  sound : b.forest.Sound
  distinct : Distinct b
  tallies : Tallies p b

theorem Move.recorded {b b' : Backend} {op : Op} {res : Result} {answered : Finset LockRequest}
    {p : ProcessRef} (h : Move b op res answered b') (hanew : asksAnew p b op = true)
    (hb : Recorded p b) : Recorded p b' :=
  ⟨h.forest_sound hb.sound, h.distinct hb.distinct, h.tallies hb.sound hb.distinct hanew hb.tallies⟩

theorem Recorded.drop {p : ProcessRef} {b : Backend} {id : UInt32} (h : Recorded p b) :
    Recorded p (b.drop id) := by
  refine ⟨h.sound, h.distinct.drop, fun n hn => h.tallies n ?_⟩
  cases hn with
  | unborn h => exact .unborn h
  | registered hq hobj => exact .registered (lookup_of_drop hq) hobj

theorem recorded_of_run {p : ProcessRef} {b : Backend}
    (h : Lts.Reachable (GuardedStep fun b op => asksAnew p b op = true) init b) :
    Recorded p b :=
  invariant_of_guarded (Recorded p) h ⟨LockForest.sound_empty, distinct_init, tallies_init p⟩
    (fun hanew hb hmove => hmove.recorded hanew hb) fun hb => hb.drop

/-- The calls of the loop keep the process registered, and its entries only get fewer. -/
theorem Unregistering.shrinks {b b₁ : Backend} {id : UInt32} {proc : Process}
    {answered : Finset LockRequest} {locks : List (PathString × UInt8)}
    (h : Unregistering b id answered b₁ locks) (hproc : b.processes.lookup id = some proc) :
    ∃ proc₁, b₁.processes.lookup id = some proc₁ ∧ proc₁.object = proc.object ∧
      proc₁.heldLocks.size ≤ proc.heldLocks.size := by
  induction h with
  | start => exact ⟨proc, hproc, rfl, Nat.le_refl _⟩
  | pass _ _ _ ih => exact ih
  | call _ hrel ih =>
      obtain ⟨proc₁, hproc₁, hobj, hsize⟩ := ih
      cases move_of_releaseLock hrel with
      | idle => exact ⟨proc₁, hproc₁, hobj, hsize⟩
      | tick hop => cases hop
      | enter hask => cases hask
      | release hp hleave =>
          obtain rfl := Option.some.inj (hproc₁.symm.trans hp)
          exact ⟨_, lookup_update hp, hobj, Process.size_removeHeldLock_le.trans hsize⟩

/-- A process that never asked for what stood in its `held_locks` already leaves nothing
    behind when it is unregistered.  Its entries have to be fewer than the loop's 32-bit
    counter can count. -/
theorem not_mentions_of_unregister {p : ProcessRef} {b b' : Backend} {id : UInt32}
    {proc : Process} {answered : Finset LockRequest}
    (h : Lts.Reachable (GuardedStep fun b op => asksAnew p b op = true) init b)
    (hproc : b.processes.lookup id = some proc) (hobj : proc.object = p)
    (hsize : proc.heldLocks.size < 2 ^ 32)
    (hstep : Step b ⟨.unregisterProcess id, .unregistered .success, answered⟩ b') :
    ∀ x ∈ b'.forest.nodes, ¬ x.2.val.Mentions p := by
  obtain ⟨fuel, hrun⟩ := hstep
  obtain ⟨⟨res', answered', b₂⟩, hrun, heq⟩ := bind_eq_ok.mp hrun
  cases heq
  rcases unregisterProcess_spec hrun with ⟨hnone, -⟩ | ⟨b₁, proc₁, hloop, hproc₁, hcount, -, rfl⟩
  · rw [hproc] at hnone
    cases hnone
  · -- the calls of the loop release, they do not ask
    have hanew : ∀ {b₁ op}, Within b (.unregisterProcess id) b₁ op → asksAnew p b₁ op = true := by
      intro b₁ op hwithin
      cases hwithin <;> rfl
    have hrec : Recorded p b₁ := hloop.invariant (Recorded p) (recorded_of_run h)
      fun hwithin hb hmove => hmove.recorded (hanew hwithin) hb
    obtain ⟨proc₁', hproc₁', hobj₁, hsize₁⟩ := hloop.shrinks hproc
    obtain rfl := Option.some.inj (hproc₁.symm.trans hproc₁')
    have hempty : proc₁.heldLocks.entries = [] := by
      refine List.length_eq_zero_iff.mp ?_
      rw [Process.getLockCount, Nat.mod_eq_of_lt (Nat.lt_of_le_of_lt hsize₁ hsize)] at hcount
      exact hcount
    have htally := hrec.tallies _ (.registered hproc₁ (hobj₁.trans hobj))
    have hzero : ∀ mode, proc₁.heldIn mode = 0 := by
      intro mode
      rw [Process.heldIn, hempty]
      rfl
    have hclaimed : ∀ mode, b₁.forest.claimed p mode = 0 := fun mode =>
      Nat.le_zero.mp ((htally mode).1.trans_eq (hzero mode))
    intro x hx
    refine LockForest.not_mentions hclaimed (fun mode => (htally mode).2 ?_) hx
    rw [hclaimed, hzero]

/-- Process 0 holds X on `a.b` and S on `a.c`; process 1 waits for `a.b`. -/
def furnished : List Op :=
  [.registerProcess, .registerProcess, .createLock 0 [0x61, 0x2E, 0x62] true,
    .createLock 1 [0x61, 0x2E, 0x63] true, .releaseLock 1 [0x61, 0x2E, 0x63] 2,
    .acquireLock 0 [0x61, 0x2E, 0x63] 0, .acquireLock 1 [0x61, 0x2E, 0x62] 0]

theorem not_mentions_of_unregister_furnished :
    (∃ x ∈ (after 1 furnished).forest.nodes, x.2.val.Mentions 0) ∧
    ∀ x ∈ (next 1 (after 1 furnished) (.unregisterProcess 0)).forest.nodes,
      ¬ x.2.val.Mentions 0 := by
  have hbefore : ((after 1 furnished).forest.nodes.any fun x => decide (x.2.val.Mentions 0)) =
      true := by decide +kernel
  have hrun : along (asksAnew 0) 1 furnished init = true := by decide +kernel
  have hproc : ((after 1 furnished).processes.lookup 0).any (fun proc =>
      decide (proc.object = 0 ∧ proc.heldLocks.size < 2 ^ 32)) = true := by decide +kernel
  have hres : ((after 1 furnished).step 1 (.unregisterProcess 0)).toOption.map Prod.fst =
      some (.unregistered .success) := by decide +kernel
  obtain ⟨x, hx, hmentions⟩ := List.any_eq_true.mp hbefore
  obtain ⟨proc, hlookup, hproc⟩ := (Option.any_eq_true _ _).mp hproc
  obtain ⟨hobj, hsize⟩ := of_decide_eq_true hproc
  exact ⟨⟨x, hx, of_decide_eq_true hmentions⟩,
    not_mentions_of_unregister (reachable_along hrun) hlookup hobj hsize (step_next hres)⟩

/-- Process 0 holds X on `a` and has asked for it once more. -/
def twice : List Op :=
  [.registerProcess, .createLock 0 [0x61] true, .acquireLock 0 [0x61] 2]

/-- A process that is gone can be left as the holder of a lock. -/
theorem mentions_after_unregister :
    ¬ ∀ b id proc answered b', Reachable b → b.processes.lookup id = some proc →
      Step b ⟨.unregisterProcess id, .unregistered .success, answered⟩ b' →
      ∀ x ∈ b'.forest.nodes, ¬ x.2.val.Mentions proc.object := by
  intro h
  have hres : ((after 1 twice).step 1 (.unregisterProcess 0)).toOption.map Prod.fst =
      some (.unregistered .success) := by decide +kernel
  have hproc : ((after 1 twice).processes.lookup 0).any (fun proc => decide (proc.object = 0)) =
      true := by decide +kernel
  have hafter : ((next 1 (after 1 twice) (.unregisterProcess 0)).forest.nodes.any fun x =>
      decide (x.2.val.Mentions 0)) = true := by decide +kernel
  obtain ⟨proc, hlookup, hobj⟩ := (Option.any_eq_true _ _).mp hproc
  obtain ⟨x, hx, hmentions⟩ := List.any_eq_true.mp hafter
  have hnot := h _ _ _ _ _ (reachable_after 1 twice) hlookup (step_next hres) x hx
  rw [of_decide_eq_true hobj] at hnot
  exact hnot (of_decide_eq_true hmentions)

end Backend

end Tclm.Server
