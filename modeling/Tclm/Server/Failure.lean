/-
  Tclm.Server.Failure

  Requests that fail late.

  A request for a lock that does not exist fails at once if it gets that far, and
  `acquire` then takes back every intent lock it took.  If it has to wait on its way,
  it fails in the wake-up loop of the lock it waits at.  That call of `acquire` starts
  in the middle of the tree: the intent locks above stay, and so does the entry in
  `held_locks` that was made when the request was queued.

  Nothing is left over if requests that fail have waited at a root, where there is
  nothing above, and have no entry of their own any more.
-/

import Tclm.Server.Termination

namespace Tclm.Server

open LockForest (Leaves)

/-- The claims of the requests that may not create locks and wait on the path, but not at
    its root. -/
def LockForest.pendingBelow (f : LockForest) : LockPath → Multiset Claim
  | [] => 0
  | c :: rest =>
      match f.roots.lookup c with
      | some l => Lock.pendingBelow rest l
      | none => 0

namespace Backend

/-- A condition on release calls that find something.  Requests that wait on the path,
    may not create locks and name no lock wait at the root; and if such a request is one
    of another process, that process has no entry for it or has another claim that the
    entry can stand for. -/
def failsClean (b : Backend) : Op → Bool
  | .releaseLock pid path mode =>
      match b.processes.lookup pid with
      | some proc =>
          match b.forest.seek proc.object mode (splitPath path) with
          | .nothing => true
          | _ =>
              decide (∀ c ∈ b.forest.pendingBelow (splitPath path),
                (b.forest.node? c.path).isSome = true) &&
              decide (∀ c ∈ b.forest.doomed (splitPath path), c.process ≠ proc.object →
                ∀ e ∈ b.processes.entries, e.2.object = c.process →
                  e.2.recorded c.path c.mode = 0 ∨
                    (b.forest.doomed (splitPath path)).count c < b.forest.claims.count c)
      | none => true
  | _ => true

/-- The condition at a call that releases something. -/
theorem failsClean_of_leaves {b : Backend} {pid : UInt32} {path : PathString} {mode : UInt8}
    {proc : Process} {f' : LockForest} {as : List LockRequest} {l l' : Lock}
    (hclean : failsClean b (.releaseLock pid path mode) = true)
    (hp : b.processes.lookup pid = some proc)
    (hleave : Leaves b.forest proc.object mode (splitPath path) .success f' as (rootName path)
      (splitPath path).tail l l') :
    (∀ c ∈ Lock.pendingBelow (splitPath path).tail l, b.forest.node? c.path ≠ none) ∧
    ∀ c ∈ b.forest.doomed (splitPath path), c.process ≠ proc.object →
      ∀ id q, b.processes.lookup id = some q → q.object = c.process →
        q.recorded c.path c.mode = 0 ∨
          (b.forest.doomed (splitPath path)).count c < b.forest.claims.count c := by
  have hseek : b.forest.seek proc.object mode (splitPath path) ≠ .nothing := by
    rw [splitPath_eq path, LockForest.seek_of_lookup hleave.lookup]
    exact hleave.releases.seek_ne_nothing rfl
  have hbelow : b.forest.pendingBelow (splitPath path) =
      Lock.pendingBelow (splitPath path).tail l := by
    conv_lhs => rw [splitPath_eq path]
    simp only [LockForest.pendingBelow, hleave.lookup]
  simp only [failsClean, hp, hbelow, Bool.and_eq_true, decide_eq_true_eq] at hclean
  refine ⟨fun c hc hnone => ?_, fun c hc hne id q hq hobj => ?_⟩
  · have hsome := hclean.1 c hc
    rw [hnone] at hsome
    cases hsome
  · exact hclean.2 c hc hne (id, q) (SortedMap.lookup_eq_some.mp hq) hobj

-- ============================================================================
-- Exact intent locks along a run
-- ============================================================================

/-- The intent locks of all processes are exact. -/
def Exact (b : Backend) : Prop := b.forest.Accounted (LockState.Balances fun _ _ => True)

theorem Move.exact {b b' : Backend} {op : Op} {res : Result} {answered : Finset LockRequest}
    (h : Move b op res answered b') (hsound : b.forest.Sound) (hclean : failsClean b op = true)
    (hb : Exact b) : Exact b' := by
  cases h with
  | idle | tick | register => exact hb
  | enter _ _ _ henter => exact henter.accounted (balances_rule _) hb
  | add hp hl =>
      exact (LockForest.updates_setRoot hl _).accounted_of_adds (LockForest.createNotHeld_adds ..)
        (balances_rule _) hb
  | release hp hleave =>
      refine hleave.accounted (balances_rule _) (fun c hlost hc => ?_) hsound.seats hb
      have hnone := hleave.node?_eq_none_of_lost hsound.seats hlost
      exact absurd hnone ((failsClean_of_leaves hclean hp hleave).1 c hc)

theorem exact_of_run {b : Backend}
    (h : Lts.Reachable (GuardedStep fun b op => failsClean b op = true) init b) :
    b.forest.Sound ∧ Exact b := by
  refine invariant_of_guarded (fun b => b.forest.Sound ∧ Exact b) h
    ⟨LockForest.sound_empty, LockForest.accounted_empty⟩ ?_ fun hb => hb
  rintro b₁ op res answered b₂ hclean ⟨hsound, hexact⟩ hmove
  exact ⟨hmove.forest_sound hsound, hmove.exact hsound hclean hexact⟩

-- ============================================================================
-- Entries of requests that failed
-- ============================================================================

/-- Whoever has entries for the claim has the claim. -/
def Stands (b : Backend) (c : Claim) : Prop :=
  ∀ id q, b.processes.lookup id = some q → q.object = c.process →
    q.recorded c.path c.mode = 0 ∨ c ∈ b.forest.claims

/-- A release of another process takes away no claim that an entry stands for. -/
theorem stands_of_leaves {b : Backend} {pid : UInt32} {path : PathString} {mode : UInt8}
    {proc : Process} {f' : LockForest} {as : List LockRequest} {l l' : Lock} {c : Claim}
    (hclean : failsClean b (.releaseLock pid path mode) = true) (hsound : b.forest.Sound)
    (hp : b.processes.lookup pid = some proc)
    (hleave : Leaves b.forest proc.object mode (splitPath path) .success f' as (rootName path)
      (splitPath path).tail l l')
    (hother : c.process ≠ proc.object) (hc : Stands b c) :
    Stands (b.update pid f' (proc.removeHeldLock path mode)) c := by
  intro id q hq hobj
  rcases lookup_update_cases hp hq with ⟨rfl, rfl⟩ | ⟨-, hq⟩
  · exact absurd hobj.symm hother
  · rcases hc id q hq hobj with hnone | hmem
    · exact Or.inl hnone
    · obtain ⟨x, hx, -, hclaims, -⟩ := hleave.le_atRisk hsound.seats
      have hlost := Multiset.count_le_of_le c (hleave.lost_le_doomed hsound.seats)
      have hcount := congrArg (Multiset.count c) hclaims
      have hne : c ≠ x := by
        rintro rfl
        exact hother hx
      rw [Multiset.count_cons_of_ne hne, Multiset.count_add] at hcount
      have hpos := Multiset.count_pos.mpr hmem
      by_cases hdoomed : c ∈ b.forest.doomed (splitPath path)
      · rcases (failsClean_of_leaves hclean hp hleave).2 c hdoomed hother id q hq hobj with
          hnone | hlt
        · exact Or.inl hnone
        · have hleft : 0 < f'.claims.count c := by omega
          exact Or.inr (Multiset.count_pos.mp hleft)
      · rw [Multiset.count_eq_zero.mpr hdoomed] at hlost
        have hleft : 0 < f'.claims.count c := by omega
        exact Or.inr (Multiset.count_pos.mp hleft)

/-- A request that failed was a claim before. -/
theorem claim_mem_of_failed {b : Backend} {path : PathString} {mode : UInt8}
    {proc : Process} {f' : LockForest} {as : List LockRequest} {l l' : Lock} {r : LockRequest}
    (hsound : b.forest.Sound)
    (hleave : Leaves b.forest proc.object mode (splitPath path) .success f' as (rootName path)
      (splitPath path).tail l l')
    (hr : r ∈ as) (hfailed : r.acquireStatus = .nonExistent) : r.claim ∈ b.forest.claims := by
  obtain ⟨x, -, -, hclaims, -⟩ := hleave.le_atRisk hsound.seats
  have hlost : r.claim ∈ Lock.lost as :=
    Multiset.mem_coe.mpr (List.mem_map_of_mem (List.mem_filter.mpr ⟨hr, by simp [hfailed]⟩))
  rw [hclaims]
  exact Multiset.mem_cons_of_mem (Multiset.mem_add.mpr (Or.inr hlost))

/-- The entries of other processes whose requests fail in the loop of
    `unregister_process`. -/
theorem Unregistering.stands {b b₁ : Backend} {id : UInt32} {proc : Process}
    {answered : Finset LockRequest} {locks : List (PathString × UInt8)}
    (h : Unregistering b id answered b₁ locks) (hsound : b.forest.Sound)
    (hproc : b.processes.lookup id = some proc)
    (hclean : ∀ b₁ op, Within b (.unregisterProcess id) b₁ op → failsClean b₁ op = true) :
    b₁.forest.Sound ∧ (∃ proc₁, b₁.processes.lookup id = some proc₁ ∧ proc₁.object = proc.object) ∧
      ∀ r ∈ answered, r.acquireStatus = .nonExistent → r.requester ≠ proc.object →
        Stands b₁ r.claim := by
  induction h with
  | start => exact ⟨hsound, ⟨proc, hproc, rfl⟩, fun r hr => by simp at hr⟩
  | pass _ _ _ ih => exact ih
  | @call answered b₁ b₂ path mode locks res more hloop hrel ih =>
      obtain ⟨hsound₁, ⟨proc₁, hproc₁, hobj⟩, hans⟩ := ih
      have hmove := move_of_releaseLock hrel
      have hsound₂ := hmove.forest_sound hsound₁
      cases hmove with
      | tick hop => cases hop
      | enter hask => cases hask
      | idle =>
          refine ⟨hsound₂, ⟨proc₁, hproc₁, hobj⟩, ?_⟩
          rw [Finset.union_empty]
          exact hans
      | release hp hleave =>
          obtain rfl := Option.some.inj (hproc₁.symm.trans hp)
          have hcond := hclean _ _ (.release hloop)
          refine ⟨hsound₂, ⟨_, lookup_update hp, hobj⟩, fun r hr hfailed hother => ?_⟩
          have hne : r.claim.process ≠ proc₁.object := by
            rw [hobj]
            exact hother
          refine stands_of_leaves hcond hsound₁ hp hleave hne ?_
          rcases Finset.mem_union.mp hr with hr | hr
          · exact hans r hr hfailed hother
          · -- it waits until this call, so the claim is still there
            have hmem := claim_mem_of_failed hsound₁ hleave (List.mem_toFinset.mp hr) hfailed
            exact fun _ _ _ _ => Or.inr hmem

/-- What stands in the set of answers of an operation that fails cleanly. -/
theorem stands_of_step {b b' : Backend} {e : Event} (hsound : b.forest.Sound)
    (hstep : GuardedStep (fun b op => failsClean b op = true) b e b') {r : LockRequest}
    (hr : r ∈ e.answered) (hfailed : r.acquireStatus = .nonExistent)
    (hother : ∀ pid proc, e.op.issuer = some pid → b.processes.lookup pid = some proc →
      r.requester ≠ proc.object) : Stands b' r.claim := by
  obtain ⟨hclean, hstep⟩ := hstep
  rcases hstep.answered_cases hr with
    ⟨pid, path, mode, p, f', as, l, l', hop, hp, has, hleave, rfl⟩ | ⟨id, b₁, hop, hloop, rfl⟩
  · rw [has] at hr
    have hmem := claim_mem_of_failed hsound hleave (List.mem_toFinset.mp hr) hfailed
    rw [hop] at hclean hother
    exact stands_of_leaves (hclean _ _ .self) hsound hp hleave (hother pid p rfl hp)
      fun _ _ _ _ => Or.inr hmem
  · obtain ⟨proc, hproc⟩ := hloop.registered
    rw [hop] at hclean hother
    obtain ⟨-, -, hans⟩ := hloop.stands hsound hproc hclean
    have hstands := hans r hr hfailed (hother id proc rfl hproc)
    exact fun id' q hq hobj => hstands id' q (lookup_of_drop hq) hobj

/-- In a run in which requests fail cleanly, a request of another process that an operation
    answers with `NON_EXISTENT` leaves no trace: the intent locks on its path are exactly
    those that the requester's other locks and requests below need, and if an entry for the
    path and mode of the request is left, the requester has another lock or request for
    it. -/
theorem no_trace_of_failed {b b' : Backend} {e : Event}
    (h : Lts.Reachable (GuardedStep fun b op => failsClean b op = true) init b)
    (hstep : GuardedStep (fun b op => failsClean b op = true) b e b') {r : LockRequest}
    (hr : r ∈ e.answered) (hfailed : r.acquireStatus = .nonExistent)
    (hother : ∀ pid proc, e.op.issuer = some pid → b.processes.lookup pid = some proc →
      r.requester ≠ proc.object) :
    (∀ ρ n, ρ <+: r.path → b'.forest.node? ρ = some n → ∀ m,
      (n.val.intents m).count r.requester =
        ((NamedTree.descendants ρ n).map fun y => demand r.requester m y.2.val).sum) ∧
    ∀ id q, b'.processes.lookup id = some q → q.object = r.requester → ∀ s,
      splitPath s = r.path → (s, r.mode) ∈ q.heldLocks.entries → r.claim ∈ b'.forest.claims := by
  have hsound := (exact_of_run h).1
  have hexact := (exact_of_run (h.next hstep)).2
  refine ⟨fun ρ n _ hn m => ?_, fun id q hq hobj s hs hentry => ?_⟩
  · obtain ⟨c, l, hl, hmem⟩ := LockForest.mem_nodes.mp (LockForest.mem_nodes_of_node? hn)
    rw [← count_needs_weighBelow]
    exact hexact c l hl _ hmem r.requester m trivial
  · rcases stands_of_step hsound hstep hr hfailed hother id q hq hobj with hnone | hmem
    · have hpos : 0 < q.recorded r.path r.mode :=
        List.countP_pos_iff.mpr ⟨(s, r.mode), hentry, by simp [hs]⟩
      exact absurd hnone hpos.ne'
    · exact hmem

theorem object_eq_of_lookup {b : Backend} {id : UInt32} {p : ProcessRef} {proc : Process}
    (h : (b.processes.lookup id).all (fun proc => proc.object = p) = true)
    (hproc : b.processes.lookup id = some proc) : proc.object = p := by
  rw [hproc] at h
  simpa using h

/-- Process 0 holds X on `a`.  Process 1 has asked twice for S on `a.b`, which does not
    exist, and has withdrawn one of the requests. -/
def forlorn : List Op :=
  [.registerProcess, .registerProcess, .createLock 0 [0x61] true,
    .acquireLock 1 [0x61, 0x2E, 0x62] 0, .acquireLock 1 [0x61, 0x2E, 0x62] 0,
    .releaseLock 1 [0x61, 0x2E, 0x62] 0]

theorem no_trace_of_failed_forlorn :
    ∃ r ∈ answeredBy 1 (after 1 forlorn) (.releaseLock 0 [0x61] 2),
      r.acquireStatus = .nonExistent ∧ r.requester = 1 ∧
      ∀ n, (next 1 (after 1 forlorn) (.releaseLock 0 [0x61] 2)).forest.node? [[0x61]] = some n →
        (n.val.intents .S).count 1 =
          ((NamedTree.descendants [[0x61]] n).map fun y => demand 1 .S y.2.val).sum := by
  have hrun : along failsClean 1 forlorn init = true := by decide +kernel
  have hclean : failsClean (after 1 forlorn) (.releaseLock 0 [0x61] 2) = true := by decide +kernel
  have hres : ((after 1 forlorn).step 1 (.releaseLock 0 [0x61] 2)).toOption.map Prod.fst =
      some (.released .released) := by decide +kernel
  have hfails : ∃ r ∈ answeredBy 1 (after 1 forlorn) (.releaseLock 0 [0x61] 2),
      r.acquireStatus = .nonExistent ∧ r.requester = 1 ∧ [[0x61]] <+: r.path := by decide +kernel
  have hobj : ((after 1 forlorn).processes.lookup 0).all (fun proc => proc.object = 0) = true := by
    decide +kernel
  obtain ⟨r, hr, hstatus, hreq, hpath⟩ := hfails
  refine ⟨r, hr, hstatus, hreq, fun n hn => ?_⟩
  have htrace := no_trace_of_failed (reachable_along hrun)
    (guarded_of_isSimple rfl hclean (step_next hres)) hr hstatus ?_
  · have hcount := htrace.1 [[0x61]] n hpath hn .S
    rwa [hreq] at hcount
  · intro pid proc hpid hproc
    obtain rfl : 0 = pid := Option.some.inj hpid
    rw [hreq, object_eq_of_lookup hobj hproc]
    exact Nat.one_ne_zero

/-- Process 0 holds X on `a.b`, process 1 waits there for S on `a.b.c`, which does not
    exist. -/
def stale : List Op :=
  [.registerProcess, .registerProcess, .createLock 0 [0x61, 0x2E, 0x62] true,
    .acquireLock 1 [0x61, 0x2E, 0x62, 0x2E, 0x63] 0]

/-- A request that fails late can leave an intent lock behind. -/
theorem failed_request_leaves_intent :
    ¬ ∀ b e b', Reachable b → Step b e b' → ∀ r ∈ e.answered, r.acquireStatus = .nonExistent →
      (∀ pid proc, e.op.issuer = some pid → b.processes.lookup pid = some proc →
        r.requester ≠ proc.object) →
      (∀ ρ n, ρ <+: r.path → b'.forest.node? ρ = some n → ∀ m,
        (n.val.intents m).count r.requester =
          ((NamedTree.descendants ρ n).map fun y => demand r.requester m y.2.val).sum) ∧
      ∀ id q, b'.processes.lookup id = some q → q.object = r.requester → ∀ s,
        splitPath s = r.path → (s, r.mode) ∈ q.heldLocks.entries → r.claim ∈ b'.forest.claims := by
  intro h
  have hres : ((after 1 stale).step 1 (.releaseLock 0 [0x61, 0x2E, 0x62] 2)).toOption.map Prod.fst =
      some (.released .released) := by decide +kernel
  have hfails : ∃ r ∈ answeredBy 1 (after 1 stale) (.releaseLock 0 [0x61, 0x2E, 0x62] 2),
      r.acquireStatus = .nonExistent ∧ r.requester = 1 ∧ [[0x61]] <+: r.path := by decide +kernel
  have hobj : ((after 1 stale).processes.lookup 0).all (fun proc => proc.object = 0) = true := by
    decide +kernel
  have hstale : ((next 1 (after 1 stale) (.releaseLock 0 [0x61, 0x2E, 0x62] 2)).forest.node?
      [[0x61]]).any (fun n => decide ((n.val.intents .S).count 1 ≠
        ((NamedTree.descendants [[0x61]] n).map fun y => demand 1 .S y.2.val).sum)) = true := by
    decide +kernel
  obtain ⟨r, hr, hstatus, hreq, hpath⟩ := hfails
  obtain ⟨n, hn, hne⟩ := (Option.any_eq_true _ _).mp hstale
  have htrace := h _ _ _ (reachable_after 1 stale) (step_next hres) r hr hstatus ?_
  · have hcount := htrace.1 [[0x61]] n hpath hn .S
    rw [hreq] at hcount
    exact of_decide_eq_true hne hcount
  · intro pid proc hpid hproc
    obtain rfl : 0 = pid := Option.some.inj hpid
    rw [hreq, object_eq_of_lookup hobj hproc]
    exact Nat.one_ne_zero

end Backend

end Tclm.Server
