/-
  Tclm.Server.Withdrawal

  Releasing a lock that is not held.

  `release` then withdraws a waiting request of the process, the first one in the
  mode that it meets on its way up the path.  It does not look at the path of that
  request: a request for another lock that has to pass the same nodes is taken as
  well.
-/

import Tclm.Server.Requests

namespace Tclm.Server

namespace LockForest

/-- The process holds the lock with this path in the mode. -/
def HeldBy (f : LockForest) (p : ProcessRef) (path : LockPath) (mode : UInt8) : Prop :=
  ∃ n m, f.node? path = some n ∧ mode = m.toByte ∧ n.val.Holds p m

/-- The request waits in some queue of the forest. -/
def Waiting (f : LockForest) (r : LockRequest) : Prop := ∃ x ∈ f.nodes, r ∈ x.2.val.lockRequests

/-- After the call the request waits, or it was answered. -/
def Survives (f' : LockForest) (answered : Finset LockRequest) (r : LockRequest) : Prop :=
  (∃ r', f'.Waiting r' ∧ r'.address = r.address) ∨ ∃ r' ∈ answered, r'.address = r.address

/-- Exactly one request was withdrawn, and it is a request of the process for this path and
    mode; every request of the process for another path is still there or was answered. -/
def CancelsNamed (f f' : LockForest) (answered : Finset LockRequest) (p : ProcessRef)
    (path : LockPath) (mode : UInt8) : Prop :=
  (∃ r, f.Waiting r ∧ r.requester = p ∧ r.mode = mode ∧ r.path = path ∧
    ¬ Survives f' answered r ∧
    ∀ r', f.Waiting r' → ¬ Survives f' answered r' → r'.address = r.address) ∧
  ∀ r, f.Waiting r → r.requester = p → r.path ≠ path → Survives f' answered r

/-- The request that `release` comes upon is one for the path that is released. -/
def meetsNamed (f : LockForest) (p : ProcessRef) (path : LockPath) (mode : UInt8) : Bool :=
  match f.seek p mode path with
  | .request s => (s.firstRequest p mode).all fun r => r.path = path
  | _ => true

end LockForest

namespace Backend

open LockForest (Waiting Survives CancelsNamed Leaves)

theorem occurrences_pos_iff {f : LockForest} {a : Nat} :
    0 < occurrences f a ↔ ∃ r, f.Waiting r ∧ r.address = a := by
  rw [Nat.pos_iff_ne_zero, occurrences, Ne, List.sum_eq_zero_iff_forall_eq_nat]
  simp only [List.mem_map, forall_exists_index, and_imp, forall_apply_eq_imp_iff₂, not_forall,
    List.countP_eq_zero, decide_eq_true_eq, Waiting]
  constructor
  · rintro ⟨x, hx, r, hr, ha⟩
    exact ⟨r, ⟨x, hx, hr⟩, Classical.not_not.mp ha⟩
  · rintro ⟨r, ⟨x, hx, hr⟩, ha⟩
    exact ⟨x, hx, r, hr, fun hne => hne ha⟩

/-- An object waits in one place only. -/
theorem Ticketed.eq_of_address {b : Backend} (h : Ticketed b) {r r' : LockRequest}
    (hr : b.forest.Waiting r) (hr' : b.forest.Waiting r') (ha : r'.address = r.address) : r' = r := by
  have hin : ∀ y, b.forest.Waiting y → y.address = r.address →
      y ∈ (b.forest.nodes.flatMap fun x => x.2.val.lockRequests).filter
        fun y => y.address = r.address := by
    rintro y ⟨x, hx, hy⟩ haddr
    exact List.mem_filter.mpr ⟨List.mem_flatMap.mpr ⟨x, hx, hy⟩, decide_eq_true haddr⟩
  have hone := h.once r.address
  have hall : occurrences b.forest r.address =
      ((b.forest.nodes.flatMap fun x => x.2.val.lockRequests).filter
        fun y => y.address = r.address).length := by
    rw [← List.countP_eq_length_filter, List.countP_flatMap]
    rfl
  rw [hall] at hone
  have hmem := hin r hr rfl
  have hmem' := hin r' hr' ha
  match hlist : (b.forest.nodes.flatMap fun x => x.2.val.lockRequests).filter
      fun y => y.address = r.address with
  | [] =>
      rw [hlist] at hmem
      cases hmem
  | [y] =>
      rw [hlist, List.mem_singleton] at hmem hmem'
      rw [hmem, hmem']
  | y :: z :: more =>
      rw [hlist, List.length_cons, List.length_cons] at hone
      omega

/-- A request survives a call where its object is still counted. -/
theorem survives_iff {f' : LockForest} {as : List LockRequest} {r : LockRequest} :
    Survives f' as.toFinset r ↔
      0 < occurrences f' r.address + as.countP fun r' => r'.address = r.address := by
  rw [Survives, ← occurrences_pos_iff, Nat.add_pos_iff_pos_or_pos, List.countP_pos_iff]
  simp only [List.mem_toFinset, decide_eq_true_eq]

/-- A successful call that does not find the lock held withdraws one request, and the search
    upwards comes upon a request for the same path. -/
theorem withdraws_one {b : Backend} {p : ProcessRef} {mode : UInt8} {path rest : LockPath}
    {f' : LockForest} {as : List LockRequest} {c : LockName} {l l' : Lock} (hb : b.forest.Sound)
    (ht : Ticketed b) (hleave : Leaves b.forest p mode path .success f' as c rest l l')
    (hnot : ¬ b.forest.HeldBy p path mode) :
    ∃ r, b.forest.Waiting r ∧ r.requester = p ∧ r.mode = mode ∧
      (b.forest.meetsNamed p path mode = true ↔ r.path = path) ∧ ¬ Survives f' as.toFinset r ∧
      ∀ r', b.forest.Waiting r' → r'.address ≠ r.address → Survives f' as.toFinset r' := by
  obtain ⟨x, hx, hweigh⟩ := hleave.weigh_eq hb.seats
  have hseek : b.forest.seek p mode path = Lock.seek p mode rest l := by
    rw [hleave.path_eq, LockForest.seek_of_lookup hleave.lookup]
  have hfound := Lock.seek_of_finds hx
  cases hx with
  | @lock n s' hn hunlock =>
      obtain ⟨m, hm, hholds⟩ := LockState.tryUnlock_isSome.mp (Option.isSome_of_eq_some hunlock)
      refine absurd ⟨n, m, ?_, hm, hholds⟩ hnot
      rw [hleave.path_eq, LockForest.node?, hleave.lookup, Option.bind_some, hn]
  | @request ρ rest' n r pre post hpath hn _ hq hreq hmode =>
      have hmem : (c :: ρ, n) ∈ b.forest.nodes :=
        LockForest.mem_nodes.mpr ⟨_, l, hleave.lookup, NamedTree.mem_nodes_of_find (π := [_]) hn⟩
      have hwaits : b.forest.Waiting r := ⟨_, hmem, by simp [hq]⟩
      -- the objects are counted before and after
      have hcount : ∀ a, occurrences b.forest a = (if r.address = a then 1 else 0) +
          (occurrences f' a + as.countP fun r' => r'.address = a) := by
        intro a
        have hsum := hweigh (.tally a)
        rw [gained_tally, spent_tally, add_zero, ← occurrences_eq, ← occurrences_eq,
          add_assoc] at hsum
        exact hsum
      refine ⟨r, hwaits, hreq, hmode, ?_, ?_, fun r' hr' hne => ?_⟩
      · rcases hfound with ⟨hlock, hclaim⟩ | ⟨s, r₁, hs, hr₁, hclaim⟩
        · have hpath' : r.path = [c] ++ rest := congrArg Claim.path hclaim
          rw [LockForest.meetsNamed, hseek, hlock, hpath', hleave.path_eq]
          exact ⟨fun _ => rfl, fun _ => rfl⟩
        · have hpath' : r.path = r₁.path := congrArg Claim.path hclaim
          rw [LockForest.meetsNamed, hseek, hs, hpath']
          simp only [hr₁, Option.all_some, decide_eq_true_eq]
      · have honce := ht.once r.address
        have hsame := hcount r.address
        rw [if_pos rfl] at hsame
        rw [survives_iff]
        omega
      · have hpos := occurrences_pos_iff.mpr ⟨r', hr', rfl⟩
        rw [hcount, if_neg hne.symm, Nat.zero_add] at hpos
        exact survives_iff.mpr hpos

/-- The withdrawn request is the named one exactly when the search comes upon such a one. -/
theorem cancelsNamed_iff_of_leaves {b : Backend} {p : ProcessRef} {mode : UInt8}
    {path rest : LockPath} {f' : LockForest} {as : List LockRequest} {c : LockName} {l l' : Lock}
    (hb : b.forest.Sound) (ht : Ticketed b)
    (hleave : Leaves b.forest p mode path .success f' as c rest l l')
    (hnot : ¬ b.forest.HeldBy p path mode) :
    CancelsNamed b.forest f' as.toFinset p path mode ↔
      b.forest.meetsNamed p path mode = true := by
  obtain ⟨r, hwaits, hreq, hmode, hmeets, hgone, hothers⟩ := withdraws_one hb ht hleave hnot
  rw [hmeets]
  constructor
  · rintro ⟨-, hkept⟩
    by_contra hpath
    exact hgone (hkept r hwaits hreq hpath)
  · intro hpath
    refine ⟨⟨r, hwaits, hreq, hmode, hpath, hgone, fun r' hr' hgone' => ?_⟩,
      fun r' hr' _ hpath' => ?_⟩
    · by_contra hne
      exact hgone' (hothers r' hr' hne)
    · apply hothers r' hr'
      intro haddr
      apply hpath'
      rw [ht.eq_of_address hwaits hr' haddr]
      exact hpath

/-- A successful call of `release` in a reachable state. -/
theorem Reachable.leaves {b : Backend} (h : Reachable b) {p p' : Process} {path : PathString}
    {mode : UInt8} {f' : LockForest} {answered : Finset LockRequest}
    (hrel : b.forest.release p path mode = .ok (.success, f', p', answered)) :
    b.forest.Sound ∧ Ticketed b ∧ ∃ as l l', answered = as.toFinset ∧
      Leaves b.forest p.object mode (splitPath path) .success f' as (rootName path)
        (splitPath path).tail l l' := by
  obtain ⟨es, hrun⟩ := h
  obtain ⟨hsound, hticket, -⟩ := answers_of_trace hrun
  obtain ⟨-, ⟨-, hnone, -⟩ | hleave⟩ := LockForest.release_spec hrel
  · cases hnone
  · exact ⟨hsound, hticket, hleave⟩

/-- Where `release` succeeds for a lock that is not held, it has withdrawn exactly one request,
    one for this lock, if and only if the request it comes upon is for this lock. -/
theorem cancels_named_iff {b : Backend} (h : Reachable b) {p p' : Process} {path : PathString}
    {mode : UInt8} {f' : LockForest} {answered : Finset LockRequest}
    (hrel : b.forest.release p path mode = .ok (.success, f', p', answered))
    (hnot : ¬ b.forest.HeldBy p.object (splitPath path) mode) :
    CancelsNamed b.forest f' answered p.object (splitPath path) mode ↔
      b.forest.meetsNamed p.object (splitPath path) mode = true := by
  obtain ⟨hsound, hticket, as, l, l', rfl, hleave⟩ := h.leaves hrel
  exact cancelsNamed_iff_of_leaves hsound hticket hleave hnot

/-- Process 0 holds X on `a`, process 1 waits there for S on `a.b`. -/
def passing : List Op :=
  [.registerProcess, .registerProcess, .createLock 0 [0x61] true,
    .acquireLock 1 [0x61, 0x2E, 0x62] 0]

/-- The process with id 1 in `passing`. -/
def passer : Process := ⟨1, 1, (SortedList.empty : HeldLocks).insert ([0x61, 0x2E, 0x62], 0)⟩

theorem not_heldBy {f : LockForest} {p : ProcessRef} {path : LockPath} {mode : UInt8}
    (h : f.node? path = none) : ¬ f.HeldBy p path mode := by
  rintro ⟨n, m, hn, -⟩
  rw [h] at hn
  cases hn

theorem release_passing (path : PathString)
    (h : ((after 1 passing).forest.release passer path 0).toOption.map (·.1) = some .success) :
    ∃ f' p' answered,
      (after 1 passing).forest.release passer path 0 = .ok (.success, f', p', answered) := by
  cases hrel : (after 1 passing).forest.release passer path 0 with
  | error fault =>
      rw [hrel] at h
      cases h
  | ok x =>
      obtain ⟨ret, f', p', answered⟩ := x
      rw [hrel] at h
      obtain rfl : ret = .success := Option.some.inj h
      exact ⟨f', p', answered, rfl⟩

/-- Process 1 withdraws its request. -/
theorem cancels_named_iff_passing :
    ∃ f' p' answered,
      (after 1 passing).forest.release passer [0x61, 0x2E, 0x62] 0 =
        .ok (.success, f', p', answered) ∧
      CancelsNamed (after 1 passing).forest f' answered 1 (splitPath [0x61, 0x2E, 0x62]) 0 := by
  obtain ⟨f', p', answered, hrel⟩ := release_passing [0x61, 0x2E, 0x62] (by decide +kernel)
  refine ⟨f', p', answered, hrel, ?_⟩
  apply (cancels_named_iff (reachable_after 1 passing) hrel (not_heldBy (by decide +kernel))).mpr
  decide +kernel

/-- Process 1 releases `a.c`, which it has never asked for.  The call succeeds and withdraws
    the request for `a.b`. -/
theorem cancel_hits_other_lock :
    Reachable (after 1 passing) ∧
    (after 1 passing).processes.lookup 1 = some passer ∧
    ∃ f' p' answered,
      (after 1 passing).forest.release passer [0x61, 0x2E, 0x63] 0 =
        .ok (.success, f', p', answered) ∧
      ¬ (after 1 passing).forest.HeldBy passer.object (splitPath [0x61, 0x2E, 0x63]) 0 ∧
      ¬ CancelsNamed (after 1 passing).forest f' answered passer.object
        (splitPath [0x61, 0x2E, 0x63]) 0 := by
  have hnot : ¬ (after 1 passing).forest.HeldBy passer.object (splitPath [0x61, 0x2E, 0x63]) 0 :=
    not_heldBy (by decide +kernel)
  obtain ⟨f', p', answered, hrel⟩ := release_passing [0x61, 0x2E, 0x63] (by decide +kernel)
  refine ⟨reachable_after 1 passing, rfl, f', p', answered, hrel, hnot, fun h => ?_⟩
  obtain ⟨hsound, hticket, as, l, l', rfl, hleave⟩ := (reachable_after 1 passing).leaves hrel
  have hmeets := (cancelsNamed_iff_of_leaves hsound hticket hleave hnot).mp h
  revert hmeets
  decide +kernel

end Backend

end Tclm.Server
