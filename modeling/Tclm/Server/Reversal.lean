/-
  Tclm.Server.Reversal

  Calls that leave no trace.

  - A call of `acquire` that finds its path missing has already entered intent locks on the
    way, and takes back exactly these.
  - A `release` right after a granted `acquire` takes back exactly what was granted, if no
    waiting request on the path could have gone on before.
-/

import Mathlib.Data.List.Infix
import Tclm.Server.Waiting

namespace Tclm.Server

-- ============================================================================
-- Failed calls
-- ============================================================================

namespace LockForest

open NamedTree (find)

/-- A path is found in the tree of its root. -/
theorem node?_of_lookup {f : LockForest} {path : PathString} {l : Lock}
    (hl : f.roots.lookup (rootName path) = some l) :
    f.node? (splitPath path) = find (splitPath path).tail l := by
  rw [splitPath_eq path, node?, hl]
  rfl

/-- A path without its root is not found. -/
theorem node?_of_lookup_none {f : LockForest} {path : PathString}
    (hl : f.roots.lookup (rootName path) = none) : f.node? (splitPath path) = none := by
  rw [splitPath_eq path, node?, hl]
  rfl

/-- `NON_EXISTENT` is the answer for missing paths only, and nothing has changed then: neither
    the forest nor what the process records as held. -/
theorem acquire_atomic (f : LockForest) (address : Nat) (p : Process) (path : PathString)
    (mode : UInt8) :
    ∃ ret f' p', f.acquire address p path mode = .ok (ret, f', p') ∧
      (ret = .nonExistent → f.node? (splitPath path) = none ∧ f' = f ∧ p' = p) ∧
      (f.node? (splitPath path) ≠ none → ret = .acquired ∨ ret = .queued) := by
  rcases f.acquire_spec address p path mode with ⟨hroot, hrun⟩ | ⟨ret, l, l', r', hl, henter, hrun⟩
  · have hnone := node?_of_lookup_none hroot
    exact ⟨_, _, _, hrun, fun _ => ⟨hnone, rfl, rfl⟩, fun h => absurd hnone h⟩
  · have hmissing : ret = .nonExistent → f.node? (splitPath path) = none := by
      intro hret
      have hfind := henter.acquires.find_eq_none hret
      rw [remaining_of_start (s := path) rfl rfl] at hfind
      rw [node?_of_lookup hl]
      exact hfind
    refine ⟨_, _, _, hrun, fun hret => ⟨hmissing hret, ?_, if_pos hret⟩, fun hfound => ?_⟩
    · subst hret
      rw [henter.acquires.unchanged]
      exact setRoot_self hl
    · cases ret with
      | acquired => exact Or.inl rfl
      | queued => exact Or.inr rfl
      | nonExistent => exact absurd (hmissing rfl) hfound

end LockForest

-- ============================================================================
-- Releasing what was granted
-- ============================================================================

namespace LockState

/-- Releasing restores the state before the lock was granted. -/
theorem tryUnlock_of_tryLock {s s' : LockState} {r : LockRequest} (h : s.tryLock r = some s') :
    s'.tryUnlock r.requester r.mode = some s := by
  obtain ⟨m, hm, hmay, rfl⟩ := tryLock_eq_some h
  rw [tryUnlock, hm, Mode.ofByte_toByte]
  cases m with
  | S =>
      have hmem : r.requester ∈ (s.addLocker r.requester .S).lockersS := Multiset.mem_cons_self _ _
      simp only [if_pos hmem]
      simp only [addLocker, Multiset.erase_cons_head]
  | Splus =>
      have hnone : s.lockerSplus = none := hmay.1
      simp only [addLocker, if_true]
      rw [← hnone]
  | X =>
      have hnone : s.lockerX = none := hmay.2.1
      simp only [addLocker, if_true]
      rw [← hnone]

end LockState

namespace Lock

open NamedTree (node find)

/-- Where the first request is blocked, the wake-up loop does nothing. -/
theorem wakeRequests_of_settled {l : Lock} (hsettled : l.val.Settled)
    (hstatus : ∀ r ∈ l.val.lockRequests, r.acquireStatus = .queued)
    (answered : Finset LockRequest) : wakeRequests l answered = .ok (.success, l, answered) := by
  cases hq : l.val.lockRequests with
  | nil => simp [wakeRequests, hq, wakeUp, bind, Except.bind]
  | cons r queue =>
      have hsame : r.withStatus .queued = r := by
        rw [LockRequest.withStatus, ← hstatus r (by rw [hq]; exact List.mem_cons_self ..)]
      have hfront : l.setFront r = l := by
        cases l with
        | node k s cs =>
            have hs : s.lockRequests = r :: queue := hq
            rw [setFront, setRequests, NamedTree.val_node, hs, List.tail_cons, ← hs]
            rfl
      have hrun := acquire_of_blocks (hsettled r queue hq)
      rw [hsame] at hrun
      simp [wakeRequests, hq, wakeUp, hrun, hfront, bind, Except.bind]

theorem splitChild_append_cons {pre : List Lock} {child : Lock} {c : LockName}
    (hname : child.name = c) (hpre : ∀ d ∈ pre, d.name ≠ c) (post : List Lock) :
    splitChild c (pre ++ child :: post) = some (pre, child, post) := by
  induction pre with
  | nil => simp [splitChild, List.splitFirst, hname]
  | cons d pre ih =>
      have hd : d.name ≠ c := hpre d (List.mem_cons_self ..)
      have ih := ih fun e he => hpre e (List.mem_cons_of_mem _ he)
      rw [splitChild] at ih
      simp [splitChild, List.splitFirst, hd, ih]

/-- On the way down the path the first requests are blocked. -/
def SettledAlong (path : LockPath) (l : Lock) : Prop :=
  ∀ ρ n, ρ <+: path → find ρ l = some n → n.val.Settled

theorem SettledAlong.root {path : LockPath} {l : Lock} (h : SettledAlong path l) : l.val.Settled :=
  h [] l List.nil_prefix rfl

theorem SettledAlong.child {rest : LockPath} {k : LockName} {s : LockState}
    {pre post : List Lock} {child : Lock}
    (h : SettledAlong (child.name :: rest) (node k s (pre ++ child :: post)))
    (hpre : ∀ d ∈ pre, d.name ≠ child.name) : SettledAlong rest child := by
  intro ρ n hρ hn
  refine h (child.name :: ρ) n (List.prefix_cons_inj _ |>.mpr hρ) ?_
  rw [NamedTree.find_node_append_cons hpre]
  exact hn

/-- A release takes back what a call of `acquire` has just granted. -/
theorem Acquires.release_eq {good : LockRequest → Prop} {rest π : LockPath} {l l' : Lock}
    {r r' : LockRequest} {ins : Bool} {ret : AcquireStatus} (h : Acquires rest l r ins ret l' r')
    (hret : ret = .acquired) (hcreate : r.createMissing = false)
    (hseats : All (LockState.Seats good) π l) (hsettled : SettledAlong rest l) :
    release r.requester r.mode rest l' = .ok (.success, l, ∅) := by
  induction h generalizing π with
  | @granted k s s' cs r ins hlock =>
      have hwake := wakeRequests_of_settled hsettled.root
        (fun x hx => (hseats.root x hx).2.1) ∅
      simp only [release, LockState.tryUnlock_of_tryLock hlock]
      exact hwake
  | refused | blocked | failed | missing => cases hret
  | @descended c rest k s s' pre child post r ins ret child' r' hintent hname hpre _ hbelow ih =>
      subst hname
      obtain ⟨-, -, hseatsc⟩ := all_append_cons.mp hseats
      have hchild : release r.requester r.mode rest child' = .ok (.success, child, ∅) :=
        ih hret hcreate hseatsc (hsettled.child hpre)
      have hsplit := splitChild_append_cons hbelow.name_eq hpre post
      have hwake := wakeRequests_of_settled hsettled.root
        (fun x hx => (hseats.root x hx).2.1) ∅
      simp only [release, hsplit, hchild, LockState.eraseIntent_of_tryIntent hintent, bind,
        Except.bind, if_true]
      exact hwake
  | created _ _ hmissing =>
      rw [hcreate] at hmissing
      cases hmissing

end Lock

namespace Backend

/-- If before a granted `acquire` the first requests on the path were blocked, then a release of
    the same lock right afterwards succeeds, answers nobody, and leaves the forest as it was. -/
theorem release_undoes_acquire {b : Backend} (h : b.Reachable) {pid : UInt32} {p p' : Process}
    (_hp : b.processes.lookup pid = some p) {path : PathString} {mode : UInt8} {address : Nat}
    {f' : LockForest}
    (hblocked : ∀ ρ n, ρ <+: splitPath path → b.forest.node? ρ = some n → n.val.Settled)
    (hacq : b.forest.acquire address p path mode = .ok (.acquired, f', p')) :
    ∃ p'', f'.release p' path mode = .ok (.success, b.forest, p'', ∅) := by
  rcases b.forest.acquire_spec address p path mode with
    ⟨-, hrun⟩ | ⟨ret, l, l', r', hl, henter, hrun⟩
  · rw [hrun] at hacq
    cases hacq
  · rw [hrun] at hacq
    cases hacq
    have hsettled : Lock.SettledAlong (splitPath path).tail l := by
      intro ρ n hρ hn
      refine hblocked (rootName path :: ρ) n ?_ ?_
      · rw [splitPath_eq path]
        exact (List.prefix_cons_inj _).mpr hρ
      · rw [LockForest.node?, hl]
        exact hn
    have hacquires := henter.acquires
    rw [LockForest.remaining_of_start (s := path) rfl rfl] at hacquires
    have hrelease := hacquires.release_eq rfl rfl (h.forest_sound.seats _ l hl) hsettled
    refine ⟨(p.addHeldLock path mode).removeHeldLock path mode, ?_⟩
    have hroot : (b.forest.setRoot (rootName path) l').roots.lookup (rootName path) = some l' :=
      SortedMap.lookup_set_self hl
    have hback : (b.forest.setRoot (rootName path) l').setRoot (rootName path) l = b.forest := by
      rw [LockForest.setRoot, LockForest.setRoot, SortedMap.set_set]
      exact LockForest.setRoot_self hl
    have hobject : (p.addHeldLock path mode).object = p.object := rfl
    have hrelease' : Lock.release p.object mode (splitPath path).tail l' = .ok (.success, l, ∅) :=
      hrelease
    simp only [LockForest.release, hroot, hobject, reduceCtorEq, if_false, hrelease', bind,
      Except.bind, if_true, hback]

/-- Process 0 holds S on `a`, process 1 holds S+ on `a.b` and waits for X on `a`. -/
def crowded : List Op := sharing ++ [.acquireLock 1 [0x61] 2]

theorem release_undoes_acquire_crowded :
    ∃ f' p' p'', (∃ p, (after 1 crowded).processes.lookup 0 = some p ∧
      (after 1 crowded).forest.acquire 3 p [0x61, 0x2E, 0x62] 0 = .ok (.acquired, f', p')) ∧
      f'.release p' [0x61, 0x2E, 0x62] 0 = .ok (.success, (after 1 crowded).forest, p'', ∅) := by
  have hproc : ((after 1 crowded).processes.lookup 0).any (fun p =>
      ((after 1 crowded).forest.acquire 3 p [0x61, 0x2E, 0x62] 0).toOption.any fun x =>
        decide (x.1 = .acquired)) = true := by decide +kernel
  have hblocked : [[], [[0x61]], [[0x61], [0x62]]].all (fun ρ =>
      ((after 1 crowded).forest.node? ρ).all fun n =>
        n.val.lockRequests.head?.all fun r => decide (n.val.Blocks r)) = true := by decide +kernel
  obtain ⟨p, hp, hrun⟩ := (Option.any_eq_true _ _).mp hproc
  cases hacq : (after 1 crowded).forest.acquire 3 p [0x61, 0x2E, 0x62] 0 with
  | error e =>
      rw [hacq] at hrun
      cases hrun
  | ok x =>
      obtain ⟨ret, f', p'⟩ := x
      rw [hacq] at hrun
      obtain rfl : ret = .acquired := of_decide_eq_true hrun
      have hundo := release_undoes_acquire (reachable_after 1 crowded) hp ?_ hacq
      · obtain ⟨p'', hrelease⟩ := hundo
        exact ⟨f', p', p'', ⟨p, hp, hacq⟩, hrelease⟩
      · intro ρ n hρ hn r queue hq
        have hmem : ρ ∈ List.inits (splitPath [0x61, 0x2E, 0x62]) := (List.mem_inits _ _).mpr hρ
        have hsettled := List.all_eq_true.mp hblocked ρ hmem
        rw [hn, Option.all_some, hq] at hsettled
        exact of_decide_eq_true hsettled

end Backend

end Tclm.Server
