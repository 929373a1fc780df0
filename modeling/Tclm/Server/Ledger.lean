/-
  Tclm.Server.Ledger

  Bookkeeping over a lock tree.

  A claim is a lock held, or a request waiting, by a process in a mode for a path;
  a ticket is a waiting request as an object.  The tree spreads them over holder
  fields and queues.  Give every held lock and every ticket a weight and add up
  (`weigh`): then

  - `acquire` adds the weight of the lock it grants or of the ticket it queues;
  - a run of the wake-up loop takes away the tickets of the requests it answers
    and adds the locks it grants;
  - a successful `release` takes away one lock, or one ticket, of the process that
    releases.

  Two choices of weights are used later: all claims (`Weights.claims`), and the
  tickets of one request object (`Weights.tally`).

  At the end, `seek` computes what a call of `release` will find on its way.
-/

import Mathlib.Algebra.BigOperators.Group.Multiset.Basic
import Mathlib.Algebra.GroupWithZero.Nat
import Mathlib.Algebra.Order.Group.Multiset
import Mathlib.Data.Multiset.OrderedMonoid
import Tclm.Server.Placement

namespace Tclm.Server

/-- A lock held, or a request waiting, for a path in a mode. -/
structure Claim where
  process : ProcessRef
  mode : UInt8
  path : LockPath
deriving DecidableEq, Repr

/-- A waiting request as an object: its identity and what no call writes to. -/
structure Ticket where
  address : Nat
  claim : Claim
  createMissing : Bool
deriving DecidableEq, Repr

/-- The claim a request stands for. -/
def LockRequest.claim (r : LockRequest) : Claim := ⟨r.requester, r.mode, r.path⟩

/-- The ticket of a request. -/
def LockRequest.ticket (r : LockRequest) : Ticket := ⟨r.address, r.claim, r.createMissing⟩

namespace Lock.SameRequest

variable {r r' : LockRequest}

theorem claim_eq (h : SameRequest r r') : r'.claim = r.claim := by
  simp [LockRequest.claim, h.requester, h.mode, h.path]

theorem ticket_eq (h : SameRequest r r') : r'.ticket = r.ticket := by
  simp [LockRequest.ticket, h.claim_eq, h.address, h.createMissing]

end Lock.SameRequest

/-- What a held lock and a ticket count. -/
structure Weights (M : Type) where
  held : Claim → M
  queued : Ticket → M

-- ============================================================================
-- One lock
-- ============================================================================

namespace LockState

variable {s s' : LockState} {p : ProcessRef} {m m' : Mode} {π : LockPath} {mode : UInt8}

/-- The holders in a mode. -/
def lockers (s : LockState) : Mode → Multiset ProcessRef
  | .S => s.lockersS
  | .Splus => s.lockerSplus.toList
  | .X => s.lockerX.toList

/-- `p` holds the lock in mode `m`. -/
def Holds (s : LockState) (p : ProcessRef) : Mode → Prop
  | .S => p ∈ s.lockersS
  | .Splus => s.lockerSplus = some p
  | .X => s.lockerX = some p

instance decidableHolds (s : LockState) (p : ProcessRef) : (m : Mode) → Decidable (s.Holds p m)
  | .S => inferInstanceAs (Decidable (p ∈ s.lockersS))
  | .Splus => inferInstanceAs (Decidable (s.lockerSplus = some p))
  | .X => inferInstanceAs (Decidable (s.lockerX = some p))

theorem mem_lockers : p ∈ s.lockers m ↔ s.Holds p m := by
  cases m with
  | S => exact Iff.rfl
  | Splus => simp [lockers, Holds]
  | X => simp [lockers, Holds]

/-- The claims of the holders of the lock with address `π`. -/
def held (π : LockPath) (s : LockState) : Multiset Claim :=
  (s.lockers .S).map (fun p => ⟨p, Mode.S.toByte, π⟩) +
    (s.lockers .Splus).map (fun p => ⟨p, Mode.Splus.toByte, π⟩) +
    (s.lockers .X).map (fun p => ⟨p, Mode.X.toByte, π⟩)

theorem mem_held {c : Claim} :
    c ∈ s.held π ↔ c.path = π ∧ ∃ m, c.mode = m.toByte ∧ s.Holds c.process m := by
  have hmem : ∀ m, c ∈ (s.lockers m).map (fun p => (⟨p, m.toByte, π⟩ : Claim)) ↔
      c.path = π ∧ c.mode = m.toByte ∧ s.Holds c.process m := by
    intro m
    rw [Multiset.mem_map]
    constructor
    · rintro ⟨p, hp, rfl⟩
      exact ⟨rfl, rfl, mem_lockers.mp hp⟩
    · rintro ⟨rfl, hmode, hp⟩
      exact ⟨c.process, mem_lockers.mpr hp, by rw [← hmode]⟩
  rw [held, Multiset.mem_add, Multiset.mem_add, hmem, hmem, hmem]
  constructor
  · rintro ((⟨hπ, h⟩ | ⟨hπ, h⟩) | ⟨hπ, h⟩)
    · exact ⟨hπ, .S, h⟩
    · exact ⟨hπ, .Splus, h⟩
    · exact ⟨hπ, .X, h⟩
  · rintro ⟨hπ, m, h⟩
    cases m with
    | S => exact Or.inl (Or.inl ⟨hπ, h⟩)
    | Splus => exact Or.inl (Or.inr ⟨hπ, h⟩)
    | X => exact Or.inr ⟨hπ, h⟩

@[simp] theorem lockers_setIntents {ps : Multiset ProcessRef} :
    (s.setIntents ps m).lockers m' = s.lockers m' := by
  cases m' <;> simp [lockers]

@[simp] theorem held_setIntents {ps : Multiset ProcessRef} :
    (s.setIntents ps m).held π = s.held π := by
  simp [held]

/-- Entering a holder adds its claim. -/
theorem held_addLocker (h : s.MayLock p m) :
    (s.addLocker p m).held π = ⟨p, m.toByte, π⟩ ::ₘ s.held π := by
  rw [← Multiset.singleton_add]
  cases m with
  | S =>
      simp only [held, lockers, addLocker, Multiset.map_cons]
      rw [← Multiset.singleton_add]
      ac_rfl
  | Splus =>
      have hnone : s.lockerSplus = none := h.1
      simp only [held, lockers, addLocker, hnone, Option.toList_some, Option.toList_none,
        Multiset.coe_singleton, Multiset.coe_nil, Multiset.map_singleton, Multiset.map_zero]
      ac_rfl
  | X =>
      have hnone : s.lockerX = none := h.2.1
      simp only [held, lockers, addLocker, hnone, Option.toList_some, Option.toList_none,
        Multiset.coe_singleton, Multiset.coe_nil, Multiset.map_singleton, Multiset.map_zero]
      ac_rfl

/-- A lock given up takes its claim away. -/
theorem held_of_tryUnlock (h : s.tryUnlock p mode = some s') :
    s.held π = ⟨p, mode, π⟩ ::ₘ s'.held π := by
  unfold tryUnlock at h
  rw [← Multiset.singleton_add]
  split at h
  · rename_i hm
    split at h
    · rename_i hmem
      cases h
      obtain rfl := Mode.ofByte_eq_some.mp hm
      simp only [held, lockers]
      conv_lhs => rw [← Multiset.cons_erase hmem, Multiset.map_cons, ← Multiset.singleton_add]
      ac_rfl
    · cases h
  · rename_i hm
    split at h
    · rename_i hsome
      cases h
      obtain rfl := Mode.ofByte_eq_some.mp hm
      simp only [held, lockers, hsome, Option.toList_some, Option.toList_none,
        Multiset.coe_singleton, Multiset.coe_nil, Multiset.map_singleton, Multiset.map_zero]
      ac_rfl
    · cases h
  · rename_i hm
    split at h
    · rename_i hsome
      cases h
      obtain rfl := Mode.ofByte_eq_some.mp hm
      simp only [held, lockers, hsome, Option.toList_some, Option.toList_none,
        Multiset.coe_singleton, Multiset.coe_nil, Multiset.map_singleton, Multiset.map_zero]
      ac_rfl
    · cases h
  · cases h

/-- A process that holds a lock can release it. -/
theorem tryUnlock_isSome : (s.tryUnlock p mode).isSome ↔ ∃ m, mode = m.toByte ∧ s.Holds p m := by
  constructor
  · intro h
    obtain ⟨s', hs'⟩ := Option.isSome_iff_exists.mp h
    have hmem : (⟨p, mode, []⟩ : Claim) ∈ s.held [] := by
      rw [held_of_tryUnlock hs']
      exact Multiset.mem_cons_self ..
    exact (mem_held.mp hmem).2
  · rintro ⟨m, rfl, hm⟩
    cases m with
    | S => exact Option.isSome_iff_exists.mpr ⟨_, if_pos hm⟩
    | Splus => exact Option.isSome_iff_exists.mpr ⟨_, if_pos hm⟩
    | X => exact Option.isSome_iff_exists.mpr ⟨_, if_pos hm⟩

section Weigh

variable {M : Type} [AddCommMonoid M] (w : Weights M)

/-- The weight of a queue. -/
def weighQueue (queue : List LockRequest) : M := (queue.map fun r => w.queued r.ticket).sum

/-- The weight of one lock with address `π`. -/
def weigh (π : LockPath) (s : LockState) : M :=
  ((s.held π).map w.held).sum + weighQueue w s.lockRequests

variable {w}

theorem weigh_congr (hheld : s'.held π = s.held π) (hqueue : s'.lockRequests = s.lockRequests) :
    s'.weigh w π = s.weigh w π := by
  rw [weigh, weigh, hheld, hqueue]

theorem weigh_of_tryIntent {r : LockRequest} (h : s.tryIntent r = some s') :
    s'.weigh w π = s.weigh w π := by
  rcases tryIntent_eq_some h with ⟨m, -, -, rfl⟩ | ⟨-, rfl⟩
  · exact weigh_congr held_setIntents lockRequests_setIntents
  · rfl

theorem weigh_of_eraseIntent (h : s.eraseIntent p mode = .ok s') :
    s'.weigh w π = s.weigh w π := by
  rcases eraseIntent_eq_ok h with ⟨m, -, -, rfl⟩ | ⟨-, rfl⟩
  · exact weigh_congr held_setIntents lockRequests_setIntents
  · rfl

theorem weigh_of_tryLock {r : LockRequest} (h : s.tryLock r = some s') :
    s'.weigh w π = w.held ⟨r.requester, r.mode, π⟩ + s.weigh w π := by
  obtain ⟨m, hm, hmay, rfl⟩ := tryLock_eq_some h
  rw [weigh, weigh, held_addLocker hmay, Multiset.map_cons, Multiset.sum_cons, hm,
    lockRequests_addLocker, add_assoc]

theorem weigh_of_tryUnlock (h : s.tryUnlock p mode = some s') :
    s.weigh w π = w.held ⟨p, mode, π⟩ + s'.weigh w π := by
  rw [weigh, weigh, held_of_tryUnlock h, Multiset.map_cons, Multiset.sum_cons,
    (frame_of_tryUnlock h).2, add_assoc]

theorem weighQueue_append_cons {pre post : List LockRequest} {r : LockRequest} :
    weighQueue w (pre ++ r :: post) = w.queued r.ticket + weighQueue w (pre ++ post) := by
  simp only [weighQueue, List.map_append, List.map_cons, List.sum_append, List.sum_cons]
  exact add_left_comm ..

/-- A request taken out of the queue takes its ticket away. -/
theorem weigh_append_cons {pre post : List LockRequest} {r : LockRequest}
    (hq : s.lockRequests = pre ++ r :: post) :
    s.weigh w π = w.queued r.ticket + weigh w π { s with lockRequests := pre ++ post } := by
  rw [weigh, hq, weighQueue_append_cons]
  exact add_left_comm ..

theorem weigh_enqueue {r : LockRequest} :
    (s.enqueue r true).weigh w π = w.queued r.ticket + s.weigh w π := by
  have hq : (s.enqueue r true).lockRequests = s.lockRequests ++ r.withStatus .queued :: [] := by
    simp [enqueue]
  rw [weigh_append_cons hq, List.append_nil]
  rfl

end Weigh

end LockState

-- ============================================================================
-- The tree
-- ============================================================================

namespace Lock

open NamedTree (node)

section Weigh

variable {M : Type} [AddCommMonoid M] {w : Weights M} {π : LockPath}

/-- The weight of the tree of `l`, the address of `l` being `π`. -/
def weigh (w : Weights M) (π : LockPath) (l : Lock) : M := l.sum (LockState.weigh w) π

/-- The weight of what is strictly below `l`. -/
def weighBelow (w : Weights M) (π : LockPath) (l : Lock) : M := l.sumBelow (LockState.weigh w) π

theorem weigh_node {k : LockName} {s : LockState} {cs : List Lock} :
    weigh w π (node k s cs) = s.weigh w π + weighBelow w π (node k s cs) := NamedTree.sum_node

/-- The weight below a node depends on its children only. -/
theorem weighBelow_node {k k' : LockName} {s s' : LockState} {cs : List Lock} :
    weighBelow w π (node k s cs) = weighBelow w π (node k' s' cs) := NamedTree.sumBelow_node

theorem weighBelow_append_cons {k : LockName} {s : LockState} {pre post : List Lock} {c : Lock} :
    weighBelow w π (node k s (pre ++ c :: post)) =
      weigh w (π ++ [c.name]) c + weighBelow w π (node k s (pre ++ post)) :=
  NamedTree.sumBelow_node_append_cons

theorem weigh_new (k : LockName) : weigh w π (new k) = 0 := by
  simp [weigh, new, NamedTree.sum_leaf, LockState.weigh, LockState.weighQueue, LockState.held,
    LockState.lockers]

/-- Popping the head of the queue takes its ticket away. -/
theorem weigh_pop {l : Lock} {r : LockRequest} {queue : List LockRequest}
    (hq : l.val.lockRequests = r :: queue) :
    weigh w π l = w.queued r.ticket + weigh w π (l.setRequests queue) := by
  cases l with
  | node k s cs =>
      have hs : s.lockRequests = [] ++ r :: queue := hq
      rw [weigh_node, LockState.weigh_append_cons hs, add_assoc]
      exact congrArg _ weigh_node.symm

/-- The weight a request adds. -/
def entry (w : Weights M) (ret : AcquireStatus) (r : LockRequest) : M :=
  match ret with
  | .acquired => w.held r.claim
  | .queued => w.queued r.ticket
  | .nonExistent => 0

/-- `acquire` adds the weight of the lock it grants or of the request it queues.  Only
    a request that stays where it is without being inserted adds nothing. -/
theorem Acquires.weigh_eq {rest : LockPath} {l l' : Lock} {r r' : LockRequest} {ins : Bool}
    {ret : AcquireStatus} (h : Acquires rest l r ins ret l' r') (hat : r.At π rest)
    (hplaced : ins = true ∨ ret ≠ .queued ∨ r.currentLevel < r'.currentLevel) :
    weigh w π l' = entry w ret r + weigh w π l := by
  induction h generalizing π with
  | @granted k s s' cs r ins hlock =>
      have hpath : r.path = π := by simpa using hat.path
      rw [weigh_node, weigh_node, LockState.weigh_of_tryLock hlock, add_assoc, weighBelow_node,
        entry, LockRequest.claim, hpath]
  | @refused k s cs r ins | @blocked c rest k s cs r ins =>
      obtain rfl : ins = true := by
        rcases hplaced with hins | hret | hlevel
        · exact hins
        · exact absurd rfl hret
        · exact absurd hlevel (Nat.lt_irrefl _)
      rw [weigh_node, weigh_node, LockState.weigh_enqueue, add_assoc, weighBelow_node]
      rfl
  | @descended c rest k s s' pre child post r ins ret child' r' hintent hname _ _ hbelow ih =>
      subst hname
      have hchild := ih hat.advance (Or.inl rfl)
      rw [weigh_node, weigh_node, LockState.weigh_of_tryIntent hintent, weighBelow_append_cons,
        weighBelow_append_cons, hbelow.name_eq, hchild, add_assoc, add_left_comm]
      cases ret <;> rfl
  | failed | missing => exact (zero_add _).symm
  | @created c rest k s s' cs r ins ret child' r' hintent _ _ _ hbelow ih =>
      have hchild := ih hat.markCreated.advance (Or.inl rfl)
      have hname : child'.name = c := hbelow.name_eq
      rw [weigh_node, weigh_node, LockState.weigh_of_tryIntent hintent, weighBelow_append_cons,
        hname, hchild, weigh_new, add_zero, List.append_nil, add_left_comm]
      cases ret <;> rfl

/-- The weight of the locks that were granted. -/
def gained (w : Weights M) (as : List LockRequest) : M :=
  ((as.filter fun r => r.acquireStatus = .acquired).map fun r => w.held r.claim).sum

/-- The weight of the tickets of requests that were answered. -/
def spent (w : Weights M) (as : List LockRequest) : M := (as.map fun r => w.queued r.ticket).sum

@[simp] theorem gained_nil : gained w [] = 0 := rfl

@[simp] theorem spent_nil : spent w [] = 0 := rfl

theorem gained_append (as as' : List LockRequest) :
    gained w (as ++ as') = gained w as + gained w as' := by
  simp [gained]

theorem spent_append (as as' : List LockRequest) :
    spent w (as ++ as') = spent w as + spent w as' := by
  simp [spent]

theorem spent_cons (r : LockRequest) (as : List LockRequest) :
    spent w (r :: as) = w.queued r.ticket + spent w as := by
  simp [spent]

/-- An answered request gains what its call entered into the tree. -/
theorem gained_cons {r r' : LockRequest} {ret : AcquireStatus} (as : List LockRequest)
    (hsame : SameRequest r r') (hstatus : r'.acquireStatus = ret) (hret : ret ≠ .queued) :
    gained w (r' :: as) = entry w ret r + gained w as := by
  cases ret with
  | acquired => simp [gained, hstatus, entry, hsame.claim_eq]
  | queued => exact absurd rfl hret
  | nonExistent => simp [gained, hstatus, entry]

end Weigh

section Runs

variable {M : Type} [AddCancelCommMonoid M] {w : Weights M} {π : LockPath}
  {good : LockRequest → Prop}

/-- The wake-up loop exchanges tickets for locks; tickets of failed requests are
    gone. -/
theorem Wakes.weigh_eq {l l' : Lock} {as : List LockRequest} (h : Wakes l l' as)
    (hseats : l.val.Seats good π) :
    weigh w π l + gained w as = weigh w π l' + spent w as := by
  induction h with
  | done => simp
  | @answered l l₁ l' r r' queue ret as hq hacq hret _ ih =>
      have hat := (hseats r (by simp [hq])).1
      have hadd := hacq.weigh_eq (w := w) hat (Or.inr (Or.inl hret))
      have hpop := weigh_pop (w := w) (π := π) (hacq.lockRequests_eq.trans hq)
      calc weigh w π l + gained w (r' :: as)
          = weigh w π l₁ + gained w as := by
            rw [gained_cons as hacq.same hacq.status_eq hret, hadd]
            ac_rfl
        _ = w.queued r.ticket + (weigh w π (l₁.setRequests queue) + gained w as) := by
            rw [hpop, add_assoc]
        _ = weigh w π l' + spent w (r' :: as) := by
            rw [ih (seats_turn hseats hq), spent_cons, hacq.same.ticket_eq]
            ac_rfl
  | @advanced l l₁ l' r r' queue as hq hacq hlevel _ ih =>
      have hat := (hseats r (by simp [hq])).1
      have hadd := hacq.weigh_eq (w := w) hat (Or.inr (Or.inr hlevel))
      have hpop := weigh_pop (w := w) (π := π) (hacq.lockRequests_eq.trans hq)
      have hturn : weigh w π l = weigh w π (l₁.setRequests queue) :=
        add_left_cancel (hadd.symm.trans hpop)
      rw [hturn, ih (seats_turn hseats hq)]
  | stopped hq =>
      rw [setRequests_queued hseats hq]
      rfl

/-- What a successful `release` takes away: a lock or a waiting request. -/
inductive Removed where
  | lock (c : Claim)
  | request (t : Ticket)

/-- The weight of what was removed. -/
def Removed.weight (w : Weights M) : Removed → M
  | .lock c => w.held c
  | .request t => w.queued t

/-- The claim of what was removed. -/
def Removed.claim : Removed → Claim
  | .lock c => c
  | .request t => t.claim

/-- What `release` for `p` finds on the path from the root of `l`: the lock itself, or
    else the first matching request at the deepest node that has one. -/
inductive Finds (p : ProcessRef) (mode : UInt8) (π path : LockPath) (l : Lock) :
    Removed → Prop where
  | lock {n s'} (hn : NamedTree.find path l = some n) (hunlock : n.val.tryUnlock p mode = some s') :
      Finds p mode π path l (.lock ⟨p, mode, π ++ path⟩)
  | request {ρ rest n r pre post} (hpath : path = ρ ++ rest) (hn : NamedTree.find ρ l = some n)
      (hnot : NotReleased p mode rest n) (hq : n.val.lockRequests = pre ++ r :: post)
      (hp : r.requester = p) (hm : r.mode = mode)
      (hfirst : ∀ x ∈ pre, ¬ (x.requester = p ∧ x.mode = mode)) :
      Finds p mode π path l (.request r.ticket)

theorem Finds.descend {p : ProcessRef} {mode : UInt8} {rest : LockPath} {k : LockName}
    {s : LockState} {pre post : List Lock} {child : Lock} {x : Removed}
    (hpre : ∀ d ∈ pre, d.name ≠ child.name) (h : Finds p mode (π ++ [child.name]) rest child x) :
    Finds p mode π (child.name :: rest) (node k s (pre ++ child :: post)) x := by
  cases h with
  | lock hn hunlock =>
      rw [← NamedTree.find_node_append_cons (k := k) (v := s) hpre] at hn
      simpa using Finds.lock (π := π) hn hunlock
  | @request ρ rest' n r pre' post' hpath hn hnot hq hp hm hfirst =>
      rw [← NamedTree.find_node_append_cons (k := k) (v := s) hpre] at hn
      exact .request (by rw [hpath, List.cons_append]) hn hnot hq hp hm hfirst

theorem Finds.process_eq {p : ProcessRef} {mode : UInt8} {path : LockPath} {l : Lock} {x : Removed}
    (h : Finds p mode π path l x) : x.claim.process = p := by
  cases h with
  | lock => rfl
  | request _ _ _ _ hp _ _ => exact hp

theorem Finds.mode_eq {p : ProcessRef} {mode : UInt8} {path : LockPath} {l : Lock} {x : Removed}
    (h : Finds p mode π path l x) : x.claim.mode = mode := by
  cases h with
  | lock => rfl
  | request _ _ _ _ _ hm _ => exact hm

/-- A successful `release` removes what it finds, and does the exchange of the wake-up
    loops it runs. -/
theorem Releases.weigh_eq {p : ProcessRef} {mode : UInt8} {path : LockPath} {l l' : Lock}
    {ret : ReleaseStatus} {as : List LockRequest} (h : Releases p mode path l ret l' as)
    (hret : ret = .success) (hseats : All (LockState.Seats good) π l) :
    ∃ x, Finds p mode π path l x ∧ ∀ {M : Type} [AddCancelCommMonoid M] (w : Weights M),
      weigh w π l + gained w as = x.weight w + weigh w π l' + spent w as := by
  induction h generalizing π with
  | @unlocked k s s' cs l' as hunlock hwake =>
      have hseats' := hseats.root.congr (LockState.frame_of_tryUnlock hunlock).2
      have hfinds : Finds p mode π [] (node k s cs) (.lock ⟨p, mode, π ++ []⟩) := .lock rfl hunlock
      rw [List.append_nil] at hfinds
      refine ⟨_, hfinds, ?_⟩
      intro M _ w
      have hrun := hwake.weigh_eq (w := w) hseats'
      calc weigh w π (node k s cs) + gained w as
          = w.held ⟨p, mode, π⟩ + (weigh w π (node k s' cs) + gained w as) := by
            rw [weigh_node, weigh_node, LockState.weigh_of_tryUnlock hunlock, weighBelow_node]
            ac_rfl
        _ = w.held ⟨p, mode, π⟩ + weigh w π l' + spent w as := by rw [hrun, add_assoc]
  | @descended c rest k s s' pre child post child' l' as as' hname hpre hbelow herase hwake ih =>
      subst hname
      obtain ⟨hseat, -, hseatc⟩ := all_append_cons.mp hseats
      obtain ⟨x, hx, hchild⟩ := ih rfl hseatc
      have hseats' := hseat.congr (LockState.lockRequests_of_eraseIntent herase)
      refine ⟨x, hx.descend hpre, ?_⟩
      intro M _ w
      have hrun := hwake.weigh_eq (w := w) hseats'
      rw [weigh_node, LockState.weigh_of_eraseIntent herase, weighBelow_append_cons,
        hbelow.name_eq, weighBelow_node] at hrun
      calc weigh w π (node k s (pre ++ child :: post)) + gained w (as ++ as')
          = weigh w (π ++ [child.name]) child + gained w as +
              (s.weigh w π + weighBelow w π (node k s (pre ++ post)) + gained w as') := by
            rw [weigh_node, weighBelow_append_cons, gained_append]
            ac_rfl
        _ = x.weight w + spent w as + (s.weigh w π + (weigh w (π ++ [child.name]) child' +
              weighBelow w π (node k s (pre ++ post))) + gained w as') := by
            rw [hchild w]
            ac_rfl
        _ = x.weight w + weigh w π l' + spent w (as ++ as') := by
            rw [hrun, spent_append]
            ac_rfl
  | @cancelled path k s s' cs hnot hcancel =>
      obtain ⟨pre, r, post, hq, hp, hm, rfl, hfirst⟩ := LockState.cancel_eq_some hcancel
      refine ⟨.request r.ticket, .request (ρ := []) rfl rfl hnot hq hp hm hfirst, ?_⟩
      intro M _ w
      rw [gained_nil, spent_nil, add_zero, add_zero, weigh_node, weigh_node,
        LockState.weigh_append_cons hq, add_assoc, weighBelow_node]
      rfl
  | notHeld => cases hret

end Runs

end Lock

-- ============================================================================
-- What release finds, computed
-- ============================================================================

/-- What `release` finds on its way. -/
inductive Found where
  /-- The lock itself is held. -/
  | lock
  /-- A request waits in the queue of a lock in this state. -/
  | request (s : LockState)
  | nothing

/-- The first waiting request of the process in the mode. -/
def LockState.firstRequest (p : ProcessRef) (mode : UInt8) (s : LockState) : Option LockRequest :=
  s.lockRequests.find? fun r => r.requester = p ∧ r.mode = mode

/-- Look for a waiting request of the process in the mode. -/
def LockState.seek (p : ProcessRef) (mode : UInt8) (s : LockState) : Found :=
  if (s.cancel p mode).isSome then .request s else .nothing

namespace Lock

open NamedTree (find)

/-- `release` looks for the lock at the end of the path, then for a waiting request from
    there upwards. -/
def seek (p : ProcessRef) (mode : UInt8) : LockPath → Lock → Found
  | [], l => if (l.val.tryUnlock p mode).isSome then .lock else l.val.seek p mode
  | c :: rest, l =>
      match l.children.find? fun d => d.name = c with
      | some child =>
          match seek p mode rest child with
          | .nothing => l.val.seek p mode
          | found => found
      | none => l.val.seek p mode

theorem seek_of_notReleased {p : ProcessRef} {mode : UInt8} {path : LockPath} {l : Lock}
    (h : NotReleased p mode path l) : seek p mode path l = l.val.seek p mode := by
  induction path generalizing l with
  | nil => simp [seek, show l.val.tryUnlock p mode = none from h]
  | cons c rest ih =>
      simp only [seek]
      cases hfind : l.children.find? fun d => decide (d.name = c) with
      | none => rfl
      | some child =>
          obtain ⟨hnot, hcancel⟩ := h child hfind
          simp [ih hnot, LockState.seek, hcancel]

theorem seek_append {p : ProcessRef} {mode : UInt8} {ρ rest : LockPath} {l n : Lock}
    (hn : find ρ l = some n) (hfound : seek p mode rest n ≠ .nothing) :
    seek p mode (ρ ++ rest) l = seek p mode rest n := by
  induction ρ generalizing l with
  | nil =>
      obtain rfl : l = n := by simpa using hn
      rfl
  | cons c ρ ih =>
      obtain ⟨child, hchild, hn⟩ := NamedTree.find_cons.mp hn
      have hbelow := ih hn
      -- something was found below, so the last case of the `match` applies
      simp only [List.cons_append, seek, hchild, hbelow]

/-- The lock whose queue `release` withdraws a request from is the one it seeks. -/
theorem seek_of_cancel {p : ProcessRef} {mode : UInt8} {ρ rest : LockPath} {l n : Lock}
    {s' : LockState} (hn : find ρ l = some n) (hnot : NotReleased p mode rest n)
    (hcancel : n.val.cancel p mode = some s') : seek p mode (ρ ++ rest) l = .request n.val := by
  have hseek : seek p mode rest n = .request n.val := by
    simp [seek_of_notReleased hnot, LockState.seek, hcancel]
  rw [seek_append hn (by rw [hseek]; exact Found.noConfusion), hseek]

/-- A request of the process in the mode can be withdrawn, so it is found. -/
theorem seek_of_request {p : ProcessRef} {mode : UInt8} {ρ rest : LockPath} {l n : Lock}
    {r : LockRequest} (hn : find ρ l = some n) (hnot : NotReleased p mode rest n)
    (hr : r ∈ n.val.lockRequests) (hp : r.requester = p) (hm : r.mode = mode) :
    seek p mode (ρ ++ rest) l = .request n.val := by
  cases hcancel : n.val.cancel p mode with
  | some s' => exact seek_of_cancel hn hnot hcancel
  | none => exact absurd ⟨hp, hm⟩ (LockState.cancel_eq_none hcancel r hr)

/-- Whatever `release` takes away, `seek` has found. -/
theorem seek_of_finds {p : ProcessRef} {mode : UInt8} {π path : LockPath} {l : Lock} {x : Removed}
    (h : Finds p mode π path l x) :
    (seek p mode path l = .lock ∧ x.claim = ⟨p, mode, π ++ path⟩) ∨
    ∃ s r, seek p mode path l = .request s ∧ s.firstRequest p mode = some r ∧
      x.claim = r.claim := by
  cases h with
  | @lock n s' hn hunlock =>
      refine Or.inl ⟨?_, rfl⟩
      have hseek : seek p mode [] n = .lock := by simp [seek, hunlock]
      have happend := @seek_append p mode _ [] _ _ hn (by rw [hseek]; exact Found.noConfusion)
      rwa [List.append_nil, hseek] at happend
  | @request ρ rest n r pre post hpath hn hnot hq hp hm hfirst =>
      refine Or.inr ⟨n.val, r, ?_, ?_, rfl⟩
      · rw [hpath]
        exact seek_of_request hn hnot (by simp [hq]) hp hm
      · rw [LockState.firstRequest, hq]
        exact List.find?_append_cons (by simp [hp, hm]) (by simpa using hfirst)

/-- Where `release` succeeds there is something to find. -/
theorem Releases.seek_ne_nothing {p : ProcessRef} {mode : UInt8} {path : LockPath} {l l' : Lock}
    {ret : ReleaseStatus} {as : List LockRequest} (h : Releases p mode path l ret l' as)
    (hret : ret = .success) : seek p mode path l ≠ .nothing := by
  induction h with
  | unlocked hunlock => simp [seek, hunlock]
  | @descended c rest k s s' pre child post child' l' as as' hname hpre _ _ _ ih =>
      subst hname
      have hn : find [child.name] (NamedTree.node k s (pre ++ child :: post)) = some child :=
        NamedTree.find_node_append_cons hpre
      have happend := seek_append hn (ih rfl)
      rw [List.singleton_append] at happend
      rw [happend]
      exact ih rfl
  | @cancelled path k s s' cs hnot hcancel =>
      simp [seek_of_notReleased hnot, LockState.seek, hcancel]
  | notHeld => cases hret

end Lock

end Tclm.Server
