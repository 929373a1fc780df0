/-
  Tclm.Server.Progress

  Whoever waits, waits for a lock that somebody holds.

  A request is queued where the lock is not free: it is held, or somebody has an intent lock
  there.  Intent locks are there for the locks that are held and the requests that wait
  below, as long as no request fails late.  No request does when only locks are acquired that
  exist (`SensibleStep`): then there is a lock that is held at or below every lock at which a
  request waits (`held_of_waiting`).
-/

import Tclm.Server.Failure
import Tclm.Server.Frame
import Tclm.Server.Shares
import Tclm.Server.Structure
import Tclm.Server.Waiting

namespace Tclm.Server

open LockForest (Leaves)

/-- The requests of all processes. -/
def Weights.tickets : Weights (Multiset Ticket) := ⟨fun _ => 0, fun t => {t}⟩

theorem Weights.ticket_mem_spent {r : LockRequest} {as : List LockRequest} (hr : r ∈ as) :
    r.ticket ∈ Lock.spent Weights.tickets as := by
  induction as with
  | nil => cases hr
  | cons x as ih =>
      have hsum : Lock.spent Weights.tickets (x :: as) =
          {x.ticket} + Lock.spent Weights.tickets as := List.sum_cons
      rw [hsum, Multiset.mem_add, Multiset.mem_singleton]
      rcases List.mem_cons.mp hr with rfl | hr
      · exact .inl rfl
      · exact .inr (ih hr)

theorem Weights.gained_tickets (as : List LockRequest) : Lock.gained Weights.tickets as = 0 :=
  List.sum_eq_zero fun x hx => by
    obtain ⟨_, _, rfl⟩ := List.mem_map.mp hx
    rfl

-- ============================================================================
-- Requests for locks that exist
-- ============================================================================

namespace LockForest

/-- The requests that wait, those of all processes. -/
def tickets (f : LockForest) : Multiset Ticket := f.weigh .tickets

/-- Requests that may not create locks wait for locks that exist only. -/
def Present (f : LockForest) : Prop :=
  ∀ t ∈ f.tickets, t.createMissing = false → f.node? t.claim.path ≠ none

theorem present_empty : Present empty := fun t ht => absurd ht (Multiset.notMem_zero t)

/-- What stands for requests only comes from the queues. -/
theorem mem_weigh_of_queued {α : Type} {w : Weights (Multiset α)} (hheld : ∀ c, w.held c = 0)
    {f : LockForest} {a : α} :
    a ∈ f.weigh w ↔ ∃ x ∈ f.nodes, ∃ r ∈ x.2.val.lockRequests, a ∈ w.queued r.ticket := by
  have hstate : ∀ x : LockPath × Lock, x.2.val.weigh w x.1 =
      Multiset.join ↑(x.2.val.lockRequests.map fun r => w.queued r.ticket) := by
    intro x
    have hnone : ((x.2.val.held x.1).map w.held).sum = 0 := by
      simp [hheld]
    rw [LockState.weigh, hnone, zero_add, LockState.weighQueue, ← Multiset.sum_coe]
    rfl
  rw [weigh_eq_sum, ← Multiset.sum_coe]
  change a ∈ Multiset.join _ ↔ _
  simp only [Multiset.mem_join, Multiset.mem_coe, List.mem_map, hstate]
  constructor
  · rintro ⟨_, ⟨x, hx, rfl⟩, ha⟩
    obtain ⟨_, hC, ha⟩ := Multiset.mem_join.mp ha
    obtain ⟨r, hr, rfl⟩ := List.mem_map.mp (Multiset.mem_coe.mp hC)
    exact ⟨x, hx, r, hr, ha⟩
  · rintro ⟨x, hx, r, hr, ha⟩
    exact ⟨_, ⟨x, hx, rfl⟩, Multiset.mem_join.mpr ⟨_, Multiset.mem_coe.mpr (List.mem_map_of_mem hr), ha⟩⟩

theorem mem_tickets {f : LockForest} {t : Ticket} :
    t ∈ f.tickets ↔ ∃ x ∈ f.nodes, ∃ r ∈ x.2.val.lockRequests, r.ticket = t := by
  rw [tickets, mem_weigh_of_queued fun _ => rfl]
  simp only [Weights.tickets, Multiset.mem_singleton, eq_comm]

theorem mem_waits {f : LockForest} {p : ProcessRef} {t : Ticket} :
    t ∈ f.waits p ↔
      ∃ x ∈ f.nodes, ∃ r ∈ x.2.val.lockRequests, r.requester = p ∧ r.ticket = t := by
  have hqueued : ∀ r : LockRequest, t ∈ (Weights.waitsOf p).queued r.ticket ↔
      r.requester = p ∧ r.ticket = t := by
    intro r
    by_cases hp : r.requester = p
    · have hone : (Weights.waitsOf p).queued r.ticket = {r.ticket} := if_pos hp
      rw [hone, Multiset.mem_singleton, eq_comm]
      exact ⟨fun h => ⟨hp, h⟩, And.right⟩
    · have hnone : (Weights.waitsOf p).queued r.ticket = 0 := if_neg hp
      rw [hnone]
      exact ⟨fun h => absurd h (Multiset.notMem_zero t), fun h => absurd h.1 hp⟩
  rw [waits, mem_weigh_of_queued fun _ => rfl]
  simp only [hqueued]

/-- Locks do not go away. -/
theorem Keeps.node?_ne_none {f f' : LockForest} (h : f.Keeps f') {path : LockPath}
    (hne : f.node? path ≠ none) : f'.node? path ≠ none := by
  obtain ⟨n, hn⟩ := Option.ne_none_iff_exists'.mp hne
  obtain ⟨n', hn', -⟩ := h path n hn
  rw [hn']
  exact Option.some_ne_none n'

theorem Present.mono {f f' : LockForest} (hf : f.Present) (hkeeps : f.Keeps f')
    (hnew : ∀ t ∈ f'.tickets, t ∈ f.tickets ∨
      (t.createMissing = false → f.node? t.claim.path ≠ none)) : f'.Present := by
  intro t ht hcreate
  rcases hnew t ht with hold | hexists
  · exact hkeeps.node?_ne_none (hf t hold hcreate)
  · exact hkeeps.node?_ne_none (hexists hcreate)

/-- No request fails late. -/
theorem Present.leaves {f f' : LockForest} (hf : f.Present) (hsound : f.Sound) {p : ProcessRef}
    {mode : UInt8} {path rest : LockPath} {as : List LockRequest} {c : LockName} {l l' : Lock}
    (h : Leaves f p mode path .success f' as c rest l l') :
    f'.tickets ≤ f.tickets ∧ Lock.lost as = 0 := by
  obtain ⟨x, -, hweigh⟩ := h.weigh_eq hsound.seats
  have htickets := hweigh .tickets
  rw [Weights.gained_tickets, add_zero] at htickets
  change f.tickets = _ + f'.tickets + _ at htickets
  refine ⟨?_, ?_⟩
  · rw [htickets]
    exact le_add_self.trans le_self_add
  · rw [Multiset.eq_zero_iff_forall_notMem]
    intro y hy
    obtain ⟨r, hr, rfl⟩ := List.mem_map.mp (Multiset.mem_coe.mp hy)
    obtain ⟨hr, hstatus⟩ := List.mem_filter.mp hr
    have hmem : r.ticket ∈ f.tickets := by
      rw [htickets]
      exact Multiset.mem_add.mpr (.inr (Weights.ticket_mem_spent hr))
    rcases h.truthful hsound.seats r hr with ⟨hacquired, -⟩ | ⟨-, hcreate, hnone⟩
    · rw [decide_eq_true_eq, hacquired] at hstatus
      cases hstatus
    · exact hf r.ticket hmem hcreate hnone

end LockForest

namespace Backend

/-- Requests are not made by a loop. -/
theorem Within.eq_of_asks {b b₁ : Backend} {op op₁ : Op} {x : UInt32 × PathString × UInt8 × Bool}
    (h : Within b op b₁ op₁) (hask : op₁.asks = some x) : b₁ = b ∧ op₁ = op := by
  cases h with
  | self => exact ⟨rfl, rfl⟩
  | release => cases hask

/-- The operation acquires no lock that does not exist. -/
def NamesLock (b : Backend) (op : Op) : Prop :=
  ∀ pid path mode, op.asks = some (pid, path, mode, false) → b.forest.node? (splitPath path) ≠ none

theorem Move.present {b b' : Backend} {op : Op} {res : Result} {answered : Finset LockRequest}
    (h : Move b op res answered b') (hsound : b.forest.Sound) (hnames : b.NamesLock op)
    (hb : b.forest.Present) : b'.forest.Present := by
  have hkeeps := h.keeps
  cases h with
  | idle | tick | register => exact hb
  | @enter _ _ pid path mode create p r ret f' l l' r' hask hp hsame henter hret hres =>
      refine hb.mono hkeeps fun t ht => ?_
      have hweigh : f'.tickets = Lock.entry .tickets ret r + b.forest.tickets := henter.weigh_eq
      change t ∈ f'.tickets at ht
      rw [hweigh, Multiset.mem_add] at ht
      rcases ht with ht | ht
      · cases ret with
        | acquired | nonExistent => exact absurd ht (Multiset.notMem_zero t)
        | queued =>
            obtain rfl : t = r.ticket := Multiset.mem_singleton.mp ht
            refine .inr fun hcreate => ?_
            have hpath : r.path = splitPath path := hsame.path
            have hfalse : create = false := hsame.createMissing.symm.trans hcreate
            show b.forest.node? r.path ≠ none
            rw [hpath]
            exact hnames pid path mode (by rw [hask, hfalse])
      · exact .inl ht
  | @add pid path res p l hp hl hres =>
      refine hb.mono hkeeps fun t ht => .inl ?_
      have hupd := (LockForest.updates_setRoot hl
        (Lock.createNotHeld p.object (splitPath path) l).2).weigh .tickets
      rw [(LockForest.createNotHeld_adds p.object (splitPath path) l).weigh_eq] at hupd
      have hsame : (b.forest.setRoot (rootName path)
          (Lock.createNotHeld p.object (splitPath path) l).2).tickets = b.forest.tickets :=
        add_right_cancel hupd
      rw [← hsame]
      exact ht
  | release hp hleave =>
      exact hb.mono hkeeps fun t ht => .inl (Multiset.mem_of_le (hb.leaves hsound hleave).1 ht)

/-- Intent locks stay exact. -/
theorem Move.exact_of_present {b b' : Backend} {op : Op} {res : Result}
    {answered : Finset LockRequest} (h : Move b op res answered b') (hsound : b.forest.Sound)
    (hpresent : b.forest.Present) (hb : Exact b) : Exact b' := by
  cases h with
  | idle | tick | register => exact hb
  | enter _ _ _ henter => exact henter.accounted (balances_rule _) hb
  | add hp hl =>
      exact (LockForest.updates_setRoot hl _).accounted_of_adds (LockForest.createNotHeld_adds ..)
        (balances_rule _) hb
  | release hp hleave =>
      refine hleave.accounted (balances_rule _) (fun c hlost => ?_) hsound.seats hb
      rw [(hpresent.leaves hsound hleave).2] at hlost
      exact absurd hlost (Multiset.notMem_zero c)

/-- Operations with defined modes that acquire locks that exist. -/
def SensibleStep (b : Backend) (e : Event) (b' : Backend) : Prop :=
  e.op.ModeDefined ∧ b.NamesLock e.op ∧ Step b e b'

/-- What holds in a run of such operations. -/
structure Orderly (b : Backend) : Prop where
  sound : b.forest.Sound
  present : b.forest.Present
  exact : Exact b
  seats : b.forest.All (LockState.Seats LockRequest.ModeDefined)
  waits : b.forest.All fun _ s => s.Waits

theorem orderly_init : Orderly init :=
  ⟨LockForest.sound_empty, LockForest.present_empty, LockForest.accounted_empty,
    LockForest.all_empty, LockForest.all_empty⟩

theorem Orderly.step {b b' : Backend} {e : Event} (h : Orderly b) (hstep : SensibleStep b e b') :
    Orderly b' := by
  obtain ⟨hmode, hnames, hstep⟩ := hstep
  obtain ⟨hsound, hpresent, hexact⟩ := Step.invariant
    (fun b => b.forest.Sound ∧ b.forest.Present ∧ Exact b) hstep ⟨h.sound, h.present, h.exact⟩
    (fun {b₁ op res answered b₂} hwithin hb hmove => by
      obtain ⟨hsound, hpresent, hexact⟩ := hb
      refine ⟨hmove.forest_sound hsound, hmove.present hsound ?_ hpresent,
        hmove.exact_of_present hsound hpresent hexact⟩
      intro pid path mode hask
      obtain ⟨rfl, rfl⟩ := hwithin.eq_of_asks hask
      exact hnames pid path mode hask)
    fun _ _ _ hb => hb
  obtain ⟨hseats, hwaits⟩ := hstep.all waits_releaseRule
    (fun hask hsame => modeDefined_of_asks hmode hask hsame)
    (fun _ _ _ _ _ _ hc hP => hP.cancel hc) h.seats h.waits
  exact ⟨hsound, hpresent, hexact, hseats, hwaits⟩

end Backend

-- ============================================================================
-- Locks that are held
-- ============================================================================

/-- A lock that nobody holds, and below which nobody holds or waits for one, is free. -/
theorem LockState.free_of_balances {s : LockState} {C : Multiset Claim}
    (hbalances : s.Balances (fun _ _ => True) C) (hheld : ∀ p m, ¬ s.Holds p m) (hC : C = 0) :
    s.Free := by
  have hintents : ∀ m, s.intents m = 0 := by
    intro m
    rw [Multiset.eq_zero_iff_forall_notMem]
    intro p hp
    have hcount := hbalances p m trivial
    rw [hC] at hcount
    have hzero : (s.intents m).count p = 0 := hcount
    exact absurd hp (Multiset.count_eq_zero.mp hzero)
  refine ⟨?_, ?_, ?_, hintents .S, hintents .Splus, hintents .X⟩
  · rw [Multiset.eq_zero_iff_forall_notMem]
    exact fun p hp => hheld p .S hp
  · by_contra hne
    obtain ⟨p, hp⟩ := Option.ne_none_iff_exists'.mp hne
    exact hheld p .Splus hp
  · by_contra hne
    obtain ⟨p, hp⟩ := Option.ne_none_iff_exists'.mp hne
    exact hheld p .X hp

namespace Lock

/-- A claim below a lock is one at some lock below. -/
theorem mem_weighBelow {π : LockPath} {l : Lock} {a : Claim} (h : a ∈ weighBelow .claims π l) :
    ∃ y ∈ NamedTree.descendants π l, a ∈ y.2.val.weigh .claims y.1 := by
  rw [weighBelow, NamedTree.sumBelow, ← Multiset.sum_coe] at h
  obtain ⟨C, hC, ha⟩ := Multiset.mem_join.mp h
  obtain ⟨y, hy, rfl⟩ := List.mem_map.mp (Multiset.mem_coe.mp hC)
  exact ⟨y, hy, ha⟩

/-- There is a lock that is held at or below every lock at which a request waits. -/
theorem held_of_waiting (l : Lock) : ∀ {π : LockPath},
    Accounted (LockState.Balances fun _ _ => True) π l → All (fun _ s => s.Waits) π l →
      ∀ x ∈ NamedTree.nodes π l, x.2.val.lockRequests ≠ [] →
        ∃ y ∈ NamedTree.nodes x.1 x.2, ∃ p m, y.2.val.Holds p m := by
  induction l using NamedTree.induction with
  | h k s cs ih =>
      intro π hexact hwaits x hx hqueue
      obtain ⟨hbalances, hexactBelow⟩ := NamedTree.forall_iff.mp hexact
      obtain ⟨hroot, hwaitsBelow⟩ := NamedTree.forall_iff.mp hwaits
      rcases NamedTree.mem_nodes.mp hx with rfl | ⟨c, hc, hx⟩
      · by_contra hnone
        -- nothing is held, so nobody waits below, and the lock is free
        refine hroot hqueue (LockState.free_of_balances hbalances ?_ ?_)
        · exact fun p m hholds => hnone ⟨_, NamedTree.root_mem_nodes π _, p, m, hholds⟩
        · rw [Multiset.eq_zero_iff_forall_notMem]
          intro a ha
          obtain ⟨y, hy, ha⟩ := mem_weighBelow ha
          obtain ⟨child, hchild, hy⟩ := NamedTree.mem_descendants.mp hy
          have hmem : y ∈ NamedTree.nodes π (NamedTree.node k s cs) :=
            NamedTree.mem_nodes.mpr (.inr ⟨child, hchild, hy⟩)
          rw [LockState.weigh_claims, Multiset.mem_add] at ha
          rcases ha with ha | ha
          · obtain ⟨-, m, -, hholds⟩ := LockState.mem_held.mp ha
            exact hnone ⟨y, hmem, a.process, m, hholds⟩
          · have hqueue' : y.2.val.lockRequests ≠ [] := by
              rintro heq
              rw [heq] at ha
              exact absurd ha (Multiset.notMem_zero a)
            obtain ⟨z, hz, p, m, hholds⟩ := ih child hchild (hexactBelow child hchild)
              (hwaitsBelow child hchild) y hy hqueue'
            exact hnone ⟨z, NamedTree.nodes_trans _ hmem hz, p, m, hholds⟩
      · exact ih c hc (hexactBelow c hc) (hwaitsBelow c hc) x hx hqueue

end Lock

/-- The request of the process stands in the queue of the lock at the path. -/
def LockForest.QueuedAt (f : LockForest) (π : LockPath) (p : ProcessRef) (t : Ticket) : Prop :=
  ∃ n, f.node? π = some n ∧ ∃ r ∈ n.val.lockRequests, r.requester = p ∧ r.ticket = t

namespace Backend

/-- In an orderly backend a request stands in the queue of a lock on its path, and somebody
    holds this lock or one below it. -/
theorem Orderly.held_of_waits {b : Backend} (h : Orderly b) {p : ProcessRef} {t : Ticket}
    (ht : t ∈ b.forest.waits p) :
    ∃ π ρ q m, π ≠ [] ∧ π <+: t.claim.path ∧ b.forest.QueuedAt π p t ∧
      (π ++ ρ, m) ∈ b.forest.holdings q := by
  obtain ⟨x, hx, r, hr, hreq, rfl⟩ := LockForest.mem_waits.mp ht
  obtain ⟨c, l, hl, hmem⟩ := LockForest.mem_nodes.mp hx
  have hnode := h.sound.node?_of_mem hx
  have hne : x.1 ≠ [] := by
    intro hnil
    rw [hnil] at hnode
    cases hnode
  obtain ⟨y, hy, q, m, hholds⟩ := l.held_of_waiting (h.exact c l hl) (h.waits c l hl) x hmem
    (List.ne_nil_of_mem hr)
  obtain ⟨ρ, hρ⟩ := NamedTree.isPrefix_of_mem_nodes x.2 hy
  have hpath : r.path = x.1 ++ r.remaining := (h.seats c l hl x hmem r hr).1.path
  refine ⟨x.1, ρ, q, m.toByte, hne, ⟨r.remaining, hpath.symm⟩, ⟨x.2, hnode, r, hr, hreq, rfl⟩,
    LockForest.mem_holdings.mpr ?_⟩
  exact ⟨y, LockForest.mem_nodes.mpr ⟨c, l, hl, NamedTree.nodes_trans l hmem hy⟩, hρ.symm, m, rfl,
    hholds⟩

-- ============================================================================
-- Processes that wait for nothing
-- ============================================================================

/-- The process that an operation is made for waits for nothing. -/
def Ready (b : Backend) (op : Op) : Prop :=
  ∀ pid p, op.issuer = some pid → b.processes.lookup pid = some p → b.forest.waits p.object = 0

/-- Neither does it during the operation. -/
theorem Ready.within {b b₁ : Backend} {op : Op} {pid : UInt32} {path : PathString} {mode : UInt8}
    {p : Process} (h : b.Ready op) (hb : b.forest.Sound) (ht : Ticketed b)
    (hwithin : Within b op b₁ (.releaseLock pid path mode)) (hp : b₁.processes.lookup pid = some p) :
    b₁.forest.waits p.object = 0 := by
  cases hwithin with
  | self => exact h pid p rfl hp
  | release hloop =>
      obtain ⟨p₀, hp₀⟩ := hloop.registered
      obtain ⟨⟨p₁, hp₁, hobj⟩, -, -, hwaits, -⟩ := hloop.weigh hb ht hp₀ (h pid p₀ rfl hp₀)
      obtain rfl := Option.some.inj (hp₁.symm.trans hp)
      rw [hobj]
      exact hwaits

/-- Nobody withdraws a request then, and no wake-up is missed. -/
theorem Step.settled {b b' : Backend} {e : Event} (h : Step b e b') (hb : b.forest.Sound)
    (ht : Ticketed b) (hready : b.Ready e.op) (hseats : b.forest.All (LockState.Seats fun _ => True))
    (hsettled : b.forest.All fun _ s => s.Settled) :
    b'.forest.All (LockState.Seats fun _ => True) ∧ b'.forest.All fun _ s => s.Settled := by
  refine h.all settled_releaseRule (fun _ _ => trivial) ?_ hseats hsettled
  intro b₁ pid path mode p l ρ rest n s' hwithin hp hl _ hn _ hc _
  obtain ⟨pre, r, post, hq, hr, -⟩ := LockState.cancel_eq_some hc
  have hmem : r.ticket ∈ b₁.forest.waits p.object := by
    refine LockForest.mem_waits.mpr ⟨(rootName path :: ρ, n), ?_, r, by simp [hq], hr, rfl⟩
    exact LockForest.mem_nodes.mpr ⟨_, l, hl, NamedTree.mem_nodes_of_find (π := [_]) hn⟩
  rw [hready.within hb ht hwithin hp] at hmem
  exact absurd hmem (Multiset.notMem_zero _)

-- ============================================================================
-- Processes that are not registered
-- ============================================================================

/-- A process without requests gets no locks while it is unregistered. -/
theorem Unregistering.holdings_le {b b₁ : Backend} {id : UInt32} {answered : Finset LockRequest}
    {locks : List (PathString × UInt8)} {p : Process} (h : Unregistering b id answered b₁ locks)
    (hb : b.forest.Sound) (ht : Ticketed b) (hp : b.processes.lookup id = some p)
    (hwaits : b.forest.waits p.object = 0) :
    b₁.forest.holdings p.object ≤ b.forest.holdings p.object := by
  induction h with
  | start => exact le_refl _
  | pass _ _ _ ih => exact ih
  | @call answered b₁ b₂ path mode locks res more h hrel ih =>
      obtain ⟨⟨p₁, hp₁, hobj⟩, hb₁, ht₁, hwaits₁, -⟩ := h.weigh hb ht hp hwaits
      rw [← hobj] at hwaits₁
      refine le_trans ?_ ih
      rcases releaseLock_weigh hb₁ ht₁ hrel hp₁ hwaits₁ with ⟨-, hweigh⟩ | ⟨-, -, rfl, -⟩
      · have hqueue := hweigh (.waitsOf p₁.object)
        rw [Weights.waitsOf_gained, add_zero,
          show b₁.forest.weigh (.waitsOf p₁.object) = 0 from hwaits₁] at hqueue
        have hnone := Weights.requester_ne_of_spent (add_eq_zero.mp hqueue.symm).2
        have hheld := hweigh (.heldBy p₁.object)
        rw [Weights.gained_heldBy_of_notMem hnone, Weights.heldBy_spent, add_zero, add_zero] at hheld
        change b₁.forest.holdings p₁.object = _ + b₂.forest.holdings p₁.object at hheld
        rw [← hobj, hheld]
        exact le_add_self
      · exact le_refl _

/-- Only registered processes have locks and requests. -/
def Clean (b : Backend) : Prop :=
  ∀ x, (∀ pid p, b.processes.lookup pid = some p → p.object ≠ x) →
    b.forest.waits x = 0 ∧ b.forest.holdings x = 0

theorem clean_init : Clean init := fun _ _ => ⟨rfl, rfl⟩

/-- A backend stays clean if processes are unregistered when they have nothing left. -/
theorem Step.clean {b b' : Backend} {e : Event} (h : Step b e b') (hb : b.forest.Sound)
    (ht : Ticketed b) (hclean : Clean b)
    (hready : b.Ready e.op)
    (hleaves : ∀ pid p, e.op = .unregisterProcess pid → b.processes.lookup pid = some p →
      b.forest.holdings p.object = 0) : Clean b' := by
  intro x hx
  by_cases hold : ∃ pid p, b.processes.lookup pid = some p ∧ p.object = x
  · obtain ⟨pid, p, hp, rfl⟩ := hold
    have hop : e.op = .unregisterProcess pid := by
      by_contra hne
      obtain ⟨p', hp', hobj⟩ := h.registered hp hne
      exact hx pid p' hp' hobj
    have hwaits := hready pid p (by rw [hop]; rfl) hp
    have hheld := hleaves pid p hop hp
    rcases h.cases with hmove | ⟨id, b₁, p₁, hop', hloop, -, -, -, rfl⟩
    · rw [hop] at hmove
      generalize e.result = res at hmove
      generalize e.answered = answered at hmove
      cases hmove with
      | idle => exact ⟨hwaits, hheld⟩
      | tick hop => cases hop
      | enter hask => cases hask
    · obtain rfl := Op.unregisterProcess.inj (hop.symm.trans hop')
      obtain ⟨-, -, -, hwaits₁, -⟩ := hloop.weigh hb ht hp hwaits
      refine ⟨hwaits₁, le_antisymm ?_ (Multiset.zero_le _)⟩
      rw [← hheld]
      exact hloop.holdings_le hb ht hp hwaits
  · have hnot : ∀ pid p, b.processes.lookup pid = some p → p.object ≠ x := fun pid p hp hobj =>
      hold ⟨pid, p, hp, hobj⟩
    obtain ⟨hwaits, hheld⟩ := hclean x hnot
    have hsettles : Settles b b' e.answered x := h.settles hb ht fun pid p hissuer hp =>
      ⟨hnot pid p hp, hready pid p hissuer hp⟩
    obtain ⟨hwaits', hheld', -⟩ := hsettles.of_none hwaits
    exact ⟨hwaits', hheld'.trans hheld⟩

end Backend

end Tclm.Server
