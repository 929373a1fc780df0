/-
  Tclm.Server.Placement

  Where requests wait, and the rules for properties of single locks.

  A waiting request knows its place: `current_level` is the depth of the node
  whose queue it is in, and the node's address is the part of its path up to
  there (`Seats`).

  Most invariants of the lock tree speak about one lock at a time.  Such a
  property `P` is kept by whole operations as soon as it is kept by the few things
  an operation does to a single lock: `LocalRule` lists them for `acquire`,
  `ReleaseRule` for `release`.  A release may break `P` at a lock until the
  wake-up loop there has ended; what holds in between is the second property of
  a `ReleaseRule`.
-/

import Tclm.Server.ReleaseSpec

namespace Tclm.Server

-- ============================================================================
-- The place of a request
-- ============================================================================

/-- The request has come to the node with address `π`; `rest` is left below it. -/
structure LockRequest.At (r : LockRequest) (π rest : LockPath) : Prop where
  path : r.path = π ++ rest
  level : r.currentLevel + 1 = π.length

namespace LockRequest.At

variable {r : LockRequest} {π rest : LockPath} {c : LockName}

theorem remaining (h : r.At π rest) : r.remaining = rest := by
  simp [LockRequest.remaining, h.path, h.level]

theorem advance (h : r.At π (c :: rest)) : r.advance.At (π ++ [c]) rest where
  path := by simpa [LockRequest.advance] using h.path
  level := by simpa [LockRequest.advance] using h.level

theorem markCreated (h : r.At π rest) : r.markCreated.At π rest := ⟨h.path, h.level⟩

theorem withStatus (h : r.At π rest) (status : AcquireStatus) : (r.withStatus status).At π rest :=
  ⟨h.path, h.level⟩

end LockRequest.At

namespace LockState

/-- The waiting requests of the lock with address `π` are at their place, have the
    status `LOCK_ACQUIRE_QUEUED`, and are `good`. -/
def Seats (good : LockRequest → Prop) (π : LockPath) (s : LockState) : Prop :=
  ∀ r ∈ s.lockRequests, r.At π r.remaining ∧ r.acquireStatus = .queued ∧ good r

theorem Seats.congr {good : LockRequest → Prop} {π : LockPath} {s s' : LockState}
    (h : s.Seats good π) (hq : s'.lockRequests = s.lockRequests) : s'.Seats good π := by
  rw [Seats, hq]
  exact h

/-- What a call for the request `r` does to a lock with address `π`. -/
inductive Grows (r : LockRequest) (π : LockPath) : LockState → LockState → Prop where
  | granted {s s'} (hat : r.At π []) (hlock : s.tryLock r = some s') : Grows r π s s'
  | intended {c rest s s'} (hat : r.At π (c :: rest)) (hintent : s.tryIntent r = some s') :
      Grows r π s s'
  | enqueued {rest s} (hat : r.At π rest) (hblocks : s.Blocks r) : Grows r π s (s.enqueue r true)

/-- The first request of the queue is blocked. -/
def Settled (s : LockState) : Prop := ∀ r queue, s.lockRequests = r :: queue → s.Blocks r

theorem lockRequests_of_tryLock {s s' : LockState} {r : LockRequest} (h : s.tryLock r = some s') :
    s'.lockRequests = s.lockRequests := by
  obtain ⟨m, -, -, rfl⟩ := tryLock_eq_some h
  exact lockRequests_addLocker

end LockState

open Lock (SameRequest)

/-- A property of requests that does not depend on what calls write to them. -/
def Intrinsic (good : LockRequest → Prop) : Prop := ∀ r r', SameRequest r r' → good r → good r'

/-- A property of single locks that every call of `acquire` for a good request keeps. -/
structure LocalRule (good : LockRequest → Prop) (P : LockPath → LockState → Prop) : Prop where
  intrinsic : Intrinsic good
  fresh : ∀ π, P π {}
  grows : ∀ {r π s s'}, good r → s.Grows r π s' → P π s → P π s'

/-- Requests are put into the queue of the node they have come to. -/
theorem seats_rule {good : LockRequest → Prop} (hgood : Intrinsic good) :
    LocalRule good (LockState.Seats good) where
  intrinsic := hgood
  fresh π r hr := by cases hr
  grows := by
    intro r π s s' hr hgrows hseats
    cases hgrows with
    | granted hat hlock => exact hseats.congr (LockState.lockRequests_of_tryLock hlock)
    | intended hat hintent => exact hseats.congr (LockState.lockRequests_of_tryIntent hintent)
    | enqueued hat hblocks =>
        intro x hx
        simp only [LockState.enqueue, if_true] at hx
        rcases List.mem_append.mp hx with hx | hx
        · exact hseats x hx
        · obtain rfl := List.mem_singleton.mp hx
          have hat' := hat.withStatus .queued
          refine ⟨?_, rfl, hgood _ _ (.withStatus r .queued) hr⟩
          rw [hat'.remaining]
          exact hat'

namespace Lock

open NamedTree (node Forall)

/-- Every lock in the tree has the property. -/
def All (P : LockPath → LockState → Prop) (π : LockPath) (l : Lock) : Prop :=
  Forall (fun ρ n => P ρ n.val) π l

section

variable {P Q : LockPath → LockState → Prop} {π : LockPath} {k : LockName} {s s' : LockState}

theorem All.root {l : Lock} (h : All P π l) : P π l.val := Forall.root h

/-- Only the root changes. -/
theorem all_node {cs : List Lock} :
    All P π (node k s cs) ↔ P π s ∧ ∀ c ∈ cs, All P (π ++ [c.name]) c :=
  NamedTree.forall_iff

/-- The root and one child change. -/
theorem all_append_cons {pre post : List Lock} {c : Lock} :
    All P π (node k s (pre ++ c :: post)) ↔
      P π s ∧ (∀ d ∈ pre ++ post, All P (π ++ [d.name]) d) ∧ All P (π ++ [c.name]) c :=
  NamedTree.forall_node_append_cons

theorem all_new {π : LockPath} (k : LockName) (h : P π {}) : All P π (new k) :=
  all_node.mpr ⟨h, fun _ hc => by cases hc⟩

theorem All.setRequests {l : Lock} {queue : List LockRequest} (h : All P π l)
    (hroot : P π { l.val with lockRequests := queue }) : All P π (l.setRequests queue) := by
  cases l with
  | node k s cs => exact all_node.mpr ⟨hroot, (all_node.mp h).2⟩

/-- The address of the root belongs to no other lock of the tree. -/
theorem ne_of_mem_nodes_child {c : Lock} {x : LockPath × Lock}
    (hx : x ∈ NamedTree.nodes (π ++ [c.name]) c) : x.1 ≠ π := by
  intro heq
  have hlen := (NamedTree.isPrefix_of_mem_nodes c hx).length_le
  rw [heq, List.length_append, List.length_singleton] at hlen
  omega

end

-- ============================================================================
-- Acquire
-- ============================================================================

section

variable {good : LockRequest → Prop} {P : LockPath → LockState → Prop}

/-- A call for a good request keeps a local property. -/
theorem Acquires.all {rest π : LockPath} {l l' : Lock} {r r' : LockRequest} {ins : Bool}
    {ret : AcquireStatus} (h : Acquires rest l r ins ret l' r') (rule : LocalRule good P)
    (hgood : good r) (hat : r.At π rest) (hl : All P π l) : All P π l' := by
  induction h generalizing π with
  | @granted k s s' cs r ins hlock =>
      obtain ⟨hs, hcs⟩ := all_node.mp hl
      exact all_node.mpr ⟨rule.grows hgood (.granted hat hlock) hs, hcs⟩
  | @refused k s cs r ins hlock =>
      have hblocks : s.Blocks r := by simpa [LockState.Blocks, hat.remaining] using hlock
      obtain ⟨hs, hcs⟩ := all_node.mp hl
      cases ins with
      | true => exact all_node.mpr ⟨rule.grows hgood (.enqueued hat hblocks) hs, hcs⟩
      | false => exact hl
  | @blocked c rest k s cs r ins hintent =>
      have hblocks : s.Blocks r := by simpa [LockState.Blocks, hat.remaining] using hintent
      obtain ⟨hs, hcs⟩ := all_node.mp hl
      cases ins with
      | true => exact all_node.mpr ⟨rule.grows hgood (.enqueued hat hblocks) hs, hcs⟩
      | false => exact hl
  | @descended c rest k s s' pre child post r ins ret child' r' hintent hname _ _ hbelow ih =>
      subst hname
      obtain ⟨hs, hrest, hchild⟩ := all_append_cons.mp hl
      have hchild' := ih (rule.intrinsic _ _ (.advance r) hgood) hat.advance hchild
      rw [← hbelow.name_eq] at hchild'
      exact all_append_cons.mpr ⟨rule.grows hgood (.intended hat hintent) hs, hrest, hchild'⟩
  | failed => exact hl
  | @created c rest k s s' cs r ins ret child' r' hintent _ _ _ hbelow ih =>
      obtain ⟨hs, hcs⟩ := all_node.mp hl
      have hsame : SameRequest r r.markCreated.advance := (SameRequest.markCreated r).trans (.advance _)
      have hchild' := ih (rule.intrinsic _ _ hsame hgood) hat.markCreated.advance
        (all_new c (rule.fresh _))
      have hname : child'.name = c := hbelow.name_eq
      rw [← hname] at hchild'
      exact all_append_cons.mpr ⟨rule.grows hgood (.intended hat hintent) hs,
        by simpa using hcs, hchild'⟩
  | missing => exact hl

-- ============================================================================
-- The wake-up loop
-- ============================================================================

/-- The queue of a lock shrinks to a part of it. -/
theorem seats_tail {π : LockPath} {s : LockState} {r : LockRequest} {queue : List LockRequest}
    (h : s.Seats good π) (hq : s.lockRequests = r :: queue) :
    LockState.Seats good π { s with lockRequests := queue } := by
  intro x hx
  exact h x (hq ▸ List.mem_cons_of_mem _ hx)

/-- Where the loop stops it leaves the tree alone. -/
theorem setRequests_queued {π : LockPath} {l : Lock} {r : LockRequest} {queue : List LockRequest}
    (h : l.val.Seats good π) (hq : l.val.lockRequests = r :: queue) :
    l.setRequests (r.withStatus .queued :: queue) = l := by
  have hstatus : r.acquireStatus = .queued := (h r (by simp [hq])).2.1
  have hr : r.withStatus .queued = r := by rw [LockRequest.withStatus, ← hstatus]
  cases l with
  | node k s cs =>
      rw [hr, ← hq]
      rfl

/-- The requests behind the first one keep their places in one turn of the loop. -/
theorem seats_turn {π : LockPath} {l l₁ : Lock} {r : LockRequest} {queue : List LockRequest}
    (hseats : l.val.Seats good π) (hq : l.val.lockRequests = r :: queue) :
    (l₁.setRequests queue).val.Seats good π := by
  intro x hx
  exact hseats x (hq ▸ List.mem_cons_of_mem _ hx)

/-- A run of the loop keeps a local property if popping the queue does. -/
theorem Wakes.all {π : LockPath} {l l' : Lock} {as : List LockRequest} (h : Wakes l l' as)
    (rule : LocalRule good P) (hseats : l.val.Seats good π)
    (hpop : ∀ {s r queue}, s.lockRequests = r :: queue → P π s →
      P π { s with lockRequests := queue })
    (hl : All P π l) : All P π l' := by
  induction h with
  | done => exact hl
  | answered hq hacq _ _ ih | advanced hq hacq _ _ ih =>
      obtain ⟨hat, -, hgood⟩ := hseats _ (by rw [hq]; exact List.mem_cons_self ..)
      have hl₁ := hacq.all rule hgood hat hl
      have hq₁ := hacq.lockRequests_eq.trans hq
      exact ih (seats_turn hseats hq) (hl₁.setRequests (hpop hq₁ hl₁.root))
  | stopped hq =>
      rw [setRequests_queued hseats hq]
      exact hl

/-- When the loop ends, the queue is empty or its first request is blocked. -/
theorem Wakes.settled {π : LockPath} {l l' : Lock} {as : List LockRequest} (h : Wakes l l' as)
    (hseats : l.val.Seats good π) : l'.val.Settled := by
  induction h with
  | done hq =>
      intro r queue hr
      rw [hq] at hr
      cases hr
  | answered hq _ _ _ ih | advanced hq _ _ _ ih => exact ih (seats_turn hseats hq)
  | stopped hq hblocked =>
      rw [setRequests_queued hseats hq]
      intro x queue' hx
      rw [hq] at hx
      cases hx
      exact hblocked

end

end Lock

-- ============================================================================
-- Release
-- ============================================================================

/-- A property of single locks that calls of `release` for `p` in a mode keep, with
    what is known of a lock until its wake-up loop has ended. -/
structure ReleaseRule (good : LockRequest → Prop) (p : ProcessRef) (mode : UInt8)
    (P Q : LockPath → LockState → Prop) : Prop where
  stable : LocalRule good P
  between : LocalRule good Q
  unlock : ∀ {π s s'}, P π s → s.tryUnlock p mode = some s' → Q π s'
  erase : ∀ {π s s'}, P π s → s.eraseIntent p mode = .ok s' → Q π s'
  pop : ∀ {π s r queue}, s.lockRequests = r :: queue → Q π s → Q π { s with lockRequests := queue }
  settle : ∀ {π s}, Q π s → s.Seats good π → s.Settled → P π s

namespace LockState

variable {s s' : LockState} {p : ProcessRef} {mode : UInt8}

/-- Giving up a lock touches neither the intent locks nor the queue. -/
theorem frame_of_tryUnlock (h : s.tryUnlock p mode = some s') :
    (∀ m, s'.intents m = s.intents m) ∧ s'.lockRequests = s.lockRequests := by
  unfold tryUnlock at h
  split at h <;> first | cases h | (split at h <;> cases h)
  all_goals exact ⟨fun m => by cases m <;> rfl, rfl⟩

theorem eraseIntent_eq_ok (h : s.eraseIntent p mode = .ok s') :
    (∃ m, mode = m.toByte ∧ p ∈ s.intents m ∧ s' = s.setIntents ((s.intents m).erase p) m) ∨
    (Mode.ofByte mode = none ∧ s' = s) := by
  unfold eraseIntent at h
  split at h
  · rename_i m hm
    split at h
    · rename_i hmem
      cases h
      exact Or.inl ⟨m, Mode.ofByte_eq_some.mp hm, hmem, rfl⟩
    · cases h
  · rename_i hm
    cases h
    exact Or.inr ⟨hm, rfl⟩

theorem lockRequests_of_eraseIntent (h : s.eraseIntent p mode = .ok s') :
    s'.lockRequests = s.lockRequests := by
  rcases eraseIntent_eq_ok h with ⟨m, -, -, rfl⟩ | ⟨-, rfl⟩
  · simp
  · rfl

/-- What cancelling removes: the first request of the process in the mode. -/
theorem cancel_eq_some (h : s.cancel p mode = some s') :
    ∃ pre r post, s.lockRequests = pre ++ r :: post ∧ r.requester = p ∧ r.mode = mode ∧
      s' = { s with lockRequests := pre ++ post } ∧
      ∀ x ∈ pre, ¬ (x.requester = p ∧ x.mode = mode) := by
  obtain ⟨⟨pre, r, post⟩, hsplit, rfl⟩ := Option.map_eq_some_iff.mp h
  obtain ⟨hq, hr, hpre⟩ := List.splitFirst_eq_some hsplit
  simp only [Bool.decide_and, Bool.and_eq_true, decide_eq_true_eq] at hr hpre
  exact ⟨pre, r, post, hq, hr.2.symm, hr.1.symm, rfl,
    fun x hx hmatch => hpre x hx ⟨hmatch.2.symm, hmatch.1.symm⟩⟩

theorem cancel_eq_none (h : s.cancel p mode = none) :
    ∀ r ∈ s.lockRequests, ¬ (r.requester = p ∧ r.mode = mode) := by
  intro r hr hmatch
  have hnone := List.splitFirst_eq_none.mp (Option.map_eq_none_iff.mp h) r hr
  exact hnone (by simp [hmatch.1, hmatch.2])

theorem Seats.cancel {good : LockRequest → Prop} {π : LockPath} (h : s.Seats good π)
    (hcancel : s.cancel p mode = some s') : s'.Seats good π := by
  obtain ⟨pre, r, post, hq, -, -, rfl, -⟩ := cancel_eq_some hcancel
  intro x hx
  refine h x ?_
  rw [hq]
  rcases List.mem_append.mp hx with hx | hx
  · exact List.mem_append_left _ hx
  · exact List.mem_append_right _ (List.mem_cons_of_mem _ hx)

end LockState

namespace Lock

open NamedTree (node Forall)

variable {good : LockRequest → Prop} {P Q : LockPath → LockState → Prop} {p : ProcessRef}
  {mode : UInt8}

/-- The wake-up loop re-establishes a local property at the lock it runs at. -/
theorem Wakes.all_of_between {π : LockPath} {k : LockName} {s : LockState} {cs : List Lock}
    {l' : Lock} {as : List LockRequest} (h : Wakes (node k s cs) l' as)
    (rule : ReleaseRule good p mode P Q) (hseats : s.Seats good π) (hs : Q π s)
    (hcs : ∀ c ∈ cs, All P (π ++ [c.name]) c) : All P π l' := by
  -- In between, `Q` holds at the root and `P` everywhere else.
  have hmixed : LocalRule good fun ρ s => if ρ = π then Q ρ s else P ρ s := by
    refine ⟨rule.stable.intrinsic, fun ρ => ?_, fun {r ρ s s'} hr hgrows hs => ?_⟩
    · split
      · exact rule.between.fresh ρ
      · exact rule.stable.fresh ρ
    · by_cases hρ : ρ = π
      · simp only [hρ, if_true] at hs ⊢
        exact rule.between.grows hr (hρ ▸ hgrows) hs
      · simp only [hρ, if_false] at hs ⊢
        exact rule.stable.grows hr hgrows hs
  have hstart : All (fun ρ s => if ρ = π then Q ρ s else P ρ s) π (node k s cs) := by
    refine all_node.mpr ⟨by simpa using hs, fun c hc x hx => ?_⟩
    have hx' := hcs c hc x hx
    simpa [ne_of_mem_nodes_child hx] using hx'
  have hend := h.all hmixed hseats (fun hq hQ => by simpa using rule.pop hq (by simpa using hQ))
    hstart
  have hseats' : l'.val.Seats good π := by
    -- the queue of the root alone: every other lock is left out
    have hrule : LocalRule good fun ρ s => ρ = π → s.Seats good ρ := by
      refine ⟨rule.stable.intrinsic, fun ρ _ => ?_, fun hr hgrows hs hρ => ?_⟩
      · exact (seats_rule rule.stable.intrinsic).fresh ρ
      · exact (seats_rule rule.stable.intrinsic).grows hr hgrows (hs hρ)
    have hroot : All (fun ρ s => ρ = π → s.Seats good ρ) π (node k s cs) :=
      all_node.mpr ⟨fun _ => hseats, fun c _ x hx hρ => absurd hρ (ne_of_mem_nodes_child hx)⟩
    exact (h.all hrule hseats (fun hq hP _ => seats_tail (hP rfl) hq) hroot).root rfl
  have hroot : Q π l'.val := by simpa using hend.root
  cases l' with
  | node k' s' cs' =>
      refine all_node.mpr ⟨rule.settle hroot hseats' (h.settled hseats), fun c hc x hx => ?_⟩
      have hx' := (all_node.mp hend).2 c hc x hx
      simpa [ne_of_mem_nodes_child hx] using hx'

/-- A call of `release` keeps a local property, if the cancellation of a request
    does. -/
theorem Releases.all {path π : LockPath} {l l' : Lock} {ret : ReleaseStatus}
    {as : List LockRequest} (h : Releases p mode path l ret l' as)
    (rule : ReleaseRule good p mode P Q)
    (hcancel : ∀ {ρ rest n s'}, path = ρ ++ rest → NamedTree.find ρ l = some n →
      NotReleased p mode rest n → n.val.cancel p mode = some s' → P (π ++ ρ) n.val →
      P (π ++ ρ) s')
    (hseats : All (LockState.Seats good) π l) (hl : All P π l) : All P π l' := by
  induction h generalizing π with
  | @unlocked k s s' cs l' as hunlock hwake =>
      obtain ⟨hs, hcs⟩ := all_node.mp hl
      have hseats' := hseats.root.congr (LockState.frame_of_tryUnlock hunlock).2
      exact hwake.all_of_between rule hseats' (rule.unlock hs hunlock) hcs
  | @descended c rest k s s' pre child post child' l' as as' hname hpre hbelow herase hwake ih =>
      subst hname
      obtain ⟨hs, hrest, hchild⟩ := all_append_cons.mp hl
      obtain ⟨hseat, -, hseatc⟩ := all_append_cons.mp hseats
      have hchild' : All P (π ++ [child.name]) child' := by
        refine ih (fun {ρ rest' n s'} hρ hn hnot hc hP => ?_) hseatc hchild
        have hfind : NamedTree.find (child.name :: ρ) (node k s (pre ++ child :: post)) = some n := by
          rw [NamedTree.find_node_append_cons hpre]
          exact hn
        have hkeep := hcancel (ρ := child.name :: ρ) (by rw [hρ, List.cons_append]) hfind hnot hc
        simp only [List.append_assoc, List.singleton_append] at hP ⊢
        exact hkeep hP
      rw [← hbelow.name_eq] at hchild'
      have hseats' := hseat.congr (LockState.lockRequests_of_eraseIntent herase)
      refine hwake.all_of_between rule hseats' (rule.erase hs herase) fun d hd => ?_
      rcases List.mem_append.mp hd with hd | hd
      · exact hrest d (List.mem_append_left _ hd)
      · rcases List.mem_cons.mp hd with rfl | hd
        · exact hchild'
        · exact hrest d (List.mem_append_right _ hd)
  | @cancelled path k s s' cs hnot hc =>
      obtain ⟨hs, hcs⟩ := all_node.mp hl
      have hs' := hcancel (ρ := []) (n := node k s cs) rfl rfl hnot hc (by simpa using hs)
      exact all_node.mpr ⟨by simpa using hs', hcs⟩
  | notHeld => exact hl

/-- Requests stay at their places. -/
theorem Releases.seats {path π : LockPath} {l l' : Lock} {ret : ReleaseStatus}
    {as : List LockRequest} (h : Releases p mode path l ret l' as) (hgood : Intrinsic good)
    (hseats : All (LockState.Seats good) π l) : All (LockState.Seats good) π l' := by
  have rule : ReleaseRule good p mode (LockState.Seats good) (LockState.Seats good) := by
    refine ⟨seats_rule hgood, seats_rule hgood, ?_, ?_, fun hq h => seats_tail h hq,
      fun h _ _ => h⟩
    · exact fun hs hunlock => hs.congr (LockState.frame_of_tryUnlock hunlock).2
    · exact fun hs herase => hs.congr (LockState.lockRequests_of_eraseIntent herase)
  exact h.all rule (fun _ _ _ hc hP => LockState.Seats.cancel hP hc) hseats hseats

end Lock

end Tclm.Server
