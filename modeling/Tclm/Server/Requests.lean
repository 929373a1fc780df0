/-
  Tclm.Server.Requests

  What becomes of lock requests.

  - The answers that a releasing operation returns are right: a grant is in force,
    a failure is about a path that did not exist.
  - A request that was queued is waiting, or has been answered, or was withdrawn by
    its own process: exactly once, in every later state of the run.
-/

import Mathlib.Data.Finset.Card
import Tclm.Server.Safety

namespace Tclm.Server

/-- Only the tickets with this address count. -/
def Weights.tally (a : Nat) : Weights Nat := ⟨fun _ => 0, fun t => if t.address = a then 1 else 0⟩

namespace LockForest

/-- The holder and the mode that a granted request has earned. -/
def Granted (f : LockForest) (r : LockRequest) : Prop :=
  ∃ n m, f.node? r.path = some n ∧ r.mode = m.toByte ∧ n.val.Holds r.requester m

theorem Granted.mono {f f' : LockForest} {r : LockRequest} {who : ProcessRef → Prop}
    (h : f.Granted r) (hext : Extends (LockState.KeepsHolders who) f f') (hr : who r.requester) :
    f'.Granted r := by
  obtain ⟨n, m, hn, hm, hholds⟩ := h
  obtain ⟨n', hn', hkeeps⟩ := hext _ n hn
  exact ⟨n', m, hn', hm, hkeeps _ m hr hholds⟩

/-- An answer is right about the forests before and after. -/
def Truthful (f f' : LockForest) (r : LockRequest) : Prop :=
  (r.acquireStatus = .acquired ∧ f'.Granted r) ∨
    (r.acquireStatus = .nonExistent ∧ r.createMissing = false ∧ f.node? r.path = none)

theorem Leaves.truthful {f f' : LockForest} {p : ProcessRef} {mode : UInt8} {path rest : LockPath}
    {ret : ReleaseStatus} {as : List LockRequest} {c : LockName} {l l' : Lock}
    {good : LockRequest → Prop} (h : Leaves f p mode path ret f' as c rest l l')
    (hseats : f.All (LockState.Seats good)) : ∀ r ∈ as, Truthful f f' r := by
  intro r hr
  obtain ⟨rest, hpath, hr⟩ := h.releases.truthful (hseats c l h.lookup) r hr
  rw [List.singleton_append] at hpath
  rcases hr with ⟨hstatus, n, m, hn, hm, hholds⟩ | ⟨hstatus, hcreate, hnone⟩
  · refine Or.inl ⟨hstatus, n, m, ?_, hm, hholds⟩
    rw [hpath, h.updates.node?_after]
    exact hn
  · refine Or.inr ⟨hstatus, hcreate, ?_⟩
    simpa only [hpath, node?, h.lookup, Option.bind_some] using hnone

end LockForest

namespace Backend

open LockForest (Granted Truthful Leaves)
open LockState (KeepsHolders)

-- ============================================================================
-- Answers
-- ============================================================================

/-- What the loop of `unregister_process` has done so far for the answers it collected. -/
theorem Unregistering.truthful {b b₁ : Backend} {id : UInt32} {p : Process}
    {answered : Finset LockRequest} {locks : List (PathString × UInt8)}
    (h : Unregistering b id answered b₁ locks) (hb : b.forest.Sound)
    (hp : b.processes.lookup id = some p) :
    b₁.forest.Sound ∧ LockForest.Extends (fun _ _ => True) b.forest b₁.forest ∧
      (∃ p₁, b₁.processes.lookup id = some p₁ ∧ p₁.object = p.object) ∧
      ∀ r ∈ answered,
        (r.acquireStatus = .acquired ∧ (r.requester ≠ p.object → b₁.forest.Granted r)) ∨
        (r.acquireStatus = .nonExistent ∧ r.createMissing = false ∧
          b.forest.node? r.path = none) := by
  induction h with
  | start => exact ⟨hb, .refl (fun _ => trivial) _, ⟨p, hp, rfl⟩, fun r hr => by simp at hr⟩
  | pass _ _ _ ih => exact ih
  | @call answered b₁ b₂ path mode locks res more _ hrel ih =>
      obtain ⟨hsound, hext, ⟨p₁, hp₁, hobj⟩, hans⟩ := ih
      have hmove := move_of_releaseLock hrel
      have hsound₂ := hmove.forest_sound hsound
      cases hmove with
      | tick hop => cases hop
      | enter hask => cases hask
      | idle =>
          refine ⟨hsound₂, hext, ⟨p₁, hp₁, hobj⟩, ?_⟩
          rw [Finset.union_empty]
          exact hans
      | @release _ _ _ p₁' f' as l l' hp₁' hleave =>
          obtain rfl : p₁ = p₁' := Option.some.inj (hp₁.symm.trans hp₁')
          have hkeep := hleave.updates.extends (LockState.steady_keepsHolders _).refl
            hleave.releases.keepsHolders
          have hgrow := hleave.updates.extends (R := fun _ _ => True) (fun _ => trivial)
            (hleave.releases.extends LockState.steady_true (fun _ => trivial) fun _ => trivial)
          refine ⟨hsound₂, hext.trans hgrow fun _ _ _ _ _ => trivial,
            ⟨_, lookup_update hp₁, hobj⟩, fun r hr => ?_⟩
          rcases Finset.mem_union.mp hr with hr | hr
          · -- answered earlier: other processes keep what they were granted
            rcases hans r hr with ⟨hstatus, hgranted⟩ | hfailed
            · refine Or.inl ⟨hstatus, fun hne => (hgranted hne).mono hkeep ?_⟩
              rw [hobj]
              exact hne
            · exact Or.inr hfailed
          · rcases hleave.truthful hsound.seats r (List.mem_toFinset.mp hr) with
              ⟨hstatus, hgranted⟩ | ⟨hstatus, hcreate, hnone⟩
            · exact Or.inl ⟨hstatus, fun _ => hgranted⟩
            · exact Or.inr ⟨hstatus, hcreate, hext.node?_eq_none hnone⟩

/-- The answers of an operation are right.  A granted request has its requester as a
    holder when the operation returns (a process that is unregistered meanwhile gives its
    own locks back); every other answer is `NON_EXISTENT`, to a request that may not create
    locks, for a path that named no lock before the operation. -/
theorem answers_of_step {b b' : Backend} {e : Event} (h : Reachable b) (hstep : Step b e b')
    {r : LockRequest} (hr : r ∈ e.answered) :
    (r.acquireStatus = .acquired →
      (∀ id p, e.op = .unregisterProcess id → b.processes.lookup id = some p →
        r.requester ≠ p.object) →
      b'.forest.Granted r) ∧
    (r.acquireStatus ≠ .acquired →
      r.acquireStatus = .nonExistent ∧ r.createMissing = false ∧
        b.forest.node? r.path = none) := by
  have hsound := h.forest_sound
  rcases hstep.answered_cases hr with
    ⟨pid, path, mode, p, f', as, l, l', -, -, has, hleave, rfl⟩ | ⟨id, b₁, hop, hloop, rfl⟩
  · rw [has] at hr
    rcases hleave.truthful hsound.seats r (List.mem_toFinset.mp hr) with
      ⟨hstatus, hgranted⟩ | hfailed
    · exact ⟨fun _ _ => hgranted, fun hne => absurd hstatus hne⟩
    · exact ⟨fun heq => absurd (heq.symm.trans hfailed.1) (by simp), fun _ => hfailed⟩
  · obtain ⟨p, hp⟩ := hloop.registered
    obtain ⟨-, -, -, hans⟩ := hloop.truthful hsound hp
    rcases hans r hr with ⟨hstatus, hgranted⟩ | hfailed
    · exact ⟨fun _ hne => hgranted (hne id p hop hp), fun hne => absurd hstatus hne⟩
    · exact ⟨fun heq => absurd (heq.symm.trans hfailed.1) (by simp), fun _ => hfailed⟩

/-- Process 0 holds X on `a`, process 1 waits for S. -/
def waiting : List Op :=
  [.registerProcess, .registerProcess, .createLock 0 [0x61] true, .acquireLock 1 [0x61] 0]

theorem answers_of_step_waiting :
    ∃ r ∈ answeredBy 1 (after 1 waiting) (.releaseLock 0 [0x61] 2), r.acquireStatus = .acquired ∧
      (next 1 (after 1 waiting) (.releaseLock 0 [0x61] 2)).forest.Granted r := by
  have hres : ((after 1 waiting).step 1 (.releaseLock 0 [0x61] 2)).toOption.map Prod.fst =
      some (.released .released) := by decide +kernel
  have hrun : ∃ r ∈ answeredBy 1 (after 1 waiting) (.releaseLock 0 [0x61] 2),
      r.acquireStatus = .acquired := by decide +kernel
  obtain ⟨r, hr, hstatus⟩ := hrun
  exact ⟨r, hr, hstatus, (answers_of_step (reachable_after 1 waiting) (step_next hres) hr).1 hstatus
    fun _ _ hop => by cases hop⟩

-- ============================================================================
-- Occurrences of a request
-- ============================================================================

/-- How often the request object with this address stands in a queue of the forest. -/
def occurrences (f : LockForest) (a : Nat) : Nat :=
  (f.nodes.map fun x => x.2.val.lockRequests.countP fun r => r.address = a).sum

/-- How often the operation returns the request object in its answered set. -/
def Event.answers (e : Event) (a : Nat) : Nat := (e.answered.filter fun r => r.address = a).card

/-- How often the request object has been returned in an answered set of the run. -/
def answers (es : List Event) (a : Nat) : Nat := (es.map fun e => e.answers a).sum

theorem weighQueue_tally (a : Nat) (queue : List LockRequest) :
    LockState.weighQueue (.tally a) queue = queue.countP fun r => r.address = a := by
  induction queue with
  | nil => rfl
  | cons r queue ih =>
      rw [List.countP_cons, ← ih, add_comm]
      simp [LockState.weighQueue, Weights.tally, LockRequest.ticket]

theorem occurrences_eq (f : LockForest) (a : Nat) : occurrences f a = f.weigh (.tally a) := by
  have hstate : ∀ (π : LockPath) (s : LockState),
      s.weigh (.tally a) π = s.lockRequests.countP fun r => r.address = a := by
    intro π s
    rw [LockState.weigh, weighQueue_tally]
    simp [Weights.tally]
  rw [occurrences, LockForest.weigh_eq_sum]
  simp only [hstate]

/-- Request objects stand in at most one place, and only those that were made. -/
structure Ticketed (b : Backend) : Prop where
  once : ∀ a, occurrences b.forest a ≤ 1
  issued : ∀ a, b.nextRequest ≤ a → occurrences b.forest a = 0

theorem ticketed_init : Ticketed init := ⟨fun _ => Nat.zero_le _, fun _ _ => rfl⟩

/-- The request that the operation made in state `b` was queued. -/
def entered (b : Backend) (res : Result) (a : Nat) : Nat :=
  if res.isQueued = true ∧ a = b.nextRequest then 1 else 0

/-- In state `b` the process releases in the mode of a waiting request of its own, and
    after this call the request is in no queue and was not answered. -/
def CallWithdraws (b : Backend) (pid : UInt32) (path : PathString) (mode : UInt8) (a : Nat) : Prop :=
  ∃ p res more b', b.processes.lookup pid = some p ∧
    b.releaseLock pid path mode = .ok (res, more, b') ∧
    (∃ x ∈ b.forest.nodes, ∃ r ∈ x.2.val.lockRequests,
      r.address = a ∧ r.requester = p.object ∧ r.mode = mode) ∧
    occurrences b'.forest a = 0 ∧ ∀ r ∈ more, r.address ≠ a

/-- A call made by the operation withdraws the request. -/
def Withdraws (b : Backend) (op : Op) (a : Nat) : Prop :=
  ∃ b₁ pid path mode, Within b op b₁ (.releaseLock pid path mode) ∧
    CallWithdraws b₁ pid path mode a

/-- The request was withdrawn in the run from `b` to `b'`. -/
def WithdrawnIn (b : Backend) (es : List Event) (b' : Backend) (a : Nat) : Prop :=
  ∃ u e v c c', es = u ++ e :: v ∧ Lts.Trace Step b u c ∧ Step c e c' ∧ Lts.Trace Step c' v b' ∧
    Withdraws c e.op a

-- ============================================================================
-- Accounting
-- ============================================================================

theorem card_filter_toFinset_le (as : List LockRequest) (a : Nat) :
    (as.toFinset.filter fun r => r.address = a).card ≤ as.countP fun r => r.address = a := by
  have hfilter : (as.toFinset.filter fun r => r.address = a) =
      (as.filter fun r => r.address = a).toFinset := by
    ext r
    simp
  rw [hfilter, List.countP_eq_length_filter]
  exact List.toFinset_card_le _

theorem card_filter_toFinset_pos {as : List LockRequest} {a : Nat}
    (h : 0 < as.countP fun r => r.address = a) :
    0 < (as.toFinset.filter fun r => r.address = a).card := by
  obtain ⟨r, hr, ha⟩ := List.countP_pos_iff.mp h
  exact Finset.card_pos.mpr ⟨r, Finset.mem_filter.mpr ⟨List.mem_toFinset.mpr hr, by simpa using ha⟩⟩

theorem spent_tally (a : Nat) (as : List LockRequest) :
    Lock.spent (.tally a) as = as.countP fun r => r.address = a := weighQueue_tally a as

theorem gained_tally (a : Nat) (as : List LockRequest) : Lock.gained (.tally a) as = 0 := by
  simp [Lock.gained, Weights.tally]

/-- One move: what waited still waits, or was answered, or was withdrawn; the request
    that was just queued waits. -/
theorem Move.account {b b' : Backend} {op : Op} {res : Result} {answered : Finset LockRequest}
    (h : Move b op res answered b') (hb : b.forest.Sound) (ht : Ticketed b) (a : Nat) :
    occurrences b'.forest a + (answered.filter fun r => r.address = a).card =
        occurrences b.forest a + entered b res a ∨
      (occurrences b.forest a = 1 ∧ occurrences b'.forest a = 0 ∧
        (answered.filter fun r => r.address = a).card = 0 ∧
        ∃ pid path mode p x r, op = .releaseLock pid path mode ∧
          b.processes.lookup pid = some p ∧ x ∈ b.forest.nodes ∧ r ∈ x.2.val.lockRequests ∧
          r.address = a ∧ r.requester = p.object ∧ r.mode = mode) := by
  have hnone : ∀ res : Result, res.isQueued = false → entered b res a = 0 := by
    intro res hres
    simp [entered, hres]
  cases h with
  | idle _ hres | tick _ hres => exact Or.inl (by rw [hnone _ hres]; rfl)
  | register => exact Or.inl (by rw [hnone _ rfl]; rfl)
  | @enter _ _ pid path mode create p r ret f' l l' r' hask hp hsame henter hret hres =>
      refine Or.inl ?_
      have hweigh := henter.weigh_eq (w := .tally a)
      have hentry : Lock.entry (.tally a) ret r = entered b res a := by
        have haddr : r.address = b.nextRequest := hsame.address
        rw [entered, hres]
        cases ret with
        | acquired => rfl
        | queued => simp [Lock.entry, Weights.tally, LockRequest.ticket, haddr, eq_comm]
        | nonExistent => exact absurd rfl hret
      rw [occurrences_eq, occurrences_eq]
      change f'.weigh (.tally a) + 0 = _
      rw [hweigh, hentry, add_zero, add_comm]
  | @add pid path res p l hp hl hres =>
      refine Or.inl ?_
      have hupd := LockForest.updates_setRoot hl (Lock.createNotHeld p.object (splitPath path) l).2
      have hweigh := hupd.weigh (.tally a)
      rw [(LockForest.createNotHeld_adds p.object (splitPath path) l).weigh_eq] at hweigh
      rw [occurrences_eq, occurrences_eq, hnone _ hres]
      exact add_right_cancel hweigh
  | @release pid path mode p f' as l l' hp hleave =>
      obtain ⟨x, hx, hweigh⟩ := hleave.weigh_eq hb.seats
      have hweigh := hweigh (.tally a)
      rw [gained_tally, spent_tally, add_zero, ← occurrences_eq, ← occurrences_eq] at hweigh
      have hle := card_filter_toFinset_le as a
      have hpos := @card_filter_toFinset_pos as a
      have honce := ht.once a
      rw [hnone _ rfl]
      change occurrences f' a + _ = _ ∨ _ ∧ occurrences f' a = 0 ∧ _
      cases hx with
      | lock => exact Or.inl (by simp only [Lock.Removed.weight, Weights.tally] at hweigh; omega)
      | @request ρ rest n r pre post hpath hn hnot hq hreq hmode =>
          by_cases haddr : r.address = a
          · have hone : Lock.Removed.weight (.tally a) (.request r.ticket) = 1 := if_pos haddr
            rw [hone] at hweigh
            refine Or.inr ⟨by omega, by omega, by omega, pid, path, mode, p, ?_⟩
            have hmem : (rootName path :: ρ, n) ∈ b.forest.nodes :=
              LockForest.mem_nodes.mpr ⟨_, l, hleave.lookup, NamedTree.mem_nodes_of_find (π := [_]) hn⟩
            exact ⟨_, r, rfl, hp, hmem, by simp [hq], haddr, hreq, hmode⟩
          · have hzero : Lock.Removed.weight (.tally a) (.request r.ticket) = 0 := if_neg haddr
            rw [hzero] at hweigh
            exact Or.inl (by omega)

theorem Move.nextRequest_le {b b' : Backend} {op : Op} {res : Result}
    {answered : Finset LockRequest} (h : Move b op res answered b') :
    b.nextRequest ≤ b'.nextRequest ∧ (res.isQueued = true → b.nextRequest < b'.nextRequest) := by
  cases h with
  | idle _ hres => exact ⟨Nat.le_refl _, fun h => by rw [hres] at h; cases h⟩
  | register | release => exact ⟨Nat.le_refl _, fun h => by cases h⟩
  | tick | enter | add => exact ⟨Nat.le_succ _, fun _ => Nat.lt_succ_self _⟩

theorem Move.ticketed {b b' : Backend} {op : Op} {res : Result} {answered : Finset LockRequest}
    (h : Move b op res answered b') (hb : b.forest.Sound) (ht : Ticketed b) : Ticketed b' := by
  obtain ⟨hnext, hqueued⟩ := h.nextRequest_le
  refine ⟨fun a => ?_, fun a ha => ?_⟩
  · have honce := ht.once a
    have hissued := ht.issued a
    rcases h.account hb ht a with haccount | ⟨-, haccount, -⟩
    · simp only [entered] at haccount
      split at haccount <;> omega
    · omega
  · have hissued := ht.issued a (hnext.trans ha)
    rcases h.account hb ht a with haccount | ⟨-, haccount, -⟩
    · simp only [entered] at haccount
      split at haccount
      · rename_i hcond
        have := hqueued hcond.1
        omega
      · omega
    · exact haccount

/-- A release call that takes a request away without answering it withdraws it. -/
theorem callWithdraws_of_account {b b' : Backend} {op : Op} {res : ReleaseLockResult}
    {more : Finset LockRequest} {pid : UInt32} {path : PathString} {mode : UInt8} {a : Nat}
    (hrel : b.releaseLock pid path mode = .ok (res, more, b'))
    (hocc : occurrences b'.forest a = 0) (hcard : (more.filter fun r => r.address = a).card = 0)
    (hop : op = .releaseLock pid path mode)
    (hfound : ∃ pid path mode p x r, op = .releaseLock pid path mode ∧
      b.processes.lookup pid = some p ∧ x ∈ b.forest.nodes ∧ r ∈ x.2.val.lockRequests ∧
      r.address = a ∧ r.requester = p.object ∧ r.mode = mode) : CallWithdraws b pid path mode a := by
  obtain ⟨pid', path', mode', p, x, r, hop', hp, hx, hr, haddr, hreq, hmode⟩ := hfound
  obtain ⟨rfl, rfl, rfl⟩ : pid' = pid ∧ path' = path ∧ mode' = mode := by
    rw [hop] at hop'
    cases hop'
    exact ⟨rfl, rfl, rfl⟩
  refine ⟨p, res, more, b', hp, hrel, ⟨x, hx, r, hr, haddr, hreq, hmode⟩, hocc, ?_⟩
  intro y hy hya
  have hmem : y ∈ more.filter fun r => r.address = a := Finset.mem_filter.mpr ⟨hy, hya⟩
  rw [Finset.card_eq_zero.mp hcard] at hmem
  exact absurd hmem (Finset.notMem_empty y)

/-- The loop of `unregister_process`, up to some call. -/
theorem Unregistering.account {b b₁ : Backend} {id : UInt32} {answered : Finset LockRequest}
    {locks : List (PathString × UInt8)} (h : Unregistering b id answered b₁ locks)
    (hb : b.forest.Sound) (ht : Ticketed b) (a : Nat) :
    b₁.forest.Sound ∧ Ticketed b₁ ∧ b₁.nextRequest = b.nextRequest ∧
      (occurrences b₁.forest a + (answered.filter fun r => r.address = a).card =
          occurrences b.forest a ∨
        (occurrences b.forest a = 1 ∧ occurrences b₁.forest a = 0 ∧
          (answered.filter fun r => r.address = a).card = 0 ∧
          Withdraws b (.unregisterProcess id) a)) := by
  induction h with
  | start => exact ⟨hb, ht, rfl, Or.inl rfl⟩
  | pass _ _ _ ih => exact ih
  | @call answered b₁ b₂ path mode locks res more hloop hrel ih =>
      obtain ⟨hsound, htick, hnext, hacc⟩ := ih
      have hmove := move_of_releaseLock hrel
      have hnext₂ : b₂.nextRequest = b₁.nextRequest := by
        cases hmove with
        | idle | release => rfl
        | tick hop => cases hop
        | enter hask => cases hask
      refine ⟨hmove.forest_sound hsound, hmove.ticketed hsound htick, hnext₂.trans hnext, ?_⟩
      have honce := ht.once a
      have hunion : ((answered ∪ more).filter fun r => r.address = a).card ≤
          (answered.filter fun r => r.address = a).card +
            (more.filter fun r => r.address = a).card := by
        rw [Finset.filter_union]
        exact Finset.card_union_le _ _
      have hleft : (answered.filter fun r => r.address = a).card ≤
          ((answered ∪ more).filter fun r => r.address = a).card :=
        Finset.card_le_card (Finset.filter_subset_filter _ Finset.subset_union_left)
      have hright : (more.filter fun r => r.address = a).card ≤
          ((answered ∪ more).filter fun r => r.address = a).card :=
        Finset.card_le_card (Finset.filter_subset_filter _ Finset.subset_union_right)
      have hzero : entered b₁ (.released res) a = 0 := by simp [entered, Result.isQueued]
      rcases hmove.account hsound htick a with hstep | ⟨hocc₁, hocc₂, hcard, hfound⟩
      · rcases hacc with hacc | ⟨hocc, hocc₁, hcard, hwith⟩
        · exact Or.inl (by omega)
        · exact Or.inr ⟨hocc, by omega, by omega, hwith⟩
      · rcases hacc with hacc | ⟨-, hocc, -, -⟩
        · refine Or.inr ⟨by omega, hocc₂, by omega, b₁, id, path, mode, .release hloop, ?_⟩
          exact callWithdraws_of_account hrel hocc₂ hcard rfl hfound
        · omega

/-- What one operation can do to a request object. -/
structure Accounts (b : Backend) (e : Event) (b' : Backend) (a : Nat) : Prop where
  ticketed : Ticketed b'
  next_le : b.nextRequest ≤ b'.nextRequest
  next_lt : e.result.isQueued = true → b.nextRequest < b'.nextRequest
  balance : occurrences b'.forest a + e.answers a =
      occurrences b.forest a + entered b e.result a ∨
    (occurrences b.forest a = 1 ∧ occurrences b'.forest a = 0 ∧ e.answers a = 0 ∧
      Withdraws b e.op a)

theorem Move.accounts {b b' : Backend} {op : Op} {res : Result} {answered : Finset LockRequest}
    (h : Move b op res answered b') (hb : b.forest.Sound) (ht : Ticketed b) (a : Nat)
    (hwith : ∀ pid path mode, op = .releaseLock pid path mode → occurrences b'.forest a = 0 →
      (answered.filter fun r => r.address = a).card = 0 →
      (∃ pid path mode p x r, op = .releaseLock pid path mode ∧
        b.processes.lookup pid = some p ∧ x ∈ b.forest.nodes ∧ r ∈ x.2.val.lockRequests ∧
        r.address = a ∧ r.requester = p.object ∧ r.mode = mode) → CallWithdraws b pid path mode a) :
    Accounts b ⟨op, res, answered⟩ b' a := by
  obtain ⟨hle, hlt⟩ := h.nextRequest_le
  refine ⟨h.ticketed hb ht, hle, hlt, ?_⟩
  rcases h.account hb ht a with hacc | ⟨hocc, hocc', hcard, hfound⟩
  · exact Or.inl hacc
  · obtain ⟨pid, path, mode, p, x, r, rfl, -⟩ := id hfound
    exact Or.inr ⟨hocc, hocc', hcard, b, pid, path, mode, .self,
      hwith pid path mode rfl hocc' hcard hfound⟩

theorem Step.accounts {b b' : Backend} {e : Event} (h : Step b e b') (hb : b.forest.Sound)
    (ht : Ticketed b) (a : Nat) : Accounts b e b' a := by
  rcases h.cases with hmove | ⟨id, b₁, p, hop, hloop, -, -, hresult, rfl⟩
  · apply hmove.accounts hb ht a
    intro pid path mode hop hocc hcard hfound
    obtain ⟨res, hrun⟩ := h.releaseLock_eq hop
    exact callWithdraws_of_account hrun hocc hcard hop hfound
  · obtain ⟨-, htick, hnext, hacc⟩ := hloop.account hb ht a
    have hqueued : e.result.isQueued = false := by
      rw [hresult]
      rfl
    have hentered : entered b e.result a = 0 := by simp [entered, hqueued]
    refine ⟨⟨htick.once, htick.issued⟩, Nat.le_of_eq hnext.symm, fun h => ?_, ?_⟩
    · rw [hqueued] at h
      cases h
    · rw [hentered, hop]
      exact hacc

-- ============================================================================
-- The fate of a request
-- ============================================================================

theorem answers_append (es es' : List Event) (a : Nat) :
    answers (es ++ es') a = answers es a + answers es' a := by
  simp [answers]

theorem answers_cons (e : Event) (es : List Event) (a : Nat) :
    answers (e :: es) a = e.answers a + answers es a := by
  simp [answers]

/-- A run: the state stays in order, and what waited at its start waits, was answered, or
    was withdrawn. -/
theorem accounts_of_trace {b b' : Backend} {es : List Event} (h : Lts.Trace Step b es b')
    (hb : b.forest.Sound) (ht : Ticketed b) {a : Nat} (ha : a < b.nextRequest) :
    b'.forest.Sound ∧ Ticketed b' ∧ a < b'.nextRequest ∧
      (occurrences b'.forest a + answers es a = occurrences b.forest a ∨
        (occurrences b.forest a = 1 ∧ occurrences b'.forest a = 0 ∧ answers es a = 0 ∧
          WithdrawnIn b es b' a)) := by
  induction h with
  | nil => exact ⟨hb, ht, ha, Or.inl rfl⟩
  | @snoc c c' es e hrun hstep ih =>
      obtain ⟨hsound, htick, hlt, hacc⟩ := ih
      have hone := hstep.accounts hsound htick a
      refine ⟨hstep.forest_sound hsound, hone.ticketed, hlt.trans_le hone.next_le, ?_⟩
      have hnew : entered c e.result a = 0 := if_neg fun hcond => absurd hcond.2 hlt.ne
      have hsum : answers (es ++ [e]) a = answers es a + e.answers a := by
        rw [answers_append]
        simp [answers]
      have honce := ht.once a
      rcases hone.balance with hbal | ⟨hocc, hocc', hans, hwith⟩
      · rcases hacc with hacc | ⟨hocc, hocc', hans, u, e', v, d, d', rfl, hu, he', hv, hwith⟩
        · exact Or.inl (by omega)
        · refine Or.inr ⟨hocc, by omega, by omega, u, e', v ++ [e], d, d', ?_, hu, he', hv.snoc hstep,
            hwith⟩
          rw [List.append_assoc, List.cons_append]
      · rcases hacc with hacc | ⟨-, hocc', -, -⟩
        · exact Or.inr ⟨by omega, hocc', by omega, es, e, [], c, c', rfl, hrun, hstep, .nil, hwith⟩
        · omega

/-- A run that has not made a request has not answered it. -/
theorem answers_of_trace {b : Backend} {es : List Event} (h : Lts.Trace Step init es b) :
    b.forest.Sound ∧ Ticketed b ∧ ∀ a, b.nextRequest ≤ a → answers es a = 0 := by
  induction h with
  | nil => exact ⟨LockForest.sound_empty, ticketed_init, fun _ _ => rfl⟩
  | @snoc c c' es e hrun hstep ih =>
      obtain ⟨hsound, htick, hans⟩ := ih
      have hone := fun a => hstep.accounts hsound htick a
      refine ⟨hstep.forest_sound hsound, (hone 0).ticketed, fun a ha => ?_⟩
      have hle := (hone a).next_le
      have hlt := (hone a).next_lt
      have hocc := htick.issued a (hle.trans ha)
      have hbefore := hans a (hle.trans ha)
      have hnew : entered c e.result a = 0 := by
        refine if_neg fun hcond => ?_
        have := hlt hcond.1
        omega
      rw [answers_append, hbefore]
      rcases (hone a).balance with hbal | ⟨hocc', -, -, -⟩
      · simp only [answers, List.map_cons, List.map_nil, List.sum_cons, List.sum_nil]
        omega
      · omega

/-- Operations that make a request use up an identity. -/
theorem Step.nextRequest_eq {b b' : Backend} {e : Event} {pid : UInt32} {p : Process}
    (h : Step b e b') (hop : e.op.requestFor = some pid) (hp : b.processes.lookup pid = some p) :
    b'.nextRequest = b.nextRequest + 1 := by
  rcases h.cases with hmove | ⟨_, _, _, hop', -⟩
  · generalize hop' : e.op = op at hmove
    generalize e.result = res at hmove
    generalize e.answered = answered at hmove
    cases hmove with
    | idle hnone =>
        rw [hnone pid (hop' ▸ hop)] at hp
        cases hp
    | tick | enter | add => rfl
    | register | release => rw [hop'] at hop; cases hop
  · rw [hop'] at hop
    cases hop

/-- No request is lost or duplicated.  The request made by an operation that returned
    `QUEUED` stands, in every later state of the run, exactly once in one queue and was not
    answered; or it was answered exactly once and stands in no queue; or it was withdrawn
    by a release of its own process in its own mode and is in no queue and was not
    answered.  A request with an immediate result never occurs anywhere. -/
theorem request_fate {es₁ es₂ : List Event} {b₀ b₁ b : Backend} {e : Event} {pid : UInt32}
    {p : Process} (h₁ : Lts.Trace Step init es₁ b₀) (hstep : Step b₀ e b₁)
    (h₂ : Lts.Trace Step b₁ es₂ b) (hop : e.op.requestFor = some pid)
    (hp : b₀.processes.lookup pid = some p) :
    (e.result.isQueued = true →
      (occurrences b.forest b₀.nextRequest = 1 ∧ answers (es₁ ++ e :: es₂) b₀.nextRequest = 0) ∨
      (occurrences b.forest b₀.nextRequest = 0 ∧ answers (es₁ ++ e :: es₂) b₀.nextRequest = 1) ∨
      (occurrences b.forest b₀.nextRequest = 0 ∧ answers (es₁ ++ e :: es₂) b₀.nextRequest = 0 ∧
        WithdrawnIn b₁ es₂ b b₀.nextRequest)) ∧
    (e.result.isQueued = false →
      occurrences b.forest b₀.nextRequest = 0 ∧ answers (es₁ ++ e :: es₂) b₀.nextRequest = 0) := by
  obtain ⟨hsound, htick, hans⟩ := answers_of_trace h₁
  have hbefore := hans b₀.nextRequest (Nat.le_refl _)
  have hfresh := htick.issued b₀.nextRequest (Nat.le_refl _)
  have hone := hstep.accounts hsound htick b₀.nextRequest
  have hlt : b₀.nextRequest < b₁.nextRequest := by
    rw [hstep.nextRequest_eq hop hp]
    exact Nat.lt_succ_self _
  obtain ⟨-, -, -, hacc⟩ := accounts_of_trace h₂ (hstep.forest_sound hsound) hone.ticketed hlt
  have hsum : answers (es₁ ++ e :: es₂) b₀.nextRequest =
      e.answers b₀.nextRequest + answers es₂ b₀.nextRequest := by
    rw [answers_append, answers_cons, hbefore, zero_add]
  have hbal : occurrences b₁.forest b₀.nextRequest + e.answers b₀.nextRequest =
      entered b₀ e.result b₀.nextRequest := by
    rcases hone.balance with hbal | ⟨hocc, -⟩
    · omega
    · omega
  refine ⟨fun hq => ?_, fun hq => ?_⟩
  · have hentered : entered b₀ e.result b₀.nextRequest = 1 := if_pos ⟨hq, rfl⟩
    rcases hacc with hacc | ⟨hocc, hocc', hans', hwith⟩
    · omega
    · exact Or.inr (Or.inr ⟨hocc', by omega, hwith⟩)
  · have hentered : entered b₀ e.result b₀.nextRequest = 0 := by simp [entered, hq]
    rcases hacc with hacc | ⟨hocc, -⟩
    · exact ⟨by omega, by omega⟩
    · omega

/-- The request of process 1 in `waiting`, after process 0 has released. -/
theorem request_fate_waiting :
    ∃ es₁ e es₂, Lts.Trace Step init (es₁ ++ [e]) (after 1 waiting) ∧ e.result.isQueued = true ∧
      occurrences (after 1 waiting).forest 1 = 1 ∧
      Lts.Trace Step (after 1 waiting) es₂ (next 1 (after 1 waiting) (.releaseLock 0 [0x61] 2)) ∧
      occurrences (next 1 (after 1 waiting) (.releaseLock 0 [0x61] 2)).forest 1 = 0 ∧
      answers (es₁ ++ e :: es₂) 1 = 1 := by
  obtain ⟨es₁, h₁⟩ := reachable_after 1 (waiting.take 3)
  have hqueued : ((after 1 (waiting.take 3)).step 1 (.acquireLock 1 [0x61] 0)).toOption.map Prod.fst =
      some (.acquired .queued) := by decide +kernel
  have hreleased : ((after 1 waiting).step 1 (.releaseLock 0 [0x61] 2)).toOption.map Prod.fst =
      some (.released .released) := by decide +kernel
  have hnext : (after 1 (waiting.take 3)).nextRequest = 1 := by decide +kernel
  have hone : occurrences (after 1 waiting).forest 1 = 1 := by decide +kernel
  have hzero : occurrences (next 1 (after 1 waiting) (.releaseLock 0 [0x61] 2)).forest 1 = 0 := by
    decide +kernel
  have hproc : ((after 1 (waiting.take 3)).processes.lookup 1).isSome = true := by decide +kernel
  obtain ⟨p, hp⟩ := Option.isSome_iff_exists.mp hproc
  have hstep : Step (after 1 (waiting.take 3)) _ (after 1 waiting) := step_next hqueued
  have hrun : Lts.Trace Step (after 1 waiting) ([] ++ [_]) _ := .snoc .nil (step_next hreleased)
  have hfate := (request_fate h₁ hstep hrun rfl hp).1 rfl
  rw [hnext, hzero] at hfate
  rcases hfate with ⟨habs, -⟩ | ⟨-, hans⟩ | ⟨-, hans, -⟩
  · cases habs
  · exact ⟨es₁, _, _, h₁.snoc hstep, rfl, hone, hrun, hzero, hans⟩
  · -- the release has answered it
    have hanswer : ((answeredBy 1 (after 1 waiting) (.releaseLock 0 [0x61] 2)).filter
        fun r => r.address = 1).card = 1 := by decide +kernel
    rw [answers_append, answers_cons, List.nil_append, answers_cons, Event.answers, Event.answers,
      hanswer] at hans
    omega

end Backend

end Tclm.Server
