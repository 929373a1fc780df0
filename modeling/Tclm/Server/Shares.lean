/-
  Tclm.Server.Shares

  What every process holds and what it waits for, and what an operation changes of it.

  The locks of a process are a multiset of paths with modes, its requests a multiset of
  tickets.  An operation changes them for its own process as its result says
  (`acquireLock_weigh`, `createLock_weigh`, `releaseLock_weigh`), and for another one only
  by answering a request of it (`Settles`).
-/

import Tclm.Server.FollowUp
import Tclm.Server.Termination
import Mathlib.Algebra.Order.BigOperators.Group.Finset
import Mathlib.Tactic.Abel

namespace Tclm.Server

-- ============================================================================
-- Weights of answered requests
-- ============================================================================

namespace Weights

section

variable {M : Type} [AddCommMonoid M] (w : Weights M)

/-- The locks that answered requests have got. -/
def gained (answered : Finset LockRequest) : M :=
  ∑ r ∈ answered.filter fun r => r.acquireStatus = .acquired, w.held r.claim

/-- The places in the queues that answered requests have left. -/
def spent (answered : Finset LockRequest) : M := ∑ r ∈ answered, w.queued r.ticket

variable {w}

theorem gained_toFinset {as : List LockRequest} (h : as.Nodup) :
    w.gained as.toFinset = Lock.gained w as := by
  have hfilter : as.toFinset.filter (fun r => r.acquireStatus = .acquired) =
      (as.filter fun r => r.acquireStatus = .acquired).toFinset := by
    ext r
    simp
  rw [gained, hfilter, List.sum_toFinset _ (h.filter _), Lock.gained]

theorem spent_toFinset {as : List LockRequest} (h : as.Nodup) :
    w.spent as.toFinset = Lock.spent w as := by
  rw [spent, List.sum_toFinset _ h, Lock.spent]

theorem gained_union {answered more : Finset LockRequest} (h : Disjoint answered more) :
    w.gained (answered ∪ more) = w.gained answered + w.gained more := by
  rw [gained, Finset.filter_union, Finset.sum_union (Finset.disjoint_filter_filter h)]
  rfl

theorem spent_union {answered more : Finset LockRequest} (h : Disjoint answered more) :
    w.spent (answered ∪ more) = w.spent answered + w.spent more := Finset.sum_union h

@[simp] theorem gained_empty : w.gained ∅ = 0 := rfl

@[simp] theorem spent_empty : w.spent ∅ = 0 := rfl

end

/-- The locks that a process holds, with their modes. -/
def heldBy (p : ProcessRef) : Weights (Multiset (LockPath × UInt8)) :=
  ⟨fun c => if c.process = p then {(c.path, c.mode)} else 0, fun _ => 0⟩

/-- The requests of a process. -/
def waitsOf (p : ProcessRef) : Weights (Multiset Ticket) :=
  ⟨fun _ => 0, fun t => if t.claim.process = p then {t} else 0⟩

theorem heldBy_spent (p : ProcessRef) (answered : Finset LockRequest) :
    (heldBy p).spent answered = 0 := Finset.sum_const_zero

theorem waitsOf_gained (p : ProcessRef) (answered : Finset LockRequest) :
    (waitsOf p).gained answered = 0 := Finset.sum_const_zero

/-- The weights are about one process only. -/
def Concerns {M : Type} [AddCommMonoid M] (w : Weights M) (q : ProcessRef) : Prop :=
  (∀ c : Claim, c.process ≠ q → w.held c = 0) ∧ ∀ t : Ticket, t.claim.process ≠ q → w.queued t = 0

theorem heldBy_concerns (q : ProcessRef) : (heldBy q).Concerns q :=
  ⟨fun _ hne => if_neg hne, fun _ _ => rfl⟩

theorem waitsOf_concerns (q : ProcessRef) : (waitsOf q).Concerns q :=
  ⟨fun _ _ => rfl, fun _ hne => if_neg hne⟩

end Weights

namespace LockForest

/-- The locks that a process holds, with their modes. -/
def holdings (f : LockForest) (p : ProcessRef) : Multiset (LockPath × UInt8) :=
  f.weigh (.heldBy p)

/-- The requests of a process that wait. -/
def waits (f : LockForest) (p : ProcessRef) : Multiset Ticket := f.weigh (.waitsOf p)

theorem mem_holdings {f : LockForest} {p : ProcessRef} {path : LockPath} {mode : UInt8} :
    (path, mode) ∈ f.holdings p ↔
      ∃ x ∈ f.nodes, x.1 = path ∧ ∃ m, mode = m.toByte ∧ x.2.val.Holds p m := by
  have hmem : ∀ Cs : List (Multiset (LockPath × UInt8)),
      (path, mode) ∈ Cs.sum ↔ ∃ C ∈ Cs, (path, mode) ∈ C := by
    intro Cs
    induction Cs with
    | nil => simp
    | cons C Cs ih => simp [ih]
  have hstate : ∀ x : LockPath × Lock, (path, mode) ∈ x.2.val.weigh (.heldBy p) x.1 ↔
      (⟨p, mode, path⟩ : Claim) ∈ x.2.val.held x.1 := by
    intro x
    have hqueue : LockState.weighQueue (.heldBy p) x.2.val.lockRequests = 0 := by
      rw [LockState.weighQueue]
      exact List.sum_eq_zero fun y hy => by
        obtain ⟨_, _, rfl⟩ := List.mem_map.mp hy
        rfl
    rw [LockState.weigh, hqueue, add_zero]
    generalize x.2.val.held x.1 = C
    induction C using Multiset.induction with
    | empty => simp
    | cons c C ih =>
        rw [Multiset.map_cons, Multiset.sum_cons, Multiset.mem_add, Multiset.mem_cons]
        refine or_congr ?_ ih
        obtain ⟨process, mode', path'⟩ := c
        by_cases hp : process = p
        · simp [Weights.heldBy, hp, and_comm]
        · simp [Weights.heldBy, hp, Ne.symm hp]
  rw [holdings, weigh_eq_sum, hmem]
  constructor
  · rintro ⟨C, hC, hin⟩
    obtain ⟨x, hx, rfl⟩ := List.mem_map.mp hC
    obtain ⟨hpath, hholds⟩ := LockState.mem_held.mp ((hstate x).mp hin)
    exact ⟨x, hx, hpath.symm, hholds⟩
  · rintro ⟨x, hx, hpath, hholds⟩
    exact ⟨_, List.mem_map_of_mem hx, (hstate x).mpr (LockState.mem_held.mpr ⟨hpath.symm, hholds⟩)⟩

theorem mem_claims_of_mem_holdings {f : LockForest} {p : ProcessRef} {path : LockPath} {mode : UInt8}
    (h : (path, mode) ∈ f.holdings p) : (⟨p, mode, path⟩ : Claim) ∈ f.claims := by
  obtain ⟨x, hx, hpath, hholds⟩ := mem_holdings.mp h
  exact mem_claims_iff.mpr ⟨x, hx, .inl ⟨hpath, hholds⟩⟩

end LockForest

/-- The result of `acquire_lock` for what the forest says. -/
def AcquireLockResult.ofStatus : AcquireStatus → AcquireLockResult
  | .acquired => .acquired
  | .queued => .queued
  | .nonExistent => .noSuchLock

namespace Backend

open LockForest (Leaves)
open Lock (SameRequest)

-- ============================================================================
-- Own requests
-- ============================================================================

theorem acquireLock_weigh {b b' : Backend} {pid : UInt32} {path : PathString} {mode : UInt8}
    {res : AcquireLockResult} {p : Process} (h : b.acquireLock pid path mode = .ok (res, b'))
    (hp : b.processes.lookup pid = some p) :
    ∃ r ret, SameRequest (p.request b.nextRequest path mode false) r ∧
      res = AcquireLockResult.ofStatus ret ∧
      ∀ {M : Type} [AddCancelCommMonoid M] (w : Weights M),
        b'.forest.weigh w = Lock.entry w ret r + b.forest.weigh w := by
  simp only [acquireLock, hp] at h
  rcases b.forest.acquire_spec b.nextRequest p path mode with
    ⟨-, hrun⟩ | ⟨ret, l, l', r', -, henter, hrun⟩
  · simp only [hrun, bind, Except.bind] at h
    cases h
    exact ⟨_, .nonExistent, .refl _, rfl, fun w => (zero_add _).symm⟩
  · refine ⟨LockForest.acquireRequest b.nextRequest p path mode, ret, .refl _, ?_⟩
    simp only [hrun, bind, Except.bind] at h
    cases ret with
    | acquired | queued | nonExistent =>
        cases h
        exact ⟨rfl, fun w => henter.weigh_eq⟩

theorem createLock_weigh {b b' : Backend} {pid : UInt32} {path : PathString}
    {res : CreateLockResult} {p : Process} (h : b.createLock pid path true = .ok (res, b'))
    (hp : b.processes.lookup pid = some p) :
    ∃ r ret, SameRequest (p.request b.nextRequest path Mode.X.toByte true) r ∧
      ((ret = .queued ∧ res = .queued) ∨ (ret = .acquired ∧ (res = .created ∨ res = .exists))) ∧
      ∀ {M : Type} [AddCancelCommMonoid M] (w : Weights M),
        b'.forest.weigh w = Lock.entry w ret r + b.forest.weigh w := by
  simp only [createLock, hp] at h
  obtain ⟨r, ret, f', l, l', r', hsame, henter, hret, hrun⟩ :=
    b.forest.create_acquire_spec b.nextRequest p path
  simp only [hrun, bind, Except.bind] at h
  refine ⟨r, ret, hsame, ?_⟩
  cases ret with
  | acquired =>
      by_cases hcreated : r'.lockCreated = true
      · simp only [hcreated, reduceCtorEq, if_false, if_true] at h
        cases h
        exact ⟨.inr ⟨rfl, .inl rfl⟩, fun w => henter.weigh_eq⟩
      · simp only [hcreated, reduceCtorEq, if_false] at h
        cases h
        exact ⟨.inr ⟨rfl, .inr rfl⟩, fun w => henter.weigh_eq⟩
  | queued =>
      cases h
      exact ⟨.inl ⟨rfl, rfl⟩, fun w => henter.weigh_eq⟩
  | nonExistent => exact absurd rfl hret

theorem createLock_notHeld_weigh {b b' : Backend} {pid : UInt32} {path : PathString}
    {res : CreateLockResult} {p : Process} (h : b.createLock pid path false = .ok (res, b'))
    (hp : b.processes.lookup pid = some p) :
    res ≠ .queued ∧ res ≠ .noSuchProcess ∧
      ∀ {M : Type} [AddCancelCommMonoid M] (w : Weights M), b'.forest.weigh w = b.forest.weigh w := by
  simp only [createLock, hp] at h
  obtain ⟨ret, f', hret, hrun, hf⟩ := b.forest.create_notHeld_spec b.nextRequest p path
  simp only [hrun, bind, Except.bind] at h
  have hweigh : ∀ {M : Type} [AddCancelCommMonoid M] (w : Weights M),
      f'.weigh w = b.forest.weigh w := by
    intro M _ w
    rcases hf with rfl | ⟨l, hl, rfl⟩
    · rfl
    · have hupd :=
        (LockForest.updates_setRoot hl (Lock.createNotHeld p.object (splitPath path) l).2).weigh w
      rw [(LockForest.createNotHeld_adds p.object (splitPath path) l).weigh_eq] at hupd
      exact add_right_cancel hupd
  cases ret with
  | created | parentNotHeld | «exists» =>
      cases h
      exact ⟨by simp, by simp, hweigh⟩
  | queued => exact absurd rfl hret

-- ============================================================================
-- Releasing
-- ============================================================================

/-- Requests in the answer of a release were each in one queue only. -/
theorem nodup_of_leaves {b : Backend} {f' : LockForest} {p : ProcessRef} {mode : UInt8}
    {path rest : LockPath} {as : List LockRequest} {c : LockName} {l l' : Lock}
    (hb : b.forest.Sound) (ht : Ticketed b)
    (h : Leaves b.forest p mode path .success f' as c rest l l') : as.Nodup := by
  rw [List.nodup_iff_count_le_one]
  intro r
  obtain ⟨x, -, hweigh⟩ := h.weigh_eq hb.seats
  have hweigh := hweigh (.tally r.address)
  rw [gained_tally, spent_tally, ← occurrences_eq] at hweigh
  have honce := ht.once r.address
  have hcount : as.count r ≤ as.countP fun r' => r'.address = r.address := by
    rw [List.count]
    apply List.countP_mono_left
    intro r' _ hr'
    rw [eq_of_beq hr']
    exact decide_eq_true rfl
  omega

/-- Where a process without requests releases something, it is the lock itself. -/
theorem leaves_weigh {b : Backend} {f' : LockForest} {p : ProcessRef} {mode : UInt8}
    {path rest : LockPath} {as : List LockRequest} {c : LockName} {l l' : Lock}
    (hb : b.forest.Sound) (ht : Ticketed b)
    (h : Leaves b.forest p mode path .success f' as c rest l l') (hwaits : b.forest.waits p = 0)
    {M : Type} [AddCancelCommMonoid M] (w : Weights M) :
    b.forest.weigh w + w.gained as.toFinset =
      w.held ⟨p, mode, path⟩ + f'.weigh w + w.spent as.toFinset := by
  have hnodup := nodup_of_leaves hb ht h
  obtain ⟨x, hx, hweigh⟩ := h.weigh_eq hb.seats
  have hw := hweigh w
  rw [← Weights.gained_toFinset hnodup, ← Weights.spent_toFinset hnodup] at hw
  cases hx with
  | lock hn hunlock =>
      rw [h.path_eq]
      exact hw
  | @request ρ rest n r pre post _ _ _ _ hreq _ _ =>
      -- the process would have a request
      have hzero := hweigh (.waitsOf p)
      have hone : Lock.Removed.weight (.waitsOf p) (.request r.ticket) = {r.ticket} := if_pos hreq
      rw [show b.forest.weigh (.waitsOf p) = 0 from hwaits, hone,
        ← Weights.gained_toFinset hnodup, Weights.waitsOf_gained, add_zero] at hzero
      have hcard := congrArg Multiset.card hzero
      simp only [Multiset.card_zero, Multiset.card_add, Multiset.card_singleton] at hcard
      omega

/-- A process without requests releases the lock that it names, or nothing. -/
theorem releaseLock_weigh {b b' : Backend} {pid : UInt32} {path : PathString} {mode : UInt8}
    {res : ReleaseLockResult} {answered : Finset LockRequest} {p : Process} (hb : b.forest.Sound)
    (ht : Ticketed b) (h : b.releaseLock pid path mode = .ok (res, answered, b'))
    (hp : b.processes.lookup pid = some p) (hwaits : b.forest.waits p.object = 0) :
    (res = .released ∧ ∀ {M : Type} [AddCancelCommMonoid M] (w : Weights M),
      b.forest.weigh w + w.gained answered =
        w.held ⟨p.object, mode, splitPath path⟩ + b'.forest.weigh w + w.spent answered) ∨
    (res = .notHeld ∧ answered = ∅ ∧ b' = b ∧
      (⟨p.object, mode, splitPath path⟩ : Claim) ∉ b.forest.claims) := by
  simp only [releaseLock, hp] at h
  obtain ⟨⟨ret, f', p', answered'⟩, hrun, h⟩ := bind_eq_ok.mp h
  obtain ⟨-, hcase⟩ := LockForest.release_spec hrun
  cases ret with
  | success =>
      rcases hcase with ⟨-, hret, -⟩ | ⟨as, l, l', rfl, hleave⟩
      · cases hret
      · cases h
        exact .inl ⟨rfl, fun w => leaves_weigh hb ht hleave hwaits w⟩
  | notHeld =>
      have hseek : b.forest.seek p.object mode (splitPath path) = .nothing := by
        by_contra hne
        cases (LockForest.release_success_iff hrun).mpr hne
      have hclaim : (⟨p.object, mode, splitPath path⟩ : Claim) ∉ b.forest.claims := fun hmem =>
        hb.seek_ne_nothing hmem hseek
      obtain ⟨rfl, hcase⟩ := LockForest.release_spec hrun
      rcases hcase with ⟨-, -, rfl, rfl⟩ | ⟨as, l, l', rfl, hleave⟩
      · simp only [update_self hp] at h
        cases h
        exact .inr ⟨rfl, rfl, rfl, hclaim⟩
      · obtain ⟨rfl, rfl, -, -⟩ := hleave.releases.of_notHeld
        have hf : f' = b.forest := hleave.result.trans (LockForest.setRoot_self hleave.lookup)
        simp only [hf, update_self hp] at h
        cases h
        exact .inr ⟨rfl, rfl, rfl, hclaim⟩

theorem one_le_spent_tally {answered : Finset LockRequest} {r : LockRequest} (hr : r ∈ answered) :
    1 ≤ (Weights.tally r.address).spent answered := by
  have hone : (Weights.tally r.address).queued r.ticket = 1 := if_pos rfl
  rw [← hone]
  exact Finset.single_le_sum (f := fun r' => (Weights.tally r.address).queued r'.ticket)
    (fun _ _ => Nat.zero_le _) hr

theorem tally_gained (a : Nat) (answered : Finset LockRequest) :
    (Weights.tally a).gained answered = 0 := Finset.sum_const_zero

/-- While a process without requests is unregistered, the others lose and get nothing but what
    answered requests stand for. -/
theorem Unregistering.weigh {b b₁ : Backend} {id : UInt32} {answered : Finset LockRequest}
    {locks : List (PathString × UInt8)} {p : Process} (h : Unregistering b id answered b₁ locks)
    (hb : b.forest.Sound) (ht : Ticketed b) (hp : b.processes.lookup id = some p)
    (hwaits : b.forest.waits p.object = 0) :
    (∃ p₁, b₁.processes.lookup id = some p₁ ∧ p₁.object = p.object) ∧
      b₁.forest.Sound ∧ Ticketed b₁ ∧ b₁.forest.waits p.object = 0 ∧
      ∀ {M : Type} [AddCancelCommMonoid M] (w : Weights M),
        (∀ c : Claim, c.process = p.object → w.held c = 0) →
        b.forest.weigh w + w.gained answered = b₁.forest.weigh w + w.spent answered := by
  induction h with
  | start => exact ⟨⟨p, hp, rfl⟩, hb, ht, hwaits, fun w _ => rfl⟩
  | pass _ _ _ ih => exact ih
  | @call answered b₁ b₂ path mode locks res more h hrel ih =>
      obtain ⟨⟨p₁, hp₁, hobj⟩, hb₁, ht₁, hwaits₁, hweigh⟩ := ih
      have hmove := move_of_releaseLock hrel
      obtain ⟨p₂, hp₂, hobj₂⟩ := hmove.registered hp₁
      refine ⟨⟨p₂, hp₂, hobj₂.trans hobj⟩, hmove.forest_sound hb₁, hmove.ticketed hb₁ ht₁, ?_⟩
      rcases releaseLock_weigh hb₁ ht₁ hrel hp₁ (by rw [hobj]; exact hwaits₁) with
        ⟨-, hone⟩ | ⟨-, rfl, rfl, -⟩
      · have hdisj : Disjoint answered more := by
          rw [Finset.disjoint_left]
          intro r hr hr'
          have hbefore := hweigh (.tally r.address) fun _ _ => rfl
          have hcall := hone (.tally r.address)
          have hfirst := one_le_spent_tally hr
          have hsecond := one_le_spent_tally hr'
          have honce := ht.once r.address
          rw [occurrences_eq] at honce
          rw [tally_gained] at hbefore hcall
          omega
        constructor
        · have hcall := hone (.waitsOf p.object)
          rw [Weights.waitsOf_gained, show b₁.forest.weigh (.waitsOf p.object) = 0 from hwaits₁]
            at hcall
          have hzero : (b₂.forest.waits p.object).card = 0 := by
            have := congrArg Multiset.card hcall
            simp only [Multiset.card_zero, Multiset.card_add] at this
            rw [LockForest.waits]
            omega
          exact Multiset.card_eq_zero.mp hzero
        · intro M _ w hw
          have hbefore := hweigh w hw
          have hcall := hone w
          rw [hw _ hobj, zero_add] at hcall
          rw [Weights.gained_union hdisj, Weights.spent_union hdisj, ← add_assoc, hbefore,
            add_right_comm, hcall]
          abel
      · rw [Finset.union_empty]
        exact ⟨hwaits₁, hweigh⟩

-- ============================================================================
-- Other processes
-- ============================================================================

/-- What a process has and waits for changes by what answered requests stand for, and by
    nothing else. -/
def Settles (b b' : Backend) (answered : Finset LockRequest) (q : ProcessRef) : Prop :=
  ∀ {M : Type} [AddCancelCommMonoid M] (w : Weights M), w.Concerns q →
    b.forest.weigh w + w.gained answered = b'.forest.weigh w + w.spent answered

/-- The operation of a process without requests settles what the others wait for. -/
theorem Step.settles {b b' : Backend} {e : Event} {q : ProcessRef} (h : Step b e b')
    (hb : b.forest.Sound) (ht : Ticketed b)
    (hother : ∀ pid p, e.op.issuer = some pid → b.processes.lookup pid = some p →
      p.object ≠ q ∧ b.forest.waits p.object = 0) : Settles b b' e.answered q := by
  intro M _ w hw
  rcases h.cases with hmove | ⟨id, b₁, p₁, hop, hloop, -, -, -, rfl⟩
  · generalize hop : e.op = op at hmove hother
    generalize e.result = res at hmove
    generalize e.answered = answered at hmove
    cases hmove with
    | idle | tick | register => rfl
    | @enter _ _ pid path mode create p r ret f' l l' r' hask hp hsame henter hret hres =>
        have hne := (hother pid p (issuer_of_asks hask) hp).1
        have hreq : r.claim.process ≠ q := fun heq => hne (hsame.requester.symm.trans heq)
        have hentry : Lock.entry w ret r = 0 := by
          cases ret with
          | acquired => exact hw.1 _ hreq
          | queued => exact hw.2 _ hreq
          | nonExistent => rfl
        show b.forest.weigh w + 0 = f'.weigh w + 0
        rw [henter.weigh_eq, hentry, zero_add]
    | @add pid path res p l hp hl hres =>
        have hupd :=
          (LockForest.updates_setRoot hl (Lock.createNotHeld p.object (splitPath path) l).2).weigh w
        rw [(LockForest.createNotHeld_adds p.object (splitPath path) l).weigh_eq] at hupd
        show b.forest.weigh w + 0 = (b.forest.setRoot _ _).weigh w + 0
        rw [add_right_cancel hupd]
    | @release pid path mode p f' as l l' hp hleave =>
        obtain ⟨hne, hwaits⟩ := hother pid p rfl hp
        have hzero : w.held ⟨p.object, mode, splitPath path⟩ = 0 := hw.1 _ hne
        have hweigh := leaves_weigh hb ht hleave hwaits w
        rw [hzero, zero_add] at hweigh
        exact hweigh
  · obtain ⟨p, hp⟩ := hloop.registered
    obtain ⟨hne, hwaits⟩ := hother id p (by rw [hop]; rfl) hp
    obtain ⟨-, -, -, -, hweigh⟩ := hloop.weigh hb ht hp hwaits
    exact hweigh w fun c hc => hw.1 c (by rw [hc]; exact hne)

end Backend

namespace Weights

theorem spent_waitsOf (q : ProcessRef) (answered : Finset LockRequest) :
    (waitsOf q).spent answered =
      (answered.filter fun r => r.requester = q).val.map LockRequest.ticket := by
  rw [spent, Finset.sum_eq_multiset_sum]
  have hone : ∀ rs : Multiset LockRequest,
      (rs.map fun r => (waitsOf q).queued r.ticket).sum =
        (rs.filter fun r => r.requester = q).map LockRequest.ticket := by
    intro rs
    induction rs using Multiset.induction with
    | empty => rfl
    | cons r rs ih =>
        rw [Multiset.map_cons, Multiset.sum_cons, ih]
        by_cases hr : r.requester = q
        · have hfilter : (r ::ₘ rs).filter (fun r => r.requester = q) =
              r ::ₘ rs.filter fun r => r.requester = q := Multiset.filter_cons_of_pos _ hr
          have hticket : (waitsOf q).queued r.ticket = {r.ticket} := if_pos hr
          rw [hticket, hfilter, Multiset.map_cons, Multiset.singleton_add]
        · have hticket : (waitsOf q).queued r.ticket = 0 := if_neg hr
          have hfilter : (r ::ₘ rs).filter (fun r => r.requester = q) =
              rs.filter fun r => r.requester = q := Multiset.filter_cons_of_neg _ hr
          rw [hticket, hfilter, zero_add]
  exact hone answered.val

/-- Where nothing of a process was taken out of the queues, nothing of it was answered. -/
theorem requester_ne_of_spent {q : ProcessRef} {answered : Finset LockRequest}
    (h : (waitsOf q).spent answered = 0) : ∀ r ∈ answered, r.requester ≠ q := by
  intro r hr hreq
  rw [spent_waitsOf, Multiset.map_eq_zero] at h
  have hmem : r ∈ (answered.filter fun r => r.requester = q).val := Finset.mem_filter.mpr ⟨hr, hreq⟩
  rw [h] at hmem
  exact Multiset.notMem_zero r hmem

theorem gained_heldBy_of_notMem {q : ProcessRef} {answered : Finset LockRequest}
    (h : ∀ r ∈ answered, r.requester ≠ q) : (heldBy q).gained answered = 0 :=
  Finset.sum_eq_zero fun r hr => if_neg (h r (Finset.mem_filter.mp hr).1)

theorem gained_heldBy_of_mem {q : ProcessRef} {answered : Finset LockRequest} {r : LockRequest}
    (hr : r ∈ answered) (hreq : r.requester = q)
    (honly : ∀ r' ∈ answered, r'.requester = q → r' = r) :
    (heldBy q).gained answered =
      if r.acquireStatus = .acquired then {(r.path, r.mode)} else 0 := by
  have hone : (heldBy q).held r.claim = {(r.path, r.mode)} := if_pos hreq
  rw [gained]
  by_cases hacq : r.acquireStatus = .acquired
  · rw [if_pos hacq, Finset.sum_eq_single_of_mem r (Finset.mem_filter.mpr ⟨hr, hacq⟩), hone]
    intro r' hr' hne
    exact if_neg fun hreq' => hne (honly r' (Finset.mem_filter.mp hr').1 hreq')
  · rw [if_neg hacq]
    refine Finset.sum_eq_zero fun r' hr' => if_neg fun hreq' => ?_
    obtain ⟨hmem, hacq'⟩ := Finset.mem_filter.mp hr'
    rw [honly r' hmem hreq'] at hacq'
    exact hacq hacq'

end Weights

namespace Backend

variable {b b' : Backend} {answered : Finset LockRequest} {q : ProcessRef}

/-- A process that waits for nothing keeps what it has, and is not answered. -/
theorem Settles.of_none (h : Settles b b' answered q) (hwaits : b.forest.waits q = 0) :
    b'.forest.waits q = 0 ∧ b'.forest.holdings q = b.forest.holdings q ∧
      ∀ r ∈ answered, r.requester ≠ q := by
  have hqueue := h _ (Weights.waitsOf_concerns q)
  rw [show b.forest.weigh (.waitsOf q) = 0 from hwaits, Weights.waitsOf_gained, add_zero] at hqueue
  obtain ⟨hleft, hspent⟩ := add_eq_zero.mp hqueue.symm
  have hnone := Weights.requester_ne_of_spent hspent
  have hheld := h _ (Weights.heldBy_concerns q)
  rw [Weights.gained_heldBy_of_notMem hnone, Weights.heldBy_spent, add_zero, add_zero] at hheld
  exact ⟨hleft, hheld.symm, hnone⟩

/-- A request that creates missing locks is answered with its lock. -/
theorem Step.acquired_of_create {e : Event} (h : Step b e b') (hb : b.forest.Sound)
    {r : LockRequest} (hr : r ∈ e.answered) (hcreate : r.createMissing = true) :
    r.acquireStatus = .acquired := by
  rcases h.answered_cases hr with
    ⟨pid, path, mode, p, f', as, l, l', -, -, has, hleave, -⟩ | ⟨id, b₁, -, hloop, -⟩
  · rw [has, List.mem_toFinset] at hr
    rcases hleave.truthful hb.seats r hr with ⟨hacq, -⟩ | ⟨-, hnot, -⟩
    · exact hacq
    · rw [hcreate] at hnot
      cases hnot
  · obtain ⟨p, hp⟩ := hloop.registered
    obtain ⟨-, -, -, htruthful⟩ := hloop.truthful hb hp
    rcases htruthful r hr with ⟨hacq, -⟩ | ⟨-, hnot, -⟩
    · exact hacq
    · rw [hcreate] at hnot
      cases hnot

/-- A process with one request waits on, or the request is answered and gives it the lock
    that it asked for. -/
theorem Settles.of_one (h : Settles b b' answered q) {t : Ticket}
    (hwaits : b.forest.waits q = {t}) :
    (b'.forest.waits q = {t} ∧ b'.forest.holdings q = b.forest.holdings q ∧
      ∀ r ∈ answered, r.requester ≠ q) ∨
    ∃ r ∈ answered, r.requester = q ∧ r.ticket = t ∧ (∀ r' ∈ answered, r'.requester = q → r' = r) ∧
      b'.forest.waits q = 0 ∧ b'.forest.holdings q = b.forest.holdings q +
        if r.acquireStatus = .acquired then {(r.path, r.mode)} else 0 := by
  have hqueue := h _ (Weights.waitsOf_concerns q)
  rw [show b.forest.weigh (.waitsOf q) = {t} from hwaits, Weights.waitsOf_gained, add_zero,
    Weights.spent_waitsOf] at hqueue
  change {t} = b'.forest.waits q + _ at hqueue
  have hheld := h _ (Weights.heldBy_concerns q)
  rw [Weights.heldBy_spent, add_zero] at hheld
  change b.forest.holdings q + _ = b'.forest.holdings q at hheld
  have hcard := congrArg Multiset.card hqueue
  rw [Multiset.card_singleton, Multiset.card_add, Multiset.card_map] at hcard
  by_cases hnone : (answered.filter fun r => r.requester = q).card = 0
  · have hempty := Finset.card_eq_zero.mp hnone
    have hnot : ∀ r ∈ answered, r.requester ≠ q := by
      intro r hr hreq
      have hmem : r ∈ answered.filter fun r => r.requester = q := Finset.mem_filter.mpr ⟨hr, hreq⟩
      rw [hempty] at hmem
      exact Finset.notMem_empty r hmem
    rw [hempty, Finset.empty_val, Multiset.map_zero, add_zero] at hqueue
    rw [Weights.gained_heldBy_of_notMem hnot, add_zero] at hheld
    exact .inl ⟨hqueue.symm, hheld.symm, hnot⟩
  · obtain ⟨r, hr⟩ := Finset.card_eq_one.mp
      (show (answered.filter fun r => r.requester = q).card = 1 by
        rw [Finset.card_def] at hnone ⊢
        omega)
    have hmem : r ∈ answered ∧ r.requester = q :=
      Finset.mem_filter.mp (hr ▸ Finset.mem_singleton_self r)
    have honly : ∀ r' ∈ answered, r'.requester = q → r' = r := by
      intro r' hr' hreq'
      have : r' ∈ answered.filter fun r => r.requester = q := Finset.mem_filter.mpr ⟨hr', hreq'⟩
      rw [hr] at this
      exact Finset.mem_singleton.mp this
    have hzero : b'.forest.waits q = 0 := by
      apply Multiset.card_eq_zero.mp
      rw [← Finset.card_def, hr, Finset.card_singleton] at hcard
      omega
    rw [hr, hzero, zero_add, Finset.singleton_val, Multiset.map_singleton] at hqueue
    rw [Weights.gained_heldBy_of_mem hmem.1 hmem.2 honly] at hheld
    exact .inr ⟨r, hmem.1, hmem.2, (Multiset.singleton_inj.mp hqueue).symm, honly, hzero, hheld.symm⟩

end Backend

end Tclm.Server
