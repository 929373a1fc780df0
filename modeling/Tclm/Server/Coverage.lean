/-
  Tclm.Server.Coverage

  Intent locks cover what is below them.

  `needs m C` are the intent holders that a collection of claims requires of every
  lock above it.  A tree is `Covered` when each lock's intent holders include what
  the claims strictly below it need.  Every operation keeps this, and in a covered
  tree `release` finds every intent lock it erases, so it cannot run into
  `erase(end())`.

  The proofs do not depend on how intent holders and claims are compared: an
  `IntentRule` lists what is needed of the comparison, and `pending` names the
  requests whose claims can get lost in a call of `release`.
-/

import Tclm.Server.Ledger

namespace Tclm.Server

-- ============================================================================
-- Claims
-- ============================================================================

/-- Every held lock and every waiting request counts as its claim. -/
def Weights.claims : Weights (Multiset Claim) := ⟨fun c => {c}, fun t => {t.claim}⟩

theorem LockState.weigh_claims (π : LockPath) (s : LockState) :
    s.weigh .claims π = s.held π + ↑(s.lockRequests.map LockRequest.claim) := by
  have hheld : ((s.held π).map Weights.claims.held).sum = s.held π :=
    Multiset.sum_map_singleton _
  have hqueue : ∀ queue : List LockRequest,
      LockState.weighQueue .claims queue = ↑(queue.map LockRequest.claim) := by
    intro queue
    induction queue with
    | nil => rfl
    | cons r queue ih =>
        rw [List.map_cons, ← Multiset.cons_coe, ← ih, ← Multiset.singleton_add]
        rfl
  rw [weigh, hheld, hqueue]

namespace Lock

/-- The claims of the requests that were answered with `NON_EXISTENT`. -/
def lost (as : List LockRequest) : Multiset Claim :=
  ↑((as.filter fun r => r.acquireStatus = .nonExistent).map LockRequest.claim)

theorem lost_append (as as' : List LockRequest) : lost (as ++ as') = lost as + lost as' := by
  simp [lost]

theorem entry_claims {ret : AcquireStatus} {r : LockRequest} (h : ret ≠ .nonExistent) :
    entry .claims ret r = {r.claim} := by
  cases ret with
  | acquired => rfl
  | queued => rfl
  | nonExistent => exact absurd rfl h

/-- The loop answers requests with a final status. -/
theorem Wakes.status {l l' : Lock} {as : List LockRequest} (h : Wakes l l' as) :
    ∀ r ∈ as, r.acquireStatus ≠ .queued := by
  induction h with
  | done => intro r hr; cases hr
  | answered _ hacq hret _ ih =>
      intro x hx
      rcases List.mem_cons.mp hx with rfl | hx
      · rw [hacq.status_eq]
        exact hret
      · exact ih x hx
  | advanced _ _ _ _ ih => exact ih
  | stopped => intro r hr; cases hr

theorem Releases.status {p : ProcessRef} {mode : UInt8} {path : LockPath} {l l' : Lock}
    {ret : ReleaseStatus} {as : List LockRequest} (h : Releases p mode path l ret l' as) :
    ∀ r ∈ as, r.acquireStatus ≠ .queued := by
  induction h with
  | unlocked _ hwake => exact hwake.status
  | descended _ _ _ _ hwake ih =>
      intro x hx
      rcases List.mem_append.mp hx with hx | hx
      · exact ih x hx
      · exact hwake.status x hx
  | cancelled | notHeld => intro r hr; cases hr

/-- Answered requests were granted or are lost. -/
theorem spent_claims {as : List LockRequest} (h : ∀ r ∈ as, r.acquireStatus ≠ .queued) :
    spent .claims as = gained .claims as + lost as := by
  induction as with
  | nil => rfl
  | cons r as ih =>
      have hrest := ih fun x hx => h x (List.mem_cons_of_mem _ hx)
      rw [spent_cons, hrest]
      cases hstatus : r.acquireStatus with
      | queued => exact absurd hstatus (h r (List.mem_cons_self ..))
      | acquired =>
          simp [gained, lost, hstatus, Weights.claims, LockRequest.ticket]
      | nonExistent =>
          simp only [gained, lost, hstatus, Weights.claims, LockRequest.ticket, List.filter_cons,
            reduceCtorEq, decide_false, decide_true, if_true, Bool.false_eq_true, if_false,
            List.map_cons, ← Multiset.cons_coe, ← Multiset.singleton_add]
          ac_rfl

section

variable {π : LockPath} {good : LockRequest → Prop}

/-- A successful `release` takes one claim away, besides the claims of requests that
    fail. -/
theorem Releases.claims_eq {p : ProcessRef} {mode : UInt8} {path : LockPath} {l l' : Lock}
    {as : List LockRequest} (h : Releases p mode path l .success l' as)
    (hseats : All (LockState.Seats good) π l) :
    ∃ x, Finds p mode π path l x ∧
      weigh .claims π l = x.claim ::ₘ (weigh .claims π l' + lost as) := by
  obtain ⟨x, hx, hrun⟩ := h.weigh_eq rfl hseats
  refine ⟨x, hx, ?_⟩
  have hweight : x.weight Weights.claims = {x.claim} := by cases x <;> rfl
  have hrun := hrun .claims
  rw [spent_claims h.status, add_comm (gained _ _), ← add_assoc] at hrun
  rw [add_right_cancel hrun, hweight, ← Multiset.singleton_add, add_assoc]

end

end Lock

-- ============================================================================
-- Requests that may fail
-- ============================================================================

/-- The claims of the waiting requests of a lock that may not create locks. -/
def LockState.pending (s : LockState) : Multiset Claim :=
  ↑((s.lockRequests.filter fun r => !r.createMissing).map LockRequest.claim)

theorem LockState.pending_congr {s s' : LockState} (h : s'.lockRequests = s.lockRequests) :
    s'.pending = s.pending := by
  rw [pending, pending, h]

namespace Lock

open NamedTree (node)

/-- The claims of the requests that may not create locks and wait on the path, strictly
    below the root. -/
def pendingBelow : LockPath → Lock → Multiset Claim
  | [], _ => 0
  | c :: rest, l =>
      match l.children.find? fun d => d.name = c with
      | some child => child.val.pending + pendingBelow rest child
      | none => 0

theorem pendingBelow_append_cons {k : LockName} {s : LockState} {pre post : List Lock}
    {child : Lock} {rest : LockPath} (hpre : ∀ d ∈ pre, d.name ≠ child.name) :
    pendingBelow (child.name :: rest) (node k s (pre ++ child :: post)) =
      child.val.pending + pendingBelow rest child := by
  have hfind : (pre ++ child :: post).find? (fun d => decide (d.name = child.name)) = some child :=
    List.find?_append_cons (by simp) (by simpa using hpre)
  simp only [pendingBelow, NamedTree.children_node, hfind]

/-- The loop loses claims of its own queue only. -/
theorem Wakes.lost_le {l l' : Lock} {as : List LockRequest} (h : Wakes l l' as) :
    lost as ≤ l.val.pending := by
  induction h with
  | done | stopped => exact Multiset.zero_le _
  | @answered l l₁ l' r r' queue ret as hq hacq hret _ ih =>
      have hstatus := hacq.status_eq
      have htail : (l₁.setRequests queue).val.pending ≤ l.val.pending := by
        rw [LockState.pending, LockState.pending, hq]
        exact Multiset.coe_le.mpr
          ((((List.sublist_cons_self r queue).filter _).map _).subperm)
      cases ret with
      | acquired =>
          have hlost : lost (r' :: as) = lost as := by simp [lost, hstatus]
          rw [hlost]
          exact ih.trans htail
      | queued => exact absurd rfl hret
      | nonExistent =>
          have hcreate := hacq.createMissing_eq_false rfl
          have hlost : lost (r' :: as) = r.claim ::ₘ lost as := by
            simp [lost, hstatus, hacq.same.claim_eq]
          have hpending : l.val.pending = r.claim ::ₘ (l₁.setRequests queue).val.pending := by
            simp [LockState.pending, hq, hcreate]
          rw [hlost, hpending]
          exact Multiset.cons_le_cons _ ih
  | @advanced l l₁ l' r r' queue as hq _ _ _ ih =>
      refine ih.trans ?_
      rw [LockState.pending, LockState.pending, hq]
      exact Multiset.coe_le.mpr ((((List.sublist_cons_self r queue).filter _).map _).subperm)

/-- A call of `release` loses claims of requests that waited on the path only. -/
theorem Releases.lost_le {p : ProcessRef} {mode : UInt8} {path : LockPath} {l l' : Lock}
    {ret : ReleaseStatus} {as : List LockRequest} (h : Releases p mode path l ret l' as) :
    lost as ≤ l.val.pending + pendingBelow path l := by
  induction h with
  | @unlocked k s s' cs l' as hunlock hwake =>
      have hs : s'.pending = s.pending :=
        LockState.pending_congr (LockState.frame_of_tryUnlock hunlock).2
      have hlost : lost as ≤ s'.pending := hwake.lost_le
      rw [hs] at hlost
      exact hlost.trans (Multiset.le_add_right _ _)
  | @descended c rest k s s' pre child post child' l' as as' hname hpre hbelow herase hwake ih =>
      subst hname
      have hs : s'.pending = s.pending :=
        LockState.pending_congr (LockState.lockRequests_of_eraseIntent herase)
      have hlost : lost as' ≤ s'.pending := hwake.lost_le
      rw [hs] at hlost
      rw [lost_append, pendingBelow_append_cons hpre, add_comm]
      exact add_le_add hlost ih
  | cancelled | notHeld => exact Multiset.zero_le _

end Lock

-- ============================================================================
-- What claims require of the locks above
-- ============================================================================

/-- The intent holders for mode `m` that a collection of claims requires. -/
def needs (m : Mode) (C : Multiset Claim) : Multiset ProcessRef :=
  (C.filter fun c => c.mode = m.toByte).map Claim.process

theorem needs_add (m : Mode) (C D : Multiset Claim) : needs m (C + D) = needs m C + needs m D := by
  simp [needs]

theorem needs_cons_of_eq {m : Mode} {c : Claim} (C : Multiset Claim) (h : c.mode = m.toByte) :
    needs m (c ::ₘ C) = c.process ::ₘ needs m C := by
  simp [needs, h]

theorem needs_cons_of_ne {m : Mode} {c : Claim} (C : Multiset Claim) (h : c.mode ≠ m.toByte) :
    needs m (c ::ₘ C) = needs m C := by
  simp [needs, h]

theorem needs_le_needs {m : Mode} {C D : Multiset Claim} (h : C ≤ D) : needs m C ≤ needs m D :=
  Multiset.map_le_map (Multiset.filter_le_filter _ h)

theorem mem_needs {m : Mode} {C : Multiset Claim} {p : ProcessRef} :
    p ∈ needs m C ↔ ∃ c ∈ C, c.mode = m.toByte ∧ c.process = p := by
  simp [needs, and_assoc]

namespace LockState

variable {s s' : LockState} {C D : Multiset Claim} {c : Claim}

/-- The intent holders of a lock include what the claims need. -/
def Covers (s : LockState) (C : Multiset Claim) : Prop := ∀ m, needs m C ≤ s.intents m

theorem Covers.mono (h : s.Covers C) (hle : D ≤ C) : s.Covers D :=
  fun m => (needs_le_needs hle).trans (h m)

/-- An intent lock taken covers one more claim. -/
theorem Covers.intend {r : LockRequest} (h : s.Covers C) (hintent : s.tryIntent r = some s') :
    s'.Covers (r.claim ::ₘ C) := by
  intro m
  rcases tryIntent_eq_some hintent with ⟨m', hm', -, rfl⟩ | ⟨hm', rfl⟩
  · by_cases hm : m = m'
    · subst hm
      rw [needs_cons_of_eq C hm', intents_setIntents]
      exact Multiset.cons_le_cons _ (h m)
    · have hne : r.claim.mode ≠ m.toByte := by
        intro heq
        exact hm (Mode.toByte_injective (hm'.symm.trans heq)).symm
      rw [needs_cons_of_ne C hne, intents_setIntents_ne hm]
      exact h m
  · have hne : r.claim.mode ≠ m.toByte := by
      intro heq
      rw [show r.mode = m.toByte from heq, Mode.ofByte_toByte] at hm'
      cases hm'
    rw [needs_cons_of_ne C hne]
    exact h m

/-- The intent lock of a covered claim can be given up ... -/
theorem Covers.eraseIntent_ok (h : s.Covers (c ::ₘ C)) :
    ∃ s', s.eraseIntent c.process c.mode = .ok s' := by
  cases hm : Mode.ofByte c.mode with
  | none => exact ⟨s, by simp [eraseIntent, hm]⟩
  | some m =>
      have hmem : c.process ∈ s.intents m := by
        refine Multiset.mem_of_le (h m) ?_
        rw [needs_cons_of_eq C (Mode.ofByte_eq_some.mp hm)]
        exact Multiset.mem_cons_self ..
      exact ⟨_, by simp only [eraseIntent, hm]; exact if_pos hmem⟩

/-- ... and the other claims stay covered. -/
theorem Covers.erase (h : s.Covers (c ::ₘ C)) (herase : s.eraseIntent c.process c.mode = .ok s') :
    s'.Covers C := by
  intro m
  rcases eraseIntent_eq_ok herase with ⟨m', hm', -, rfl⟩ | ⟨-, rfl⟩
  · by_cases hm : m = m'
    · subst hm
      have hcov := h m
      rw [needs_cons_of_eq C hm'] at hcov
      rw [intents_setIntents, ← Multiset.erase_cons_head c.process (needs m C)]
      exact Multiset.erase_le_erase _ hcov
    · rw [intents_setIntents_ne hm]
      exact (needs_le_needs (Multiset.le_cons_self _ _)).trans (h m)
  · exact (needs_le_needs (Multiset.le_cons_self _ _)).trans (h m)

end LockState

-- ============================================================================
-- Accounts of intent locks
-- ============================================================================

/-- A way to compare the intent holders of a lock with the claims strictly below it, kept
    by whatever the operations do.  The claims in `lose` may vanish from below while
    nothing happens to the intent locks. -/
structure IntentRule (lose : Claim → Prop) (R : LockState → Multiset Claim → Prop) : Prop where
  fresh : R {} 0
  congr : ∀ {s s' C}, (∀ m, s'.intents m = s.intents m) → R s C → R s' C
  intend : ∀ {s s' C} {r : LockRequest}, s.tryIntent r = some s' → R s C → R s' (r.claim ::ₘ C)
  erase : ∀ {s s' C} {c : Claim}, s.eraseIntent c.process c.mode = .ok s' → R s (c ::ₘ C) → R s' C
  forget : ∀ {s C D}, (∀ c ∈ D, lose c) → R s (C + D) → R s C

/-- Coverage does not depend on claims that vanish. -/
theorem covers_rule : IntentRule (fun _ => True) LockState.Covers where
  fresh _ := Multiset.zero_le _
  congr hintents h m := by
    rw [hintents m]
    exact h m
  intend hintent h := h.intend hintent
  erase herase h := h.erase herase
  forget _ h := h.mono (Multiset.le_add_right _ _)

namespace Lock

open NamedTree (node Forall)

/-- Every lock in the tree is related to the claims strictly below it. -/
def Accounted (R : LockState → Multiset Claim → Prop) (π : LockPath) (l : Lock) : Prop :=
  l.Forall (fun ρ n => R n.val (weighBelow .claims ρ n)) π

/-- Every lock in the tree covers the claims strictly below it. -/
def Covered (π : LockPath) (l : Lock) : Prop := Accounted LockState.Covers π l

section

variable {R : LockState → Multiset Claim → Prop} {lose : Claim → Prop} {π : LockPath}
  {k : LockName} {s s' : LockState}

theorem Accounted.root {l : Lock} (h : Accounted R π l) : R l.val (weighBelow .claims π l) :=
  Forall.root h

theorem accounted_node {cs : List Lock} :
    Accounted R π (node k s cs) ↔
      R s (weighBelow .claims π (node k s cs)) ∧ ∀ c ∈ cs, Accounted R (π ++ [c.name]) c :=
  NamedTree.forall_iff

theorem accounted_append_cons {pre post : List Lock} {c : Lock} :
    Accounted R π (node k s (pre ++ c :: post)) ↔
      R s (weigh .claims (π ++ [c.name]) c + weighBelow .claims π (node k s (pre ++ post))) ∧
        (∀ d ∈ pre ++ post, Accounted R (π ++ [d.name]) d) ∧ Accounted R (π ++ [c.name]) c := by
  rw [← weighBelow_append_cons]
  exact NamedTree.forall_node_append_cons

theorem accounted_new (rule : IntentRule lose R) (π : LockPath) (k : LockName) :
    Accounted R π (new k) := by
  refine accounted_node.mpr ⟨?_, fun _ hc => by cases hc⟩
  have hnone : weighBelow .claims π (new k) = 0 := by
    simp [weighBelow, new, NamedTree.sumBelow_eq]
  rw [show node k {} [] = new k from rfl, hnone]
  exact rule.fresh

/-- Holders and queue of the root do not matter. -/
theorem Accounted.of_intents_eq {cs : List Lock} (rule : IntentRule lose R)
    (h : Accounted R π (node k s cs)) (hintents : ∀ m, s'.intents m = s.intents m) :
    Accounted R π (node k s' cs) := by
  obtain ⟨hs, hcs⟩ := accounted_node.mp h
  refine accounted_node.mpr ⟨?_, hcs⟩
  rw [weighBelow_node]
  exact rule.congr hintents hs

theorem Accounted.setRequests {l : Lock} (rule : IntentRule lose R) (h : Accounted R π l)
    (queue : List LockRequest) : Accounted R π (l.setRequests queue) := by
  cases l with
  | node k s cs => exact h.of_intents_eq rule fun m => by cases m <;> rfl

/-- `acquire` takes an intent lock on the whole way to where the request ends up. -/
theorem Acquires.accounted {rest π : LockPath} {l l' : Lock} {r r' : LockRequest} {ins : Bool}
    {ret : AcquireStatus} (h : Acquires rest l r ins ret l' r') (rule : IntentRule lose R)
    (hat : r.At π rest) (hl : Accounted R π l) : Accounted R π l' := by
  induction h generalizing π with
  | granted hlock =>
      obtain ⟨m, -, -, rfl⟩ := LockState.tryLock_eq_some hlock
      exact hl.of_intents_eq rule fun _ => LockState.intents_addLocker
  | @refused k s cs r ins | @blocked c rest k s cs r ins =>
      refine hl.of_intents_eq rule fun m => ?_
      cases ins <;> cases m <;> rfl
  | @descended c rest k s s' pre child post r ins ret child' r' hintent hname _ hret hbelow ih =>
      subst hname
      obtain ⟨hs, hrest, hchild⟩ := accounted_append_cons.mp hl
      have hweigh := hbelow.weigh_eq (w := .claims) hat.advance (Or.inl rfl)
      rw [entry_claims hret, Multiset.singleton_add] at hweigh
      have hchild' := ih hat.advance hchild
      rw [← hbelow.name_eq] at hchild'
      refine accounted_append_cons.mpr ⟨?_, hrest, hchild'⟩
      rw [hbelow.name_eq, hweigh, Multiset.cons_add, weighBelow_node]
      exact rule.intend hintent hs
  | failed => exact hl
  | @created c rest k s s' cs r ins ret child' r' hintent _ _ hret hbelow ih =>
      obtain ⟨hs, hcs⟩ := accounted_node.mp hl
      have hweigh := hbelow.weigh_eq (w := .claims) hat.markCreated.advance (Or.inl rfl)
      rw [entry_claims hret, weigh_new, add_zero] at hweigh
      have hname : child'.name = c := hbelow.name_eq
      have hchild' := ih hat.markCreated.advance (accounted_new rule _ c)
      rw [← hname] at hchild'
      refine accounted_append_cons.mpr ⟨?_, by simpa using hcs, hchild'⟩
      rw [hname, hweigh, Multiset.singleton_add, List.append_nil, weighBelow_node]
      exact rule.intend hintent hs
  | missing => exact hl

/-- A request that fails in the loop waits at the root, so nothing strictly below a lock
    is lost. -/
theorem Wakes.accounted {good : LockRequest → Prop} {l l' : Lock} {as : List LockRequest}
    (h : Wakes l l' as) (rule : IntentRule lose R) (hseats : l.val.Seats good π)
    (hl : Accounted R π l) : Accounted R π l' := by
  induction h with
  | done => exact hl
  | answered hq hacq _ _ ih | advanced hq hacq _ _ ih =>
      obtain ⟨hat, -, -⟩ := hseats _ (by rw [hq]; exact List.mem_cons_self ..)
      exact ih (seats_turn hseats hq) ((hacq.accounted rule hat hl).setRequests rule _)
  | stopped => exact hl.setRequests rule _

/-- After a release below, the intent lock of the released claim is free to go. -/
theorem accounts_of_released {good : LockRequest → Prop} {p : ProcessRef} {mode : UInt8}
    {rest : LockPath} {child child' : Lock} {as : List LockRequest} {C : Multiset Claim}
    (rule : IntentRule lose R) (hbelow : Releases p mode rest child .success child' as)
    (hlost : ∀ c ∈ lost as, lose c) (hseats : All (LockState.Seats good) π child)
    (hs : R s (weigh .claims π child + C)) :
    ∃ c : Claim, c.process = p ∧ c.mode = mode ∧ R s (c ::ₘ (weigh .claims π child' + C)) := by
  obtain ⟨x, hx, hclaims⟩ := hbelow.claims_eq hseats
  refine ⟨x.claim, hx.process_eq, hx.mode_eq, rule.forget hlost ?_⟩
  rw [hclaims, Multiset.cons_add, add_right_comm] at hs
  rwa [Multiset.cons_add]

/-- `release` keeps the account, if the requests that fail below the root may be lost. -/
theorem Releases.accounted {path : LockPath} {good : LockRequest → Prop} {p : ProcessRef}
    {mode : UInt8} {l l' : Lock} {ret : ReleaseStatus} {as : List LockRequest}
    (h : Releases p mode path l ret l' as) (rule : IntentRule lose R)
    (hlost : ∀ c ∈ lost as, c ∈ pendingBelow path l → lose c)
    (hseats : All (LockState.Seats good) π l) (hl : Accounted R π l) : Accounted R π l' := by
  induction h generalizing π with
  | @unlocked k s s' cs l' as hunlock hwake =>
      obtain ⟨hintents, hqueue⟩ := LockState.frame_of_tryUnlock hunlock
      have hseats' := hseats.root.congr hqueue
      exact hwake.accounted rule hseats' (hl.of_intents_eq rule hintents)
  | @descended c rest k s s' pre child post child' l' as as' hname hpre hbelow herase hwake ih =>
      subst hname
      rw [lost_append, pendingBelow_append_cons hpre] at hlost
      have hchildLost : ∀ c ∈ lost as, lose c := fun c hc =>
        hlost c (Multiset.mem_add.mpr (Or.inl hc)) (Multiset.mem_of_le hbelow.lost_le hc)
      obtain ⟨hs, hrest, hchild⟩ := accounted_append_cons.mp hl
      obtain ⟨hseat, -, hseatc⟩ := all_append_cons.mp hseats
      obtain ⟨c, rfl, rfl, hreleased⟩ := accounts_of_released rule hbelow hchildLost hseatc hs
      have hchild' := ih (fun c hc _ => hchildLost c hc) hseatc hchild
      rw [← hbelow.name_eq] at hchild'
      have hseats' := hseat.congr (LockState.lockRequests_of_eraseIntent herase)
      refine hwake.accounted rule hseats' (accounted_append_cons.mpr ⟨?_, hrest, hchild'⟩)
      rw [hbelow.name_eq, weighBelow_node]
      exact rule.erase herase hreleased
  | @cancelled path k s s' cs _ hcancel =>
      obtain ⟨pre, r, post, -, -, -, rfl, -⟩ := LockState.cancel_eq_some hcancel
      exact hl.of_intents_eq rule fun m => by cases m <;> rfl
  | notHeld => exact hl

end

/-- In a covered tree `release` returns: every intent lock it erases is there. -/
theorem release_total {path π : LockPath} {good : LockRequest → Prop} (p : ProcessRef)
    (mode : UInt8) {l : Lock} (hseats : All (LockState.Seats good) π l) (hl : Covered π l) :
    ∃ ret l' answered, release p mode path l = .ok (ret, l', answered) := by
  induction path generalizing l π with
  | nil =>
      cases l with
      | node k s cs =>
          cases hunlock : s.tryUnlock p mode with
          | some s' =>
              obtain ⟨l', as, hrun, -⟩ := wakeRequests_spec (node k s' cs) ∅
              exact ⟨_, _, _, by simp only [release, hunlock]; exact hrun⟩
          | none => exact ⟨_, _, _, by simp only [release, hunlock]; rfl⟩
  | cons c rest ih =>
      cases l with
      | node k s cs =>
          cases hsplit : splitChild c cs with
          | none => exact ⟨_, _, _, by simp only [release, hsplit]; rfl⟩
          | some split =>
              obtain ⟨pre, child, post⟩ := split
              obtain ⟨rfl, -, -⟩ := List.splitFirst_eq_some hsplit
              obtain ⟨hs, -, hchild⟩ := accounted_append_cons.mp hl
              obtain ⟨-, -, hseatc⟩ := all_append_cons.mp hseats
              obtain ⟨ret, child', answered, hrun⟩ := ih hseatc hchild
              cases ret with
              | notHeld =>
                  exact ⟨_, _, _, by simp only [release, hsplit, hrun]; rfl⟩
              | success =>
                  obtain ⟨as, -, hbelow⟩ := releases_of_ok hrun
                  obtain ⟨c', rfl, rfl, hcovers⟩ :=
                    accounts_of_released covers_rule hbelow (fun _ _ => trivial) hseatc hs
                  obtain ⟨s', herase⟩ := hcovers.eraseIntent_ok
                  obtain ⟨l', as', hwake, -⟩ :=
                    wakeRequests_spec (node k s' (pre ++ child' :: post)) answered
                  refine ⟨.success, l', answered ∪ as'.toFinset, ?_⟩
                  simp only [release, hsplit, hrun, herase, bind, Except.bind, if_true]
                  exact hwake

end Lock

end Tclm.Server
