/-
  Tclm.Server.Draining

  The loop `while (lock_requests.size () > 0)` of `Lock::release`, seen as a queue.

  The loop takes requests from the front of the queue.  Each of them is answered or goes
  to the end of the queue of one lock further down (`Fate`); no other queue changes.
  When the loop ends the rest of the queue is as it was, and its first request is
  blocked.  This holds for every lock, so at every point at which `release` comes to
  the loop.
-/

import Tclm.Server.Placement

namespace Tclm.Server

namespace LockState

/-- Whether a request is blocked does not depend on the queue. -/
theorem Blocks.setRequests {s : LockState} {r : LockRequest} (h : s.Blocks r)
    (queue : List LockRequest) : Blocks { s with lockRequests := queue } r := by
  rw [Blocks] at h ⊢
  cases hrest : r.remaining with
  | nil =>
      rw [hrest] at h
      have hlock : s.tryLock r = none := h
      show tryLock { s with lockRequests := queue } r = none
      unfold tryLock at hlock ⊢
      cases hm : Mode.ofByte r.mode with
      | none => rfl
      | some m =>
          simp only [hm] at hlock
          have hmay : ¬ s.MayLock r.requester m := fun hmay => by simp [hmay] at hlock
          have hsame : LockState.MayLock { s with lockRequests := queue } r.requester m =
              s.MayLock r.requester m := by
            cases m <;> rfl
          exact if_neg (hsame ▸ hmay)
  | cons c rest =>
      rw [hrest] at h
      have hintent : s.tryIntent r = none := h
      show tryIntent { s with lockRequests := queue } r = none
      unfold tryIntent at hintent ⊢
      cases hm : Mode.ofByte r.mode with
      | none =>
          simp only [hm] at hintent
          cases hintent
      | some m =>
          simp only [hm] at hintent
          have hmay : ¬ s.MayIntend r.requester m := fun hmay => by simp [hmay] at hintent
          have hsame : LockState.MayIntend { s with lockRequests := queue } r.requester m =
              s.MayIntend r.requester m := by
            cases m <;> rfl
          exact if_neg (hsame ▸ hmay)

end LockState

namespace Lock

open NamedTree (node find)

-- ============================================================================
-- The queues below a lock
-- ============================================================================

/-- The queue at an address, the empty one where there is no lock. -/
def queueAt (ρ : LockPath) (l : Lock) : List LockRequest :=
  ((find ρ l).map fun n => n.val.lockRequests).getD []

theorem mem_queueAt {ρ : LockPath} {l : Lock} {x : LockRequest} :
    x ∈ queueAt ρ l ↔ ∃ n, find ρ l = some n ∧ x ∈ n.val.lockRequests := by
  rw [queueAt]
  cases find ρ l with
  | none => simp
  | some n => simp

theorem queueAt_append_cons {ρ : LockPath} {k : LockName} {s : LockState} {pre post : List Lock}
    {child : Lock} (hpre : ∀ d ∈ pre, d.name ≠ child.name) :
    queueAt (child.name :: ρ) (node k s (pre ++ child :: post)) = queueAt ρ child := by
  rw [queueAt, queueAt, NamedTree.find_node_append_cons hpre]

/-- A new lock has an empty queue, and so has what is not there. -/
theorem queueAt_insert {ρ : LockPath} {k c : LockName} {s : LockState} {cs : List Lock}
    (hnone : ∀ d ∈ cs, d.name ≠ c) :
    queueAt ρ (node k s (cs ++ [new c])) = queueAt ρ (node k s cs) := by
  cases ρ with
  | nil => rfl
  | cons b ρ =>
      by_cases hb : b = c
      · subst hb
        have hnew : queueAt (b :: ρ) (node k s (cs ++ [new b])) = queueAt ρ (new b) :=
          @queueAt_append_cons ρ k s cs [] (new b) hnone
        rw [hnew, queueAt, queueAt, NamedTree.find_node_eq_none hnone]
        cases ρ with
        | nil => rfl
        | cons d ρ => rw [new, NamedTree.find_node_eq_none (fun _ h => by cases h)]
      · rw [queueAt, NamedTree.find_node_insert_ne (c := new c) hb, List.append_nil]
        rfl

/-- One child changes: what is appended to the queues below it. -/
theorem queueAt_replace {k : LockName} {s s' : LockState} {pre post : List Lock}
    {child child' : Lock} {f : LockPath → List LockRequest} (hname : child'.name = child.name)
    (hpre : ∀ d ∈ pre, d.name ≠ child.name) (hqueue : s'.lockRequests = s.lockRequests)
    (h : ∀ ρ, queueAt ρ child' = queueAt ρ child ++ f ρ) (ρ : LockPath) :
    queueAt ρ (node k s' (pre ++ child' :: post)) =
      queueAt ρ (node k s (pre ++ child :: post)) ++
        (match ρ with | [] => [] | b :: σ => if b = child.name then f σ else []) := by
  cases ρ with
  | nil =>
      rw [List.append_nil]
      exact hqueue
  | cons b σ =>
      by_cases hb : b = child.name
      · subst hb
        have hafter : queueAt (child.name :: σ) (node k s' (pre ++ child' :: post)) =
            queueAt σ child' := by
          rw [← hname]
          exact queueAt_append_cons (by rwa [hname])
        rw [hafter, queueAt_append_cons hpre, h σ]
        simp
      · have hsame : find (b :: σ) (node k s' (pre ++ child' :: post)) =
            find (b :: σ) (node k s (pre ++ child :: post)) :=
          NamedTree.find_node_append_cons_ne hname hb
        rw [queueAt, hsame]
        simp [hb, queueAt]

/-- The request `r'` goes to the end of the queue at `σ`, unless that is the lock itself and
    `insert_in_current_queue` is not set. -/
def LinesUp (ins : Bool) (r' : LockRequest) (σ : LockPath) (l l' : Lock) : Prop :=
  ∀ ρ, queueAt ρ l' = queueAt ρ l ++ if ρ = σ ∧ (σ = [] → ins = true) then [r'] else []

theorem linesUp_enqueue {k : LockName} {s : LockState} {cs : List Lock} (r : LockRequest)
    (ins : Bool) :
    LinesUp ins (r.withStatus .queued) [] (node k s cs) (node k (s.enqueue r ins) cs) := by
  intro ρ
  cases ρ with
  | nil => cases ins <;> simp [queueAt, LockState.enqueue]
  | cons b ρ =>
      rw [if_neg fun h => List.cons_ne_nil _ _ h.1, List.append_nil]
      rfl

/-- Queueing below a child is queueing below the lock. -/
theorem LinesUp.replace {k : LockName} {s s' : LockState} {pre post : List Lock}
    {child child' : Lock} {ins : Bool} {r' : LockRequest} {σ : LockPath}
    (h : LinesUp true r' σ child child') (hname : child'.name = child.name)
    (hpre : ∀ d ∈ pre, d.name ≠ child.name) (hqueue : s'.lockRequests = s.lockRequests) :
    LinesUp ins r' (child.name :: σ) (node k s (pre ++ child :: post))
      (node k s' (pre ++ child' :: post)) := by
  intro ρ
  rw [queueAt_replace hname hpre hqueue h]
  cases ρ with
  | nil => simp
  | cons b ρ =>
      by_cases hb : b = child.name
      · simp [hb]
      · simp [hb]

/-- What a call of `acquire` does to the queues: a queued request goes to the end of one queue on
    its path, and other calls leave all queues alone. -/
theorem Acquires.queues {rest : LockPath} {l l' : Lock} {r r' : LockRequest} {ins : Bool}
    {ret : AcquireStatus} (h : Acquires rest l r ins ret l' r') :
    (ret ≠ .queued → ∀ ρ, queueAt ρ l' = queueAt ρ l) ∧
    (ret = .queued → ∃ σ, σ <+: rest ∧ r'.currentLevel = r.currentLevel + σ.length ∧
      LinesUp ins r' σ l l') := by
  induction h with
  | @granted k s s' cs r ins hlock =>
      refine ⟨fun _ ρ => ?_, nofun⟩
      cases ρ with
      | nil => exact LockState.lockRequests_of_tryLock hlock
      | cons b ρ => rfl
  | refused | blocked =>
      exact ⟨fun hne => absurd rfl hne, fun _ => ⟨[], List.nil_prefix, rfl, linesUp_enqueue _ _⟩⟩
  | failed | missing => exact ⟨fun _ _ => rfl, nofun⟩
  | @descended c rest k s s' pre child post r ins ret child' r' hintent hname hpre _ hbelow ih =>
      subst hname
      have hqueue := LockState.lockRequests_of_tryIntent hintent
      refine ⟨fun hne ρ => ?_, fun hret => ?_⟩
      · have hsame : ∀ ρ, queueAt ρ child' = queueAt ρ child ++ [] := fun ρ => by
          rw [ih.1 hne ρ, List.append_nil]
        rw [queueAt_replace hbelow.name_eq hpre hqueue hsame]
        cases ρ <;> simp
      · obtain ⟨σ, hσ, hlevel, hqueues⟩ := ih.2 hret
        refine ⟨child.name :: σ, List.cons_prefix_cons.mpr ⟨rfl, hσ⟩, ?_,
          hqueues.replace hbelow.name_eq hpre hqueue⟩
        have hadvance : r.advance.currentLevel = r.currentLevel + 1 := rfl
        rw [List.length_cons]
        omega
  | @created c rest k s s' cs r ins ret child' r' hintent hnone _ _ hbelow ih =>
      have hqueue := LockState.lockRequests_of_tryIntent hintent
      have hname : child'.name = (new c).name := hbelow.name_eq
      refine ⟨fun hne ρ => ?_, fun hret => ?_⟩
      · have hsame : ∀ ρ, queueAt ρ child' = queueAt ρ (new c) ++ [] := fun ρ => by
          rw [ih.1 hne ρ, List.append_nil]
        rw [queueAt_replace hname hnone hqueue hsame, queueAt_insert hnone]
        cases ρ <;> simp
      · obtain ⟨σ, hσ, hlevel, hqueues⟩ := ih.2 hret
        refine ⟨c :: σ, List.cons_prefix_cons.mpr ⟨rfl, hσ⟩, ?_, fun ρ => ?_⟩
        · have hadvance : r.markCreated.advance.currentLevel = r.currentLevel + 1 := rfl
          rw [List.length_cons]
          omega
        · rw [← queueAt_insert hnone]
          exact hqueues.replace hname hnone hqueue ρ

-- ============================================================================
-- The loop
-- ============================================================================

/-- What becomes of a request that the loop takes out of the queue. -/
inductive Fate where
  /-- It is answered. -/
  | answered (r' : LockRequest)
  /-- It goes on to the lock at this address and waits there. -/
  | moved (σ : LockPath) (r' : LockRequest)

namespace Fate

/-- The fate is one that the request may have. -/
def Of (r : LockRequest) : Fate → Prop
  | .answered r' => SameRequest r r' ∧ r'.acquireStatus ≠ .queued
  | .moved σ r' => SameRequest r r' ∧ r'.acquireStatus = .queued ∧ σ ≠ [] ∧ σ <+: r.remaining ∧
      r'.currentLevel = r.currentLevel + σ.length

/-- The request as it is answered. -/
def answer? : Fate → Option LockRequest
  | .answered r' => some r'
  | .moved _ _ => none

/-- The request as it comes to the given address. -/
def movedTo (ρ : LockPath) : Fate → Option LockRequest
  | .answered _ => none
  | .moved σ r' => if ρ = σ then some r' else none

end Fate

/-- The loop has turned `l` into `l'`, with these fates of the requests that it has removed. -/
structure Drained (l l' : Lock) (fates : List Fate) : Prop where
  /-- A prefix of the queue is removed; the rest stays in order, up to `acquire_status`. -/
  queue : ∃ removed remaining, l.val.lockRequests = removed ++ remaining ∧
    List.Forall₂ Fate.Of removed fates ∧
    List.Forall₂ (fun r r' => ∃ status, r' = r.withStatus status) remaining l'.val.lockRequests
  /-- Further down, exactly the removed requests that go there are appended. -/
  below : ∀ ρ, ρ ≠ [] → queueAt ρ l' = queueAt ρ l ++ fates.filterMap (Fate.movedTo ρ)
  /-- The first request that is left is blocked. -/
  settled : ∀ r queue, l'.val.lockRequests = r :: queue → l'.val.Blocks r

/-- Every fate is that of a removed request. -/
theorem exists_of_mem_fates {removed : List LockRequest} {fates : List Fate}
    (h : List.Forall₂ Fate.Of removed fates) {fate : Fate} (hmem : fate ∈ fates) :
    ∃ r ∈ removed, fate.Of r := by
  induction h with
  | nil => cases hmem
  | @cons r fate' removed fates hfate _ ih =>
      rcases List.mem_cons.mp hmem with rfl | hmem
      · exact ⟨r, List.mem_cons_self .., hfate⟩
      · obtain ⟨x, hx, hof⟩ := ih hmem
        exact ⟨x, List.mem_cons_of_mem _ hx, hof⟩

/-- A request that moves on waits at a lock further down. -/
theorem Drained.moved {l l' : Lock} {fates : List Fate} (h : Drained l l' fates)
    {σ : LockPath} {r' : LockRequest} (hmem : .moved σ r' ∈ fates) :
    σ ≠ [] ∧ ∃ n, find σ l' = some n ∧ r' ∈ n.val.lockRequests := by
  obtain ⟨removed, remaining, -, hfates, -⟩ := h.queue
  obtain ⟨r, -, -, -, hσ, -⟩ := exists_of_mem_fates hfates hmem
  refine ⟨hσ, ?_⟩
  rw [← mem_queueAt, h.below σ hσ]
  refine List.mem_append_right _ (List.mem_filterMap.mpr ⟨_, hmem, ?_⟩)
  rw [Fate.movedTo, if_pos rfl]

/-- One turn of the loop that removes the first request. -/
theorem Drained.turn {l l₁ l' : Lock} {r : LockRequest} {queue : List LockRequest} {fate : Fate}
    {fates : List Fate} (hq : l.val.lockRequests = r :: queue) (hfate : fate.Of r)
    (hbelow : ∀ ρ, ρ ≠ [] → queueAt ρ l₁ = queueAt ρ l ++ (Fate.movedTo ρ fate).toList)
    (h : Drained (l₁.setRequests queue) l' fates) : Drained l l' (fate :: fates) where
  queue := by
    obtain ⟨removed, remaining, hsplit, hfates, hsame⟩ := h.queue
    have hsplit : queue = removed ++ remaining := hsplit
    exact ⟨r :: removed, remaining, by rw [hq, hsplit]; rfl, .cons hfate hfates, hsame⟩
  below ρ hρ := by
    have hset : queueAt ρ (l₁.setRequests queue) = queueAt ρ l₁ := by
      cases ρ with
      | nil => exact absurd rfl hρ
      | cons b ρ =>
          cases l₁
          rfl
    have hcons : (fate :: fates).filterMap (Fate.movedTo ρ) =
        (Fate.movedTo ρ fate).toList ++ fates.filterMap (Fate.movedTo ρ) := by
      rw [List.filterMap_cons]
      cases Fate.movedTo ρ fate <;> rfl
    rw [h.below ρ hρ, hset, hbelow ρ hρ, hcons, List.append_assoc]
  settled := h.settled

theorem Wakes.drained {l l' : Lock} {as : List LockRequest} (h : Wakes l l' as) :
    ∃ fates, as = fates.filterMap Fate.answer? ∧ Drained l l' fates := by
  induction h with
  | @done l hq =>
      refine ⟨[], rfl, ⟨[], [], by rw [hq]; rfl, .nil, by rw [hq]; exact .nil⟩, fun ρ _ => ?_,
        fun r queue hr => ?_⟩
      · exact (List.append_nil _).symm
      · rw [hq] at hr
        cases hr
  | @answered l l₁ l' r r' queue ret as hq hacq hret _ ih =>
      obtain ⟨fates, rfl, hdrained⟩ := ih
      refine ⟨.answered r' :: fates, rfl, .turn hq ⟨hacq.same, ?_⟩ (fun ρ _ => ?_) hdrained⟩
      · rw [hacq.status_eq]
        exact hret
      · rw [hacq.queues.1 hret ρ]
        exact (List.append_nil _).symm
  | @advanced l l₁ l' r r' queue as hq hacq hlevel _ ih =>
      obtain ⟨fates, rfl, hdrained⟩ := ih
      obtain ⟨σ, hσ, hdepth, hqueues⟩ := hacq.queues.2 rfl
      have hne : σ ≠ [] := by
        rintro rfl
        rw [hdepth] at hlevel
        exact absurd hlevel (Nat.lt_irrefl _)
      refine ⟨.moved σ r' :: fates, rfl,
        .turn hq ⟨hacq.same, hacq.status_eq, hne, hσ, hdepth⟩ (fun ρ _ => ?_) hdrained⟩
      rw [hqueues ρ, Fate.movedTo]
      by_cases hρ : ρ = σ
      · simp [hρ, hne]
      · simp [hρ]
  | @stopped l r queue hq hblocked =>
      have hrest : ∀ queue : List LockRequest,
          List.Forall₂ (fun r r' => ∃ status, r' = r.withStatus status) queue queue := fun queue =>
        List.forall₂_same.mpr fun r _ => ⟨r.acquireStatus, rfl⟩
      refine ⟨[], rfl, ⟨[], r :: queue, hq, .nil, .cons ⟨.queued, rfl⟩ (hrest queue)⟩,
        fun ρ hρ => ?_, fun x queue' hx => ?_⟩
      · rw [List.filterMap_nil, List.append_nil]
        cases ρ with
        | nil => exact absurd rfl hρ
        | cons b ρ =>
            cases l
            rfl
      · cases hx
        exact hblocked.setRequests _

/-- The loop ends after at most as many turns as there are requests.  It removes requests from
    the front; those it answers are added to the answered set, and the others wait at one lock
    further down each. -/
theorem wakeUp_drains (l : Lock) (answered : Finset LockRequest) :
    ∃ l' fates, wakeUp l.val.lockRequests.length l answered =
        .ok (l', answered ∪ (fates.filterMap Fate.answer?).toFinset) ∧
      Drained l l' fates ∧
      ∀ σ r', .moved σ r' ∈ fates → σ ≠ [] ∧ ∃ n, find σ l' = some n ∧ r' ∈ n.val.lockRequests := by
  obtain ⟨l', as, hrun, hwakes⟩ := wakeUp_spec answered (Nat.le_refl l.val.lockRequests.length)
  obtain ⟨fates, rfl, hdrained⟩ := hwakes.drained
  exact ⟨l', fates, hrun, hdrained, fun σ r' hmem => hdrained.moved hmem⟩

end Lock

end Tclm.Server
