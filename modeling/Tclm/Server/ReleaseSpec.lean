/-
  Tclm.Server.ReleaseSpec

  What the wake-up loop and `Lock::release` can do, said once, in the manner of
  `AcquireSpec`.

  `Wakes l l' as` is a run of the loop that turns `l` into `l'` and answers the
  requests `as`, in this order.  `Releases p mode path l ret l' as` is a call of
  `release`: a lock is given up at the target, an intent lock is given up after
  something was released below, a waiting request is cancelled, or nothing of `p`
  in this mode is found on the path.
-/

import Tclm.Server.AcquireSpec

namespace Tclm.Server

namespace LockState

/-- The request cannot make a step at this lock: its mode is not granted here, or
    the intent lock it needs to go on is not. -/
def Blocks (s : LockState) (r : LockRequest) : Prop :=
  match r.remaining with
  | [] => s.tryLock r = none
  | _ :: _ => s.tryIntent r = none

end LockState

namespace Lock

open NamedTree (node)

@[simp] theorem lockRequests_setRequests (l : Lock) (q : List LockRequest) :
    (l.setRequests q).val.lockRequests = q := rfl

-- ============================================================================
-- The wake-up loop
-- ============================================================================

/-- A blocked request stays where it is. -/
theorem acquire_of_blocks {l : Lock} {r : LockRequest} (h : l.val.Blocks r) :
    acquire r.remaining l r false = .ok (.queued, l, r.withStatus .queued) := by
  cases l with
  | node k s cs =>
      rw [NamedTree.val_node, LockState.Blocks] at h
      cases hrest : r.remaining with
      | nil =>
          rw [hrest] at h
          simp [acquire, h, LockState.enqueue]
      | cons c rest =>
          rw [hrest] at h
          simp [acquire, h, LockState.enqueue]

/-- A queued outcome: the request moved down, or it is blocked where it is and
    nothing changed. -/
theorem Acquires.advanced_or_blocked {l l' : Lock} {r r' : LockRequest}
    (h : Acquires r.remaining l r false .queued l' r') :
    r.currentLevel < r'.currentLevel ∨
      (l' = l ∧ r' = r.withStatus .queued ∧ l.val.Blocks r) := by
  generalize hrest : r.remaining = rest at h
  cases h with
  | refused hlock => exact Or.inr ⟨rfl, rfl, by simpa [LockState.Blocks, hrest] using hlock⟩
  | blocked hintent => exact Or.inr ⟨rfl, rfl, by simpa [LockState.Blocks, hrest] using hintent⟩
  | descended _ _ _ _ hbelow | created _ _ _ _ hbelow => exact Or.inl hbelow.level_le

/-- Runs of the loop `while (lock_requests.size() > 0)`. -/
inductive Wakes : Lock → Lock → List LockRequest → Prop where
  | done {l} (hq : l.val.lockRequests = []) : Wakes l l []
  | answered {l l₁ l' r r' queue ret as} (hq : l.val.lockRequests = r :: queue)
      (hacq : Acquires r.remaining l r false ret l₁ r') (hret : ret ≠ .queued)
      (hrest : Wakes (l₁.setRequests queue) l' as) : Wakes l l' (r' :: as)
  | advanced {l l₁ l' r r' queue as} (hq : l.val.lockRequests = r :: queue)
      (hacq : Acquires r.remaining l r false .queued l₁ r')
      (hlevel : r.currentLevel < r'.currentLevel)
      (hrest : Wakes (l₁.setRequests queue) l' as) : Wakes l l' as
  | stopped {l r queue} (hq : l.val.lockRequests = r :: queue) (hblocked : l.val.Blocks r) :
      Wakes l (l.setRequests (r.withStatus .queued :: queue)) []

/-- The loop ends after at most as many turns as there are requests in the queue. -/
theorem wakeUp_spec {fuel : Nat} {l : Lock} (answered : Finset LockRequest)
    (hfuel : l.val.lockRequests.length ≤ fuel) :
    ∃ l' as, wakeUp fuel l answered = .ok (l', answered ∪ as.toFinset) ∧ Wakes l l' as := by
  induction fuel generalizing l answered with
  | zero =>
      have hq : l.val.lockRequests = [] := List.length_eq_zero_iff.mp (Nat.le_zero.mp hfuel)
      exact ⟨l, [], by simp [wakeUp, hq], .done hq⟩
  | succ fuel ih =>
      cases hq : l.val.lockRequests with
      | nil => exact ⟨l, [], by simp [wakeUp, hq], .done hq⟩
      | cons r queue =>
          obtain ⟨ret, l₁, r', hrun, hacq⟩ := acquire_spec r.remaining l r false
          have hq₁ : l₁.val.lockRequests = r :: queue := hacq.lockRequests_eq.trans hq
          have hpop : l₁.popFront = l₁.setRequests queue := by simp [popFront, hq₁]
          have hlen : (l₁.setRequests queue).val.lockRequests.length ≤ fuel := by
            rw [hq, List.length_cons] at hfuel
            exact Nat.le_of_succ_le_succ hfuel
          by_cases hret : ret = .queued
          · subst hret
            rcases hacq.advanced_or_blocked with hlevel | ⟨rfl, rfl, hblocked⟩
            · obtain ⟨l', as, hwake, hrest⟩ := ih answered hlen
              refine ⟨l', as, ?_, .advanced hq hacq hlevel hrest⟩
              simp [wakeUp, hq, hrun, hlevel, hpop, hwake, bind, Except.bind]
            · refine ⟨_, [], ?_, .stopped hq hblocked⟩
              simp [wakeUp, hq, hrun, setFront, LockRequest.withStatus, bind, Except.bind]
          · obtain ⟨l', as, hwake, hrest⟩ := ih (insert r' answered) hlen
            refine ⟨l', r' :: as, ?_, .answered hq hacq hret hrest⟩
            simp [wakeUp, hq, hrun, hret, hpop, hwake, bind, Except.bind, Finset.insert_union]

theorem Wakes.name_eq {l l' : Lock} {as : List LockRequest} (h : Wakes l l' as) :
    l'.name = l.name := by
  induction h with
  | done => rfl
  | answered _ hacq _ _ ih => exact ih.trans hacq.name_eq
  | advanced _ hacq _ _ ih => exact ih.trans hacq.name_eq
  | stopped => rfl

theorem wakeRequests_spec (l : Lock) (answered : Finset LockRequest) :
    ∃ l' as, wakeRequests l answered = .ok (.success, l', answered ∪ as.toFinset) ∧
      Wakes l l' as := by
  obtain ⟨l', as, hrun, hwakes⟩ := wakeUp_spec answered (Nat.le_refl l.val.lockRequests.length)
  exact ⟨l', as, by simp [wakeRequests, hrun, bind, Except.bind], hwakes⟩

-- ============================================================================
-- Calls of release
-- ============================================================================

/-- When `release` comes to the cancel stage at the root of `l`, nothing has been
    released: `p` does not hold the target in this mode and no request of `p` in
    this mode waits further down the path. -/
def NotReleased (p : ProcessRef) (mode : UInt8) : LockPath → Lock → Prop
  | [], l => l.val.tryUnlock p mode = none
  | c :: rest, l => ∀ child, l.children.find? (fun d => d.name = c) = some child →
      NotReleased p mode rest child ∧ child.val.cancel p mode = none

/-- The derivations of a call of `Lock::release`. -/
inductive Releases (p : ProcessRef) (mode : UInt8) : LockPath → Lock →
    ReleaseStatus → Lock → List LockRequest → Prop where
  | unlocked {k s s' cs l' as} (hunlock : s.tryUnlock p mode = some s')
      (hwake : Wakes (node k s' cs) l' as) : Releases p mode [] (node k s cs) .success l' as
  | descended {c rest k s s' pre child post child' l' as as'} (hname : child.name = c)
      (hpre : ∀ d ∈ pre, d.name ≠ c)
      (hbelow : Releases p mode rest child .success child' as)
      (herase : s.eraseIntent p mode = .ok s')
      (hwake : Wakes (node k s' (pre ++ child' :: post)) l' as') :
      Releases p mode (c :: rest) (node k s (pre ++ child :: post)) .success l' (as ++ as')
  | cancelled {path k s s' cs} (hnot : NotReleased p mode path (node k s cs))
      (hcancel : s.cancel p mode = some s') :
      Releases p mode path (node k s cs) .success (node k s' cs) []
  | notHeld {path l} (hnot : NotReleased p mode path l) (hcancel : l.val.cancel p mode = none) :
      Releases p mode path l .notHeld l []

/-- `NOT_HELD` means that nothing was found, and nothing was changed. -/
theorem Releases.of_notHeld {p : ProcessRef} {mode : UInt8} {path : LockPath} {l l' : Lock}
    {as : List LockRequest} (h : Releases p mode path l .notHeld l' as) :
    l' = l ∧ as = [] ∧ NotReleased p mode path l ∧ l.val.cancel p mode = none := by
  cases h with
  | notHeld hnot hcancel => exact ⟨rfl, rfl, hnot, hcancel⟩

theorem Releases.name_eq {p : ProcessRef} {mode : UInt8} {path : LockPath} {l l' : Lock}
    {ret : ReleaseStatus} {as : List LockRequest} (h : Releases p mode path l ret l' as) :
    l'.name = l.name := by
  cases h with
  | unlocked _ hwake => exact hwake.name_eq
  | descended _ _ _ _ hwake => exact hwake.name_eq
  | cancelled => rfl
  | notHeld => rfl

/-- The cancel stage of `release`. -/
theorem cancelRequest_spec {p : ProcessRef} {mode : UInt8} {path : LockPath} {l : Lock}
    (hnot : NotReleased p mode path l) :
    ∃ ret l', cancelRequest p mode l ∅ = (ret, l', ∅) ∧ Releases p mode path l ret l' [] := by
  cases l with
  | node k s cs =>
      cases hcancel : s.cancel p mode with
      | some s' => exact ⟨_, _, by simp [cancelRequest, hcancel], .cancelled hnot hcancel⟩
      | none => exact ⟨_, _, by simp [cancelRequest, hcancel], .notHeld hnot hcancel⟩

/-- A call of `release` that returns is one of the derivations. -/
theorem releases_of_ok {p : ProcessRef} {mode : UInt8} {path : LockPath} {l l' : Lock}
    {ret : ReleaseStatus} {answered : Finset LockRequest}
    (h : release p mode path l = .ok (ret, l', answered)) :
    ∃ as, answered = as.toFinset ∧ Releases p mode path l ret l' as := by
  induction path generalizing l ret l' answered with
  | nil =>
      cases l with
      | node k s cs =>
          cases hunlock : s.tryUnlock p mode with
          | some s' =>
              obtain ⟨l₁, as, hrun, hwake⟩ := wakeRequests_spec (node k s' cs) ∅
              simp only [release, hunlock, hrun, Finset.empty_union] at h
              cases h
              exact ⟨as, rfl, .unlocked hunlock hwake⟩
          | none =>
              have hnot : NotReleased p mode [] (node k s cs) := hunlock
              obtain ⟨ret₁, l₁, hrun, hrel⟩ := cancelRequest_spec hnot
              simp only [release, hunlock, hrun] at h
              cases h
              exact ⟨[], rfl, hrel⟩
  | cons c rest ih =>
      cases l with
      | node k s cs =>
          cases hsplit : splitChild c cs with
          | none =>
              have hfind : cs.find? (fun d => decide (d.name = c)) = none :=
                List.find?_eq_none.mpr (List.splitFirst_eq_none.mp hsplit)
              have hnot : NotReleased p mode (c :: rest) (node k s cs) := by
                intro child hchild
                rw [NamedTree.children_node, hfind] at hchild
                cases hchild
              obtain ⟨ret₁, l₁, hrun, hrel⟩ := cancelRequest_spec hnot
              simp only [release, hsplit, hrun] at h
              cases h
              exact ⟨[], rfl, hrel⟩
          | some split =>
              obtain ⟨pre, child, post⟩ := split
              obtain ⟨rfl, hname, hpre⟩ := List.splitFirst_eq_some hsplit
              have hfind : (pre ++ child :: post).find? (fun d => decide (d.name = c)) = some child :=
                List.find?_append_cons hname hpre
              simp only [decide_eq_true_eq] at hname hpre
              simp only [release, hsplit] at h
              obtain ⟨⟨ret₁, child', answered₁⟩, hchild, h⟩ := bind_eq_ok.mp h
              obtain ⟨as, rfl, hbelow⟩ := ih hchild
              cases ret₁ with
              | success =>
                  simp only [if_true] at h
                  obtain ⟨s', herase, h⟩ := bind_eq_ok.mp h
                  obtain ⟨l₁, as', hrun, hwake⟩ :=
                    wakeRequests_spec (node k s' (pre ++ child' :: post)) as.toFinset
                  rw [hrun] at h
                  cases h
                  exact ⟨as ++ as', by simp, .descended hname hpre hbelow herase hwake⟩
              | notHeld =>
                  obtain ⟨rfl, rfl, hnotb, hcancelb⟩ := hbelow.of_notHeld
                  have hnot : NotReleased p mode (c :: rest) (node k s (pre ++ child' :: post)) := by
                    intro d hd
                    rw [NamedTree.children_node, hfind] at hd
                    cases hd
                    exact ⟨hnotb, hcancelb⟩
                  obtain ⟨ret₁, l₁, hrun, hrel⟩ := cancelRequest_spec hnot
                  simp only [reduceCtorEq, if_false, List.toFinset_nil, hrun] at h
                  cases h
                  exact ⟨[], rfl, hrel⟩

end Lock

end Tclm.Server
