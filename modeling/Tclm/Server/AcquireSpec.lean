/-
  Tclm.Server.AcquireSpec

  What one call of `Lock::acquire` can do, said once.

  `Acquires rest l r ins ret l' r'` is the call as a derivation: a request is
  granted or refused at its target, blocked on the way, passes on to a child that
  exists or is created, fails below a child, or finds nothing to descend to.  A
  failed call leaves the tree alone (the roll-back takes back exactly what the
  same call inserted), so the failing constructors return the tree they got.

  Every property of `Lock.acquire` is an induction over `Acquires`; the function
  itself is unfolded only in `acquire_spec`.
-/

import Tclm.Server.Lock

namespace Tclm.Server

-- ============================================================================
-- Intent fields
-- ============================================================================

namespace LockState

variable {s s' : LockState} {r : LockRequest} {m m' : Mode} {ps : Multiset ProcessRef}

@[simp] theorem intents_setIntents : (s.setIntents ps m).intents m = ps := by
  cases m <;> rfl

theorem intents_setIntents_ne (h : m' ≠ m) : (s.setIntents ps m).intents m' = s.intents m' := by
  cases m <;> cases m' <;> first | rfl | exact absurd rfl h

@[simp] theorem setIntents_setIntents {qs : Multiset ProcessRef} :
    (s.setIntents ps m).setIntents qs m = s.setIntents qs m := by
  cases m <;> rfl

@[simp] theorem setIntents_intents : s.setIntents (s.intents m) m = s := by
  cases m <;> rfl

@[simp] theorem lockersS_setIntents : (s.setIntents ps m).lockersS = s.lockersS := by
  cases m <;> rfl

@[simp] theorem lockerSplus_setIntents : (s.setIntents ps m).lockerSplus = s.lockerSplus := by
  cases m <;> rfl

@[simp] theorem lockerX_setIntents : (s.setIntents ps m).lockerX = s.lockerX := by
  cases m <;> rfl

@[simp] theorem lockRequests_setIntents : (s.setIntents ps m).lockRequests = s.lockRequests := by
  cases m <;> rfl

@[simp] theorem intents_addLocker {p : ProcessRef} :
    (s.addLocker p m').intents m = s.intents m := by
  cases m <;> cases m' <;> rfl

@[simp] theorem lockRequests_addLocker {p : ProcessRef} :
    (s.addLocker p m).lockRequests = s.lockRequests := by
  cases m <;> rfl

/-- Taking an intent lock, by cases on the mode byte. -/
theorem tryIntent_eq_some (h : s.tryIntent r = some s') :
    (∃ m, r.mode = m.toByte ∧ s.MayIntend r.requester m ∧
      s' = s.setIntents (r.requester ::ₘ s.intents m) m) ∨
    (Mode.ofByte r.mode = none ∧ s' = s) := by
  unfold tryIntent at h
  split at h
  · rename_i m hm
    split at h
    · rename_i hmay
      cases h
      exact Or.inl ⟨m, Mode.ofByte_eq_some.mp hm, hmay, rfl⟩
    · cases h
  · rename_i hm
    cases h
    exact Or.inr ⟨hm, rfl⟩

/-- Granting a lock, with the mode it is granted in. -/
theorem tryLock_eq_some (h : s.tryLock r = some s') :
    ∃ m, r.mode = m.toByte ∧ s.MayLock r.requester m ∧ s' = s.addLocker r.requester m := by
  unfold tryLock at h
  split at h
  · rename_i m hm
    split at h
    · rename_i hmay
      cases h
      exact ⟨m, Mode.ofByte_eq_some.mp hm, hmay, rfl⟩
    · cases h
  · cases h

/-- The roll-back of `Lock::acquire` finds the intent lock it took and restores the
    state exactly. -/
theorem eraseIntent_of_tryIntent (h : s.tryIntent r = some s') :
    s'.eraseIntent r.requester r.mode = .ok s := by
  rcases tryIntent_eq_some h with ⟨m, hm, -, rfl⟩ | ⟨hm, rfl⟩
  · simp [eraseIntent, hm]
  · simp [eraseIntent, hm]

theorem lockRequests_of_tryIntent (h : s.tryIntent r = some s') :
    s'.lockRequests = s.lockRequests := by
  rcases tryIntent_eq_some h with ⟨m, -, -, rfl⟩ | ⟨-, rfl⟩
  · simp
  · rfl

end LockState

-- ============================================================================
-- Calls of acquire
-- ============================================================================

namespace Lock

open NamedTree (node)

/-- The derivations of a call of `Lock::acquire`. -/
inductive Acquires : LockPath → Lock → LockRequest → Bool →
    AcquireStatus → Lock → LockRequest → Prop where
  | granted {k s s' cs r ins} (hlock : s.tryLock r = some s') :
      Acquires [] (node k s cs) r ins .acquired (node k s' cs) (r.withStatus .acquired)
  | refused {k s cs r ins} (hlock : s.tryLock r = none) :
      Acquires [] (node k s cs) r ins .queued (node k (s.enqueue r ins) cs) (r.withStatus .queued)
  | blocked {c rest k s cs r ins} (hintent : s.tryIntent r = none) :
      Acquires (c :: rest) (node k s cs) r ins .queued (node k (s.enqueue r ins) cs)
        (r.withStatus .queued)
  | descended {c rest k s s' pre child post r ins ret child' r'}
      (hintent : s.tryIntent r = some s') (hname : child.name = c)
      (hpre : ∀ d ∈ pre, d.name ≠ c) (hret : ret ≠ .nonExistent)
      (hbelow : Acquires rest child r.advance true ret child' r') :
      Acquires (c :: rest) (node k s (pre ++ child :: post)) r ins ret
        (node k s' (pre ++ child' :: post)) r'
  | failed {c rest k s s' pre child post r ins r'}
      (hintent : s.tryIntent r = some s') (hname : child.name = c)
      (hpre : ∀ d ∈ pre, d.name ≠ c)
      (hbelow : Acquires rest child r.advance true .nonExistent child r') :
      Acquires (c :: rest) (node k s (pre ++ child :: post)) r ins .nonExistent
        (node k s (pre ++ child :: post)) r'
  | created {c rest k s s' cs r ins ret child' r'}
      (hintent : s.tryIntent r = some s') (hnone : ∀ d ∈ cs, d.name ≠ c)
      (hcreate : r.createMissing = true) (hret : ret ≠ .nonExistent)
      (hbelow : Acquires rest (new c) r.markCreated.advance true ret child' r') :
      Acquires (c :: rest) (node k s cs) r ins ret (node k s' (cs ++ [child'])) r'
  | missing {c rest k s s' cs r ins}
      (hintent : s.tryIntent r = some s') (hnone : ∀ d ∈ cs, d.name ≠ c)
      (hcreate : r.createMissing = false) :
      Acquires (c :: rest) (node k s cs) r ins .nonExistent (node k s cs)
        (r.withStatus .nonExistent)

/-- A failed call leaves the tree alone. -/
theorem Acquires.unchanged {rest : LockPath} {l l' : Lock} {r r' : LockRequest} {ins : Bool}
    (h : Acquires rest l r ins .nonExistent l' r') : l' = l := by
  cases h with
  | descended _ _ _ hret _ => exact absurd rfl hret
  | failed => rfl
  | created _ _ _ hret _ => exact absurd rfl hret
  | missing => rfl

/-- A request that may create locks never fails. -/
theorem Acquires.createMissing_eq_false {rest : LockPath} {l l' : Lock} {r r' : LockRequest}
    {ins : Bool} {ret : AcquireStatus} (h : Acquires rest l r ins ret l' r')
    (hret : ret = .nonExistent) : r.createMissing = false := by
  induction h with
  | granted | refused | blocked => cases hret
  | descended _ _ _ hne => exact absurd hret hne
  | failed _ _ _ _ ih => exact ih hret
  | created _ _ _ hne => exact absurd hret hne
  | missing _ _ hcreate => exact hcreate

/-- `Lock::acquire` always returns, without undefined behaviour, and what it does is
    one of the derivations. -/
theorem acquire_spec (rest : LockPath) (l : Lock) (r : LockRequest) (ins : Bool) :
    ∃ ret l' r', acquire rest l r ins = .ok (ret, l', r') ∧ Acquires rest l r ins ret l' r' := by
  induction rest generalizing l r ins with
  | nil =>
      cases l with
      | node k s cs =>
          cases hlock : s.tryLock r with
          | some s' => exact ⟨_, _, _, by simp [acquire, hlock], .granted hlock⟩
          | none => exact ⟨_, _, _, by simp [acquire, hlock], .refused hlock⟩
  | cons c rest ih =>
      cases l with
      | node k s cs =>
          cases hintent : s.tryIntent r with
          | none => exact ⟨_, _, _, by simp [acquire, hintent], .blocked hintent⟩
          | some s' =>
              have herase := LockState.eraseIntent_of_tryIntent hintent
              cases hsplit : splitChild c cs with
              | some split =>
                  obtain ⟨pre, child, post⟩ := split
                  obtain ⟨rfl, hname, hpre⟩ := List.splitFirst_eq_some hsplit
                  simp only [decide_eq_true_eq] at hname hpre
                  obtain ⟨ret, child', r', hrun, hbelow⟩ := ih child r.advance true
                  by_cases hret : ret = .nonExistent
                  · subst hret
                    obtain rfl := hbelow.unchanged
                    refine ⟨_, _, _, ?_, .failed hintent hname hpre hbelow⟩
                    simp [acquire, hintent, hsplit, hrun, herase, bind, Except.bind]
                  · refine ⟨_, _, _, ?_, .descended hintent hname hpre hret hbelow⟩
                    simp [acquire, hintent, hsplit, hrun, hret, bind, Except.bind]
              | none =>
                  have hnone : ∀ d ∈ cs, d.name ≠ c := by
                    simpa using List.splitFirst_eq_none.mp hsplit
                  cases hcreate : r.createMissing with
                  | true =>
                      obtain ⟨ret, child', r', hrun, hbelow⟩ :=
                        ih (new c) r.markCreated.advance true
                      -- `create_missing` is carried along, so the call below cannot fail
                      have hret : ret ≠ .nonExistent := by
                        intro hret
                        have hfalse : r.createMissing = false := hbelow.createMissing_eq_false hret
                        rw [hcreate] at hfalse
                        cases hfalse
                      refine ⟨_, _, _, ?_, .created hintent hnone hcreate hret hbelow⟩
                      simp [acquire, hintent, hsplit, hcreate, hrun, bind, Except.bind]
                  | false =>
                      refine ⟨_, _, _, ?_, .missing hintent hnone hcreate⟩
                      simp [acquire, hintent, hsplit, hcreate, herase, bind, Except.bind]

-- ============================================================================
-- First consequences
-- ============================================================================

section

variable {rest : LockPath} {l l' : Lock} {r r' : LockRequest} {ins : Bool} {ret : AcquireStatus}

theorem Acquires.name_eq (h : Acquires rest l r ins ret l' r') : l'.name = l.name := by
  cases h <;> rfl

/-- The levels of a request only grow. -/
theorem Acquires.level_le (h : Acquires rest l r ins ret l' r') :
    r.currentLevel ≤ r'.currentLevel := by
  induction h with
  | granted | refused | blocked | missing => exact Nat.le_refl _
  | descended _ _ _ _ _ ih | failed _ _ _ _ ih | created _ _ _ _ _ ih =>
      exact Nat.le_of_succ_le ih

/-- The fields of a request that no call writes. -/
structure SameRequest (r r' : LockRequest) : Prop where
  address : r'.address = r.address
  mode : r'.mode = r.mode
  requester : r'.requester = r.requester
  path : r'.path = r.path
  createMissing : r'.createMissing = r.createMissing

theorem SameRequest.refl (r : LockRequest) : SameRequest r r := ⟨rfl, rfl, rfl, rfl, rfl⟩

theorem SameRequest.trans {r r' r'' : LockRequest} (h : SameRequest r r')
    (h' : SameRequest r' r'') : SameRequest r r'' :=
  ⟨h'.address.trans h.address, h'.mode.trans h.mode, h'.requester.trans h.requester,
    h'.path.trans h.path, h'.createMissing.trans h.createMissing⟩

theorem SameRequest.withStatus (r : LockRequest) (status : AcquireStatus) :
    SameRequest r (r.withStatus status) := ⟨rfl, rfl, rfl, rfl, rfl⟩

theorem SameRequest.advance (r : LockRequest) : SameRequest r r.advance := ⟨rfl, rfl, rfl, rfl, rfl⟩

theorem SameRequest.markCreated (r : LockRequest) : SameRequest r r.markCreated :=
  ⟨rfl, rfl, rfl, rfl, rfl⟩

theorem Acquires.same (h : Acquires rest l r ins ret l' r') : SameRequest r r' := by
  induction h with
  | granted | refused | blocked | missing => exact .withStatus _ _
  | descended _ _ _ _ _ ih | failed _ _ _ _ ih => exact (SameRequest.advance _).trans ih
  | created _ _ _ _ _ ih => exact (SameRequest.markCreated _).trans ((SameRequest.advance _).trans ih)

/-- The status field of the request tells the return value. -/
theorem Acquires.status_eq (h : Acquires rest l r ins ret l' r') : r'.acquireStatus = ret := by
  induction h with
  | granted | refused | blocked | missing => rfl
  | descended _ _ _ _ _ ih | failed _ _ _ _ ih | created _ _ _ _ _ ih => exact ih

/-- Without `insert_in_current_queue` the queue of the node itself stays. -/
theorem Acquires.lockRequests_eq (h : Acquires rest l r false ret l' r') :
    l'.val.lockRequests = l.val.lockRequests := by
  cases h with
  | granted hlock =>
      obtain ⟨m, -, -, rfl⟩ := LockState.tryLock_eq_some hlock
      exact LockState.lockRequests_addLocker
  | refused | blocked | failed | missing => rfl
  | descended hintent | created hintent => exact LockState.lockRequests_of_tryIntent hintent

end

end Lock

end Tclm.Server
