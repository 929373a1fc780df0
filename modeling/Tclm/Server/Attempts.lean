/-
  Tclm.Server.Attempts

  Creating a lock and acquiring it, exactly.

  A request that may create locks asks for X.  A fresh lock grants X at once, so such a
  request never waits after it has begun to create locks: a waiting one has created
  nothing, and `lock_created` is set in the attempt that is granted, if at all.

  The attempts for waiting requests are the calls of `acquire` in the wake-up loops of
  `release`.  `ReleaseAttempt` lists them, each with the tree right before and right after
  it.
-/

import Tclm.Server.Creation
import Tclm.Server.Daemon

namespace Tclm.Server

-- ============================================================================
-- Acquiring X on fresh locks
-- ============================================================================

namespace LockState

theorem tryLock_fresh {r : LockRequest} (hmode : r.mode = Mode.X.toByte) :
    tryLock {} r ≠ none := by
  have hmay : MayLock {} r.requester .X := by simp [MayLock]
  simp [tryLock, hmode, hmay]

theorem tryIntent_fresh {r : LockRequest} (hmode : r.mode = Mode.X.toByte) :
    tryIntent {} r ≠ none := by
  have hmay : MayIntend {} r.requester .X := by simp [MayIntend]
  simp [tryIntent, hmode, hmay]

/-- No waiting request that may create locks has created one. -/
def Unmarked (s : LockState) : Prop :=
  ∀ r ∈ s.lockRequests, r.createMissing = true → r.lockCreated = false

end LockState

namespace Lock

open NamedTree (node find)

section

variable {rest π : LockPath} {l l' : Lock} {r r' : LockRequest} {ins : Bool} {ret : AcquireStatus}

/-- A request for X that may create locks is granted below a fresh lock, and nobody waits
    there. -/
theorem Acquires.of_fresh (h : Acquires rest l r ins ret l' r') {k : LockName} (hl : l = new k)
    (hmode : r.mode = Mode.X.toByte) (hcreate : r.createMissing = true) :
    ret = .acquired ∧ All (fun _ s => s.lockRequests = []) π l' := by
  induction h generalizing k π with
  | granted hlock =>
      cases hl
      refine ⟨rfl, all_node.mpr ⟨?_, fun _ hc => by cases hc⟩⟩
      rw [LockState.lockRequests_of_tryLock hlock]
  | refused hlock =>
      cases hl
      exact absurd hlock (LockState.tryLock_fresh hmode)
  | blocked hintent =>
      cases hl
      exact absurd hintent (LockState.tryIntent_fresh hmode)
  | descended | failed =>
      exfalso
      have hchildren := congrArg NamedTree.children hl
      simp [new] at hchildren
  | created hintent _ _ _ hbelow ih =>
      cases hl
      obtain ⟨hret, hall⟩ := ih rfl hmode hcreate
      refine ⟨hret, all_append_cons.mpr ⟨?_, by simp, hall⟩⟩
      rw [LockState.lockRequests_of_tryIntent hintent]
  | missing _ _ hnot =>
      rw [hcreate] at hnot
      cases hnot

def Unmarked (π : LockPath) (l : Lock) : Prop := All (fun _ s => s.Unmarked) π l

theorem Acquires.unmarked (h : Acquires rest l r ins ret l' r') (hmode : r.CreatesInX)
    (hr : r.createMissing = true → r.lockCreated = false) (hl : Unmarked π l) :
    Unmarked π l' := by
  induction h generalizing π with
  | granted hlock =>
      obtain ⟨hs, hcs⟩ := all_node.mp hl
      refine all_node.mpr ⟨?_, hcs⟩
      rw [LockState.Unmarked, LockState.lockRequests_of_tryLock hlock]
      exact hs
  | @refused k s cs r ins | @blocked c rest k s cs r ins =>
      cases ins with
      | false => exact hl
      | true =>
          obtain ⟨hs, hcs⟩ := all_node.mp hl
          refine all_node.mpr ⟨?_, hcs⟩
          intro x hx
          simp only [LockState.enqueue, if_true] at hx
          rcases List.mem_append.mp hx with hx | hx
          · exact hs x hx
          · obtain rfl := List.mem_singleton.mp hx
            exact hr
  | descended hintent hname _ _ hbelow ih =>
      obtain ⟨hs, hrest, hchild⟩ := all_append_cons.mp hl
      refine all_append_cons.mpr ⟨?_, hrest, ?_⟩
      · rw [LockState.Unmarked, LockState.lockRequests_of_tryIntent hintent]
        exact hs
      · rw [hbelow.name_eq]
        exact ih hmode hr hchild
  | failed | missing => exact hl
  | created hintent _ hcreate _ hbelow ih =>
      obtain ⟨hs, hcs⟩ := all_node.mp hl
      refine all_append_cons.mpr ⟨?_, by simpa using hcs, ?_⟩
      · rw [LockState.Unmarked, LockState.lockRequests_of_tryIntent hintent]
        exact hs
      · obtain ⟨-, hempty⟩ := hbelow.of_fresh rfl (hmode hcreate) hcreate
        intro x hx y hy
        rw [hempty x hx] at hy
        cases hy

/-- A request that has created a lock remembers it. -/
theorem Acquires.lockCreated_of (h : Acquires rest l r ins ret l' r')
    (hr : r.lockCreated = true) : r'.lockCreated = true := by
  induction h with
  | granted | refused | blocked | missing => exact hr
  | descended _ _ _ _ _ ih | failed _ _ _ _ ih => exact ih hr
  | created _ _ _ _ _ ih => exact ih rfl

-- ============================================================================
-- What one attempt does
-- ============================================================================

/-- Exactly the missing locks on the path are added. -/
def Fills (path : LockPath) (l l' : Lock) : Prop :=
  ∀ ρ, find ρ l' = none ↔ find ρ l = none ∧ ¬ ρ <+: path

/-- No lock is added. -/
def SameLocks (l l' : Lock) : Prop := ∀ ρ, find ρ l' = none ↔ find ρ l = none

theorem sameLocks_node {k k' : LockName} {s s' : LockState} {cs : List Lock} :
    SameLocks (node k s cs) (node k' s' cs) := by
  intro ρ
  cases ρ with
  | nil => simp
  | cons b σ => rfl

section

variable {k k' : LockName} {s s' : LockState} {pre post : List Lock} {child child' : Lock}

/-- What is found through a child after it has changed. -/
theorem find_changed (hname : child'.name = child.name) (hpre : ∀ d ∈ pre, d.name ≠ child.name)
    (σ : LockPath) :
    find (child.name :: σ) (node k' s' (pre ++ child' :: post)) = find σ child' := by
  rw [← hname, NamedTree.find_node_append_cons (by rwa [hname])]

theorem Fills.descend (h : Fills rest child child') (hname : child'.name = child.name)
    (hpre : ∀ d ∈ pre, d.name ≠ child.name) :
    Fills (child.name :: rest) (node k s (pre ++ child :: post))
      (node k' s' (pre ++ child' :: post)) := by
  intro ρ
  cases ρ with
  | nil => simp
  | cons b σ =>
      by_cases hb : b = child.name
      · subst hb
        rw [find_changed hname hpre, NamedTree.find_node_append_cons hpre, h σ,
          List.cons_prefix_cons]
        simp
      · have hsame : find (b :: σ) (node k' s' (pre ++ child' :: post)) =
            find (b :: σ) (node k s (pre ++ child :: post)) :=
          NamedTree.find_node_append_cons_ne hname hb
        rw [hsame, List.cons_prefix_cons]
        simp [hb]

theorem SameLocks.descend (h : SameLocks child child') (hname : child'.name = child.name)
    (hpre : ∀ d ∈ pre, d.name ≠ child.name) :
    SameLocks (node k s (pre ++ child :: post)) (node k' s' (pre ++ child' :: post)) := by
  intro ρ
  cases ρ with
  | nil => simp
  | cons b σ =>
      by_cases hb : b = child.name
      · subst hb
        rw [find_changed hname hpre, NamedTree.find_node_append_cons hpre, h σ]
      · have hsame : find (b :: σ) (node k' s' (pre ++ child' :: post)) =
            find (b :: σ) (node k s (pre ++ child :: post)) :=
          NamedTree.find_node_append_cons_ne hname hb
        rw [hsame]

theorem Fills.fresh {c : LockName} {cs : List Lock} (h : Fills rest (new c) child')
    (hname : child'.name = c) (hnone : ∀ d ∈ cs, d.name ≠ c) :
    Fills (c :: rest) (node k s cs) (node k' s' (cs ++ [child'])) := by
  subst hname
  intro ρ
  cases ρ with
  | nil => simp
  | cons b σ =>
      by_cases hb : b = child'.name
      · subst hb
        rw [NamedTree.find_node_append_cons hnone, NamedTree.find_node_eq_none hnone, h σ,
          List.cons_prefix_cons]
        cases σ with
        | nil => simp
        | cons d σ => simp [new, find]
      · have hsame : find (b :: σ) (node k' s' (cs ++ [child'])) =
            find (b :: σ) (node k s (cs ++ [])) := NamedTree.find_node_insert_ne hb
        rw [hsame, List.append_nil, List.cons_prefix_cons]
        simp [hb]

end

/-- A granted request has created what was missing on its path. -/
theorem Acquires.fills (h : Acquires rest l r ins ret l' r') (hret : ret = .acquired) :
    Fills rest l l' := by
  induction h with
  | granted =>
      intro ρ
      cases ρ with
      | nil => simp
      | cons b σ => simp [find]
  | refused | blocked | failed | missing => cases hret
  | descended _ hname hpre _ hbelow ih =>
      subst hname
      exact (ih hret).descend hbelow.name_eq hpre
  | created _ hnone _ _ hbelow ih => exact (ih hret).fresh hbelow.name_eq hnone

/-- A request that has to wait has created nothing. -/
theorem Acquires.sameLocks (h : Acquires rest l r ins ret l' r') (hret : ret = .queued)
    (hmode : r.CreatesInX) : SameLocks l l' ∧ r'.lockCreated = r.lockCreated := by
  induction h with
  | granted | failed | missing => cases hret
  | refused | blocked => exact ⟨sameLocks_node, rfl⟩
  | descended _ hname hpre _ hbelow ih =>
      subst hname
      obtain ⟨hsame, hcreated⟩ := ih hret hmode
      exact ⟨hsame.descend hbelow.name_eq hpre, hcreated⟩
  | created _ _ hcreate _ hbelow _ =>
      obtain ⟨hacquired, -⟩ := hbelow.of_fresh (π := []) rfl (hmode hcreate) hcreate
      rw [hacquired] at hret
      cases hret

/-- A granted request says that it has created a lock if and only if its target is new. -/
theorem Acquires.lockCreated_iff (h : Acquires rest l r ins ret l' r') (hret : ret = .acquired)
    (hr : r.lockCreated = false) : r'.lockCreated = true ↔ find rest l = none := by
  induction h with
  | granted => simp [LockRequest.withStatus, hr]
  | refused | blocked | failed | missing => cases hret
  | descended _ hname hpre _ _ ih =>
      subst hname
      rw [NamedTree.find_node_append_cons hpre]
      exact ih hret hr
  | created _ hnone _ _ hbelow _ =>
      rw [NamedTree.find_node_eq_none hnone]
      exact ⟨fun _ => rfl, fun _ => hbelow.lockCreated_of rfl⟩

/-- What an attempt for X on `path`, by a request of `p` that may create locks, does.  A
    granted one says in `created` whether the lock is new. -/
def CreatesExactly (path : LockPath) (p : ProcessRef) (ret : AcquireStatus) (created : Bool)
    (l l' : Lock) : Prop :=
  match ret with
  | .acquired =>
      Fills path l l' ∧ (∃ n, find path l' = some n ∧ n.val.lockerX = some p) ∧
        (created = true ↔ find path l = none)
  | .queued => SameLocks l l' ∧ created = false
  | .nonExistent => False

/-- The attempt of a request that has created nothing so far. -/
theorem Acquires.createsExactly (h : Acquires rest l r ins ret l' r')
    (hmode : r.mode = Mode.X.toByte) (hcreate : r.createMissing = true)
    (hr : r.lockCreated = false) :
    CreatesExactly rest r.requester ret r'.lockCreated l l' := by
  cases ret with
  | acquired =>
      obtain ⟨n, m, hn, hm, hholds⟩ := h.holds rfl
      obtain rfl : m = .X := Mode.toByte_injective (hm.symm.trans hmode)
      exact ⟨h.fills rfl, ⟨n, hn, hholds⟩, h.lockCreated_iff rfl hr⟩
  | queued =>
      obtain ⟨hsame, hcreated⟩ := h.sameLocks rfl fun _ => hmode
      exact ⟨hsame, hcreated.trans hr⟩
  | nonExistent =>
      have hnot := h.createMissing_eq_false rfl
      rw [hcreate] at hnot
      cases hnot

/-- An attempt below a child is an attempt below its parent, on the longer path. -/
theorem CreatesExactly.descend {p : ProcessRef} {created : Bool} {k k' : LockName}
    {s s' : LockState} {pre post : List Lock} {child child' : Lock}
    (h : CreatesExactly rest p ret created child child') (hname : child'.name = child.name)
    (hpre : ∀ d ∈ pre, d.name ≠ child.name) :
    CreatesExactly (child.name :: rest) p ret created (node k s (pre ++ child :: post))
      (node k' s' (pre ++ child' :: post)) := by
  cases ret with
  | nonExistent => exact h
  | acquired =>
      obtain ⟨hfills, hX, hcreated⟩ := h
      refine ⟨hfills.descend hname hpre, ?_, ?_⟩
      · rwa [find_changed hname hpre]
      · rwa [NamedTree.find_node_append_cons hpre]
  | queued => exact ⟨h.1.descend hname hpre, h.2⟩

end

-- ============================================================================
-- Waiting requests have created nothing
-- ============================================================================

theorem unmarked_node {π : LockPath} {k k' : LockName} {s s' : LockState} {cs : List Lock}
    (h : Unmarked π (node k s cs)) (hq : ∀ r ∈ s'.lockRequests, r ∈ s.lockRequests) :
    Unmarked π (node k' s' cs) := by
  obtain ⟨hs, hcs⟩ := all_node.mp h
  exact all_node.mpr ⟨fun r hr => hs r (hq r hr), hcs⟩

theorem Unmarked.setRequests {π : LockPath} {l : Lock} {queue : List LockRequest}
    (h : Unmarked π l) (hq : ∀ r ∈ queue, r.createMissing = true → r.lockCreated = false) :
    Unmarked π (l.setRequests queue) := All.setRequests h hq

theorem Wakes.unmarked {π : LockPath} {l l' : Lock} {as : List LockRequest} (h : Wakes l l' as)
    (hseats : l.val.Seats LockRequest.CreatesInX π) (hl : Unmarked π l) : Unmarked π l' := by
  induction h with
  | done => exact hl
  | answered hq hacq _ _ ih | advanced hq hacq _ _ ih =>
      obtain ⟨-, -, hmode⟩ := hseats _ (by rw [hq]; exact List.mem_cons_self ..)
      have hqueue := hl.root
      rw [LockState.Unmarked, hq] at hqueue
      obtain ⟨hfirst, hrest⟩ := List.forall_mem_cons.mp hqueue
      exact ih (seats_turn hseats hq) ((hacq.unmarked hmode hfirst hl).setRequests hrest)
  | stopped hq =>
      rw [setRequests_queued hseats hq]
      exact hl

theorem Releases.unmarked {p : ProcessRef} {mode : UInt8} {path π : LockPath} {l l' : Lock}
    {ret : ReleaseStatus} {as : List LockRequest} (h : Releases p mode path l ret l' as)
    (hseats : All (LockState.Seats LockRequest.CreatesInX) π l) (hl : Unmarked π l) :
    Unmarked π l' := by
  induction h generalizing π with
  | unlocked hunlock hwake =>
      obtain ⟨-, hqueue⟩ := LockState.frame_of_tryUnlock hunlock
      exact hwake.unmarked (hseats.root.congr hqueue)
        (unmarked_node hl fun r hr => by rwa [hqueue] at hr)
  | descended hname hpre hbelow herase hwake ih =>
      obtain ⟨hseat, -, hseatc⟩ := all_append_cons.mp hseats
      obtain ⟨hs, hrest, hchild⟩ := all_append_cons.mp hl
      have hqueue := LockState.lockRequests_of_eraseIntent herase
      refine hwake.unmarked (hseat.congr hqueue) (all_append_cons.mpr ⟨?_, hrest, ?_⟩)
      · intro r hr
        exact hs r (by rwa [hqueue] at hr)
      · rw [hbelow.name_eq]
        exact ih hseatc hchild
  | cancelled _ hcancel =>
      obtain ⟨pre, r, post, hq, -, -, rfl, -⟩ := LockState.cancel_eq_some hcancel
      refine unmarked_node hl fun x hx => ?_
      rw [hq, List.mem_append, List.mem_cons]
      exact (List.mem_append.mp hx).imp_right Or.inr
  | notHeld => exact hl

theorem Adds.unmarked {π : LockPath} {l l' : Lock} (h : Adds l l') (hl : Unmarked π l) :
    Unmarked π l' := h.all (fun _ _ hr => by cases hr) hl

-- ============================================================================
-- The attempts in wake-up loops
-- ============================================================================

/-- The wake-up loop, started in `l`, calls `acquire` for the request `x`: the tree is `t`
    before and `t'` after the call, which returns `ret` and leaves the request as `x'`. -/
inductive WakeAttempt : Lock → LockRequest → AcquireStatus → LockRequest → Lock → Lock → Prop where
  | now {l l₁ r r' queue ret} (hq : l.val.lockRequests = r :: queue)
      (hacq : Acquires r.remaining l r false ret l₁ r') : WakeAttempt l r ret r' l l₁
  | later {l l₁ r r' queue ret x xret x' t t'} (hq : l.val.lockRequests = r :: queue)
      (hacq : Acquires r.remaining l r false ret l₁ r')
      (hgo : ret ≠ .queued ∨ r.currentLevel < r'.currentLevel)
      (h : WakeAttempt (l₁.setRequests queue) x xret x' t t') : WakeAttempt l x xret x' t t'

/-- The same for a call of `release`, which runs the loop at the target and then at every
    lock on the way up. -/
inductive ReleaseAttempt (p : ProcessRef) (mode : UInt8) : LockPath → Lock →
    LockRequest → AcquireStatus → LockRequest → Lock → Lock → Prop where
  | unlocked {k s s' cs x xret x' t t'} (hunlock : s.tryUnlock p mode = some s')
      (h : WakeAttempt (node k s' cs) x xret x' t t') :
      ReleaseAttempt p mode [] (node k s cs) x xret x' t t'
  | inside {c rest k s pre child post x xret x' t t'} (hname : child.name = c)
      (hpre : ∀ d ∈ pre, d.name ≠ c) (h : ReleaseAttempt p mode rest child x xret x' t t') :
      ReleaseAttempt p mode (c :: rest) (node k s (pre ++ child :: post)) x xret x'
        (node k s (pre ++ t :: post)) (node k s (pre ++ t' :: post))
  | descended {c rest k s s' pre child post child' as x xret x' t t'} (hname : child.name = c)
      (hpre : ∀ d ∈ pre, d.name ≠ c) (hbelow : Releases p mode rest child .success child' as)
      (herase : s.eraseIntent p mode = .ok s')
      (h : WakeAttempt (node k s' (pre ++ child' :: post)) x xret x' t t') :
      ReleaseAttempt p mode (c :: rest) (node k s (pre ++ child :: post)) x xret x' t t'

section

variable {l t t' : Lock} {x x' : LockRequest} {xret : AcquireStatus} {p : ProcessRef}
  {mode : UInt8} {path π : LockPath}

theorem WakeAttempt.name_eq (h : WakeAttempt l x xret x' t t') :
    t.name = l.name ∧ t'.name = l.name := by
  induction h with
  | now _ hacq => exact ⟨rfl, hacq.name_eq⟩
  | later _ hacq _ _ ih => exact ⟨ih.1.trans hacq.name_eq, ih.2.trans hacq.name_eq⟩

theorem ReleaseAttempt.name_eq (h : ReleaseAttempt p mode path l x xret x' t t') :
    t.name = l.name ∧ t'.name = l.name := by
  cases h with
  | unlocked _ h => exact h.name_eq
  | inside => exact ⟨rfl, rfl⟩
  | descended _ _ _ _ h => exact h.name_eq

/-- The request of an attempt waited in the queue where the loop runs. -/
theorem WakeAttempt.spec (h : WakeAttempt l x xret x' t t') :
    x ∈ l.val.lockRequests ∧ Acquires x.remaining t x false xret t' x' := by
  induction h with
  | now hq hacq => exact ⟨by rw [hq]; exact List.mem_cons_self .., hacq⟩
  | later hq _ _ _ ih => exact ⟨by rw [hq]; exact List.mem_cons_of_mem _ ih.1, ih.2⟩

theorem ReleaseAttempt.same (h : ReleaseAttempt p mode path l x xret x' t t') :
    SameRequest x x' := by
  induction h with
  | unlocked _ h | descended _ _ _ _ h => exact h.spec.2.same
  | inside _ _ _ ih => exact ih

/-- The attempts of a loop for requests that may create locks. -/
theorem WakeAttempt.createsExactly (h : WakeAttempt l x xret x' t t')
    (hseats : l.val.Seats LockRequest.CreatesInX π) (hunmarked : l.val.Unmarked)
    (hcreate : x.createMissing = true) :
    ∃ σ, x.path = π ++ σ ∧ CreatesExactly σ x.requester xret x'.lockCreated t t' := by
  obtain ⟨hmem, hacq⟩ := h.spec
  obtain ⟨hat, -, hmode⟩ := hseats x hmem
  exact ⟨x.remaining, hat.path, hacq.createsExactly (hmode hcreate) hcreate (hunmarked x hmem hcreate)⟩

theorem ReleaseAttempt.createsExactly (h : ReleaseAttempt p mode path l x xret x' t t')
    (hseats : All (LockState.Seats LockRequest.CreatesInX) π l) (hl : Unmarked π l)
    (hcreate : x.createMissing = true) :
    ∃ σ, x.path = π ++ σ ∧ CreatesExactly σ x.requester xret x'.lockCreated t t' := by
  induction h generalizing π with
  | unlocked hunlock h =>
      obtain ⟨-, hqueue⟩ := LockState.frame_of_tryUnlock hunlock
      refine h.createsExactly (hseats.root.congr hqueue) (fun r hr => hl.root r ?_) hcreate
      rwa [NamedTree.val_node, hqueue] at hr
  | inside hname hpre h ih =>
      obtain ⟨-, -, hseatc⟩ := all_append_cons.mp hseats
      obtain ⟨-, -, hchild⟩ := all_append_cons.mp hl
      obtain ⟨σ, hσ, hcreates⟩ := ih hseatc hchild hcreate
      obtain ⟨ht, ht'⟩ := h.name_eq
      refine ⟨_ :: σ, by simpa [← ht] using hσ, hcreates.descend (ht'.trans ht.symm) ?_⟩
      rw [ht, hname]
      exact hpre
  | descended hname hpre hbelow herase h =>
      obtain ⟨hseat, -, -⟩ := all_append_cons.mp hseats
      obtain ⟨hs, -, -⟩ := all_append_cons.mp hl
      have hqueue := LockState.lockRequests_of_eraseIntent herase
      refine h.createsExactly (hseat.congr hqueue) (fun r hr => hs r ?_) hcreate
      rwa [NamedTree.val_node, hqueue] at hr

/-- Every answer of the loop comes from an attempt. -/
theorem Wakes.attempt {l' : Lock} {as : List LockRequest} (h : Wakes l l' as) :
    ∀ x' ∈ as, ∃ x xret t t', WakeAttempt l x xret x' t t' ∧ xret ≠ .queued := by
  induction h with
  | done | stopped => intro x' hx'; cases hx'
  | answered hq hacq hret _ ih =>
      intro x' hx'
      rcases List.mem_cons.mp hx' with rfl | hx'
      · exact ⟨_, _, _, _, .now hq hacq, hret⟩
      · obtain ⟨x, xret, t, t', h, hne⟩ := ih x' hx'
        exact ⟨x, xret, t, t', .later hq hacq (Or.inl hret) h, hne⟩
  | advanced hq hacq hlevel _ ih =>
      intro x' hx'
      obtain ⟨x, xret, t, t', h, hne⟩ := ih x' hx'
      exact ⟨x, xret, t, t', .later hq hacq (Or.inr hlevel) h, hne⟩

/-- Every answer of a call of `release` comes from an attempt. -/
theorem Releases.attempt {l' : Lock} {ret : ReleaseStatus} {as : List LockRequest}
    (h : Releases p mode path l ret l' as) :
    ∀ x' ∈ as, ∃ x xret t t', ReleaseAttempt p mode path l x xret x' t t' ∧ xret ≠ .queued := by
  induction h with
  | unlocked hunlock hwake =>
      intro x' hx'
      obtain ⟨x, xret, t, t', h, hne⟩ := hwake.attempt x' hx'
      exact ⟨x, xret, t, t', .unlocked hunlock h, hne⟩
  | descended hname hpre hbelow herase hwake ih =>
      intro x' hx'
      rcases List.mem_append.mp hx' with hx' | hx'
      · obtain ⟨x, xret, t, t', h, hne⟩ := ih x' hx'
        exact ⟨x, xret, _, _, .inside hname hpre h, hne⟩
      · obtain ⟨x, xret, t, t', h, hne⟩ := hwake.attempt x' hx'
        exact ⟨x, xret, t, t', .descended hname hpre hbelow herase h, hne⟩
  | cancelled | notHeld => intro x' hx'; cases hx'

end

end Lock

-- ============================================================================
-- The forest
-- ============================================================================

namespace LockForest

open NamedTree (find)

/-- Exactly the missing locks on the path are added. -/
def Fills (path : LockPath) (f f' : LockForest) : Prop :=
  ∀ ρ, ρ ≠ [] → (f'.node? ρ = none ↔ f.node? ρ = none ∧ ¬ ρ <+: path)

/-- No lock is added. -/
def SameLocks (f f' : LockForest) : Prop := ∀ ρ, f'.node? ρ = none ↔ f.node? ρ = none

/-- What an attempt for X on `path`, by a request of `p` that may create locks, does to the
    forest.  A granted one says in `created` whether the lock is new. -/
def CreatesExactly (path : LockPath) (p : ProcessRef) (ret : AcquireStatus) (created : Bool)
    (f f' : LockForest) : Prop :=
  match ret with
  | .acquired =>
      Fills path f f' ∧ (∃ n, f'.node? path = some n ∧ n.val.lockerX = some p) ∧
        (created = true ↔ f.node? path = none)
  | .queued => SameLocks f f' ∧ created = false
  | .nonExistent => False

/-- No waiting request that may create locks has created one. -/
def Unmarked (f : LockForest) : Prop := f.All fun _ s => s.Unmarked

section

variable {f f' : LockForest} {c : LockName} {l l' : Lock} {p : ProcessRef} {ret : AcquireStatus}
  {created : Bool} {σ : LockPath}

/-- An attempt in the tree of a root is an attempt in the forest. -/
theorem createsExactly_of_tree (hl : f.roots.lookup c = some l) (hl' : f'.roots.lookup c = some l')
    (hother : ∀ d, d ≠ c → f'.roots.lookup d = f.roots.lookup d)
    (h : Lock.CreatesExactly σ p ret created l l') :
    CreatesExactly (c :: σ) p ret created f f' := by
  have hne : ∀ {d ρ}, d ≠ c → f'.node? (d :: ρ) = f.node? (d :: ρ) :=
    fun hd => by simp only [node?, hother _ hd]
  cases ret with
  | nonExistent => exact h
  | acquired =>
      obtain ⟨hfills, hX, hcreated⟩ := h
      refine ⟨?_, by rwa [node?_cons hl'], by rwa [node?_cons hl]⟩
      intro ρ hρ
      cases ρ with
      | nil => exact absurd rfl hρ
      | cons d ρ =>
          by_cases hd : d = c
          · subst hd
            rw [node?_cons hl, node?_cons hl', hfills ρ, List.cons_prefix_cons]
            simp
          · rw [hne hd, List.cons_prefix_cons]
            simp [hd]
  | queued =>
      obtain ⟨hsame, hcreated⟩ := h
      refine ⟨?_, hcreated⟩
      intro ρ
      cases ρ with
      | nil => simp [node?]
      | cons d ρ =>
          by_cases hd : d = c
          · subst hd
            rw [node?_cons hl, node?_cons hl']
            exact hsame ρ
          · rw [hne hd]

/-- A granted attempt in the tree of a new root. -/
theorem createsExactly_of_new_root (hl : f.roots.lookup c = none)
    (hl' : f'.roots.lookup c = some l')
    (hother : ∀ d, d ≠ c → f'.roots.lookup d = f.roots.lookup d)
    (hfills : Lock.Fills σ (Lock.new c) l')
    (hX : ∃ n, find σ l' = some n ∧ n.val.lockerX = some p) (hcreated : created = true) :
    CreatesExactly (c :: σ) p .acquired created f f' := by
  have hnone : ∀ ρ, f.node? (c :: ρ) = none := fun ρ => by simp [node?, hl]
  refine ⟨?_, by rwa [node?_cons hl'], by simp [hcreated, hnone]⟩
  intro ρ hρ
  cases ρ with
  | nil => exact absurd rfl hρ
  | cons d ρ =>
      by_cases hd : d = c
      · subst hd
        rw [node?_cons hl', hnone, hfills ρ, List.cons_prefix_cons]
        cases ρ with
        | nil => simp
        | cons e ρ => simp [Lock.new, find]
      · rw [node?, node?, hother d hd, List.cons_prefix_cons]
        simp [hd]

end

/-- `Lock_Forest::create` with `acquire_X` is an attempt of its own. -/
theorem create_attempt (f : LockForest) (address : Nat) (p : Process) (pathStr : PathString) :
    ∃ ret created f',
      CreatesExactly (splitPath pathStr) p.object ret created f f' ∧
      f.create address p pathStr true =
        .ok (if ret = .queued then .queued else if created then .created else .exists, f',
          p.addHeldLock pathStr Mode.X.toByte) := by
  obtain ⟨r, ret, f', l, l', r', hcase, henter, hret, hrun⟩ := f.create_acquire_cases address p pathStr
  have hafter := henter.updates.after
  have hother := henter.updates.other
  have hacq := henter.acquires
  refine ⟨ret, r'.lockCreated, f', ?_, hrun⟩
  rw [splitPath_eq pathStr]
  rcases hcase with ⟨hl, rfl⟩ | ⟨hl, rfl, rfl⟩
  · rw [remaining_of_start (s := pathStr) rfl rfl] at hacq
    exact createsExactly_of_tree hl hafter hother (hacq.createsExactly rfl rfl rfl)
  · rw [remaining_of_start (s := pathStr) rfl rfl] at hacq
    obtain ⟨rfl, -⟩ := hacq.of_fresh (π := []) rfl rfl rfl
    obtain ⟨n, m, hn, hm, hholds⟩ := hacq.holds rfl
    obtain rfl : .X = m := Mode.toByte_injective hm
    exact createsExactly_of_new_root hl hafter hother (hacq.fills rfl) ⟨n, hn, hholds⟩
      (hacq.lockCreated_of rfl)

end LockForest

-- ============================================================================
-- Runs
-- ============================================================================

namespace Backend

/-- While the backend, in state `b`, executes `op`, it calls `acquire` for the waiting
    request `x`, which becomes `x'`; the forest is `f₀` before and `f₁` after this call. -/
inductive Attempt (b : Backend) (op : Op) : LockRequest → AcquireStatus → LockRequest →
    LockForest → LockForest → Prop where
  | wake {b₁ pid path mode p l x xret x' t t'}
      (hwithin : Within b op b₁ (.releaseLock pid path mode))
      (hp : b₁.processes.lookup pid = some p)
      (hl : b₁.forest.roots.lookup (rootName path) = some l)
      (h : Lock.ReleaseAttempt p.object mode (splitPath path).tail l x xret x' t t') :
      Attempt b op x xret x' (b₁.forest.setRoot (rootName path) t)
        (b₁.forest.setRoot (rootName path) t')

theorem unmarked_of_release {f f' : LockForest} {p : ProcessRef} {mode : UInt8}
    {path rest : LockPath} {ret : ReleaseStatus} {as : List LockRequest} {c : LockName}
    {l l' : Lock} (h : LockForest.Leaves f p mode path ret f' as c rest l l') (hf : f.Sound)
    (hunmarked : f.Unmarked) : f'.Unmarked :=
  h.updates.trees hunmarked (fun _ => Lock.all_new c (fun _ hr => by cases hr))
    fun hl => h.releases.unmarked (hf.seats c l h.lookup) hl

/-- A move keeps the marks of waiting requests, if its request has created nothing. -/
theorem Move.unmarked {b b' : Backend} {op : Op} {res : Result} {answered : Finset LockRequest}
    (h : Move b op res answered b') (hop : ∀ pid path, op ≠ .createLock pid path true)
    (hb : b.forest.Sound) (hunmarked : b.forest.Unmarked) : b'.forest.Unmarked := by
  cases h with
  | idle | tick | register => exact hunmarked
  | @enter _ _ pid path mode create p r ret f' l l' r' hask hp hsame henter =>
      have hcreate : create = false := by
        cases op with
        | registerProcess | unregisterProcess | releaseLock => cases hask
        | createLock pid path acquireX =>
            cases acquireX with
            | true => exact absurd rfl (hop pid path)
            | false => cases hask
        | acquireLock => cases hask; rfl
      refine henter.updates.trees hunmarked (fun _ => Lock.all_new _ (fun _ hr => by cases hr))
        fun hl => ?_
      refine henter.acquires.unmarked (createsInX_of_asks hask hsame) (fun hmay => ?_) hl
      rw [hsame.createMissing] at hmay
      rw [show (p.request b.nextRequest path mode create).createMissing = create from rfl,
        hcreate] at hmay
      cases hmay
  | add hp hl =>
      exact (LockForest.updates_setRoot hl _).all_of_adds (LockForest.createNotHeld_adds ..)
        (fun _ _ hr => by cases hr) hunmarked
  | release hp hleave => exact unmarked_of_release hleave hb hunmarked

/-- A created and acquired lock leaves no marked request behind. -/
theorem unmarked_of_create {f f' : LockForest} {address : Nat} {p p' : Process}
    {path : PathString} {ret : CreateStatus} (hunmarked : f.Unmarked)
    (h : f.create address p path true = .ok (ret, f', p')) : f'.Unmarked := by
  obtain ⟨r, aret, f₁, l, l', r', hcase, henter, -, hrun⟩ := f.create_acquire_cases address p path
  rw [hrun] at h
  cases h
  have hupd := henter.updates
  have hacq := henter.acquires
  refine hupd.trees hunmarked (fun _ => Lock.all_new _ (fun _ hr => by cases hr)) fun hl => ?_
  rcases hcase with ⟨-, rfl⟩ | ⟨-, rfl, rfl⟩
  · exact hacq.unmarked (fun _ => rfl) (fun _ => rfl) hl
  · -- in a new tree nobody waits
    obtain ⟨-, hempty⟩ := hacq.of_fresh rfl rfl rfl
    intro x hx y hy
    rw [hempty x hx] at hy
    cases hy

theorem Step.unmarked {b b' : Backend} {e : Event} (h : Step b e b') (hb : b.forest.Sound)
    (hunmarked : b.forest.Unmarked) : b'.forest.Unmarked := by
  by_cases hop : ∃ pid path, e.op = .createLock pid path true
  · obtain ⟨pid, path, hop⟩ := hop
    obtain ⟨fuel, h⟩ := h
    rw [hop] at h
    obtain ⟨⟨res, b₁⟩, hrun, h⟩ := bind_eq_ok.mp h
    obtain ⟨-, -, rfl⟩ : Result.created res = e.result ∧ ∅ = e.answered ∧ b₁ = b' := by
      simpa using h
    rw [createLock] at hrun
    cases hp : b.processes.lookup pid with
    | none =>
        simp only [hp] at hrun
        cases hrun
        exact hunmarked
    | some p =>
        simp only [hp] at hrun
        obtain ⟨⟨ret, f', p'⟩, hcreate, hrun⟩ := bind_eq_ok.mp hrun
        have hf' := unmarked_of_create hunmarked hcreate
        cases ret with
        | created | queued | parentNotHeld => cases hrun; exact hf'
        | «exists» => cases hrun; exact hf'
  · have hinv := Step.invariant (fun b => b.forest.Sound ∧ b.forest.Unmarked) h ⟨hb, hunmarked⟩ ?_
      fun _ _ _ hb => hb
    · exact hinv.2
    · rintro b₁ op res answered b₂ hwithin ⟨hb, hunmarked⟩ hmove
      refine ⟨hmove.forest_sound hb, hmove.unmarked (fun pid path heq => ?_) hb hunmarked⟩
      subst heq
      exact hop ⟨pid, path, (hwithin.op_eq_of_asks rfl).symm⟩

theorem Reachable.unmarked {b : Backend} (h : Reachable b) : b.forest.Unmarked := by
  have hinv := Lts.Reachable.invariant (fun b => b.forest.Sound ∧ b.forest.Unmarked) h
    ⟨LockForest.sound_empty, LockForest.all_empty⟩ ?_
  · exact hinv.2
  · rintro b e b' ⟨hb, hunmarked⟩ hstep
    exact ⟨Step.forest_sound hstep hb, Step.unmarked hstep hb hunmarked⟩

/-- The states in which an operation makes its calls. -/
theorem Within.invariant (Inv : Backend → Prop) {b b₁ : Backend} {op op₁ : Op}
    (h : Within b op b₁ op₁) (hb : Inv b)
    (hmove : ∀ {b₁ pid path mode res answered b₂}, Inv b₁ →
      Move b₁ (.releaseLock pid path mode) res answered b₂ → Inv b₂) : Inv b₁ := by
  cases h with
  | self => exact hb
  | release h =>
      refine h.invariant Inv hb ?_
      intro b₁ op res answered b₂ hwithin hb hmove'
      cases hwithin with
      | self =>
          cases hmove' with
          | idle => exact hb
          | tick hop => cases hop
          | enter hask => cases hask
      | release => exact hmove hb hmove'

/-- What a call of `release` answers comes from attempts. -/
theorem attempt_of_move {b b₁ b₂ : Backend} {op : Op} {pid : UInt32} {path : PathString}
    {mode : UInt8} {res : Result} {answered : Finset LockRequest}
    (hwithin : Within b op b₁ (.releaseLock pid path mode))
    (h : Move b₁ (.releaseLock pid path mode) res answered b₂) :
    ∀ x' ∈ answered, ∃ x xret f₀ f₁, Attempt b op x xret x' f₀ f₁ ∧ xret ≠ .queued := by
  intro x' hx'
  cases h with
  | idle => simp at hx'
  | tick hop => cases hop
  | enter hask => cases hask
  | release hp hleave =>
      obtain ⟨x, xret, t, t', hrel, hne⟩ := hleave.releases.attempt x' (List.mem_toFinset.mp hx')
      exact ⟨x, xret, _, _, .wake hwithin hp hleave.lookup hrel, hne⟩

theorem Unregistering.attempt {b b₁ : Backend} {id : UInt32} {answered : Finset LockRequest}
    {locks : List (PathString × UInt8)} (h : Unregistering b id answered b₁ locks) :
    ∀ x' ∈ answered, ∃ x xret f₀ f₁,
      Attempt b (.unregisterProcess id) x xret x' f₀ f₁ ∧ xret ≠ .queued := by
  induction h with
  | start =>
      intro x' hx'
      simp at hx'
  | pass _ _ _ ih => exact ih
  | call h hrel ih =>
      intro x' hx'
      rcases Finset.mem_union.mp hx' with hx' | hx'
      · exact ih x' hx'
      · exact attempt_of_move (.release h) (move_of_releaseLock hrel) x' hx'

/-- Every answer that an operation gives comes from an attempt. -/
theorem Step.attempt {b b' : Backend} {e : Event} (h : Step b e b') :
    ∀ x' ∈ e.answered, ∃ x xret f₀ f₁, Attempt b e.op x xret x' f₀ f₁ ∧ xret ≠ .queued := by
  intro x' hx'
  rcases h.answered_cases hx' with
    ⟨pid, path, mode, p, f', as, l, l', hop, hp, hans, hleave, -⟩ | ⟨id, b₁, hop, hloop, -⟩
  · rw [hans] at hx'
    rw [hop]
    exact attempt_of_move .self (.release hp hleave) x' hx'
  · rw [hop]
    exact hloop.attempt x' hx'

/-- Creating a lock and acquiring it.  A request for that adds no lock while it waits.  When
    it is granted, at once or in a wake-up loop, its process gets X on the named lock, exactly
    the locks that were missing on the path are added, and a new lock is reported if and only
    if the named lock was missing.  It is never told that there is no such lock. -/
theorem create_acquire_exact {b : Backend} (h : b.Reachable) :
    (∀ pid p address path, b.processes.lookup pid = some p →
      ∃ ret created f',
        LockForest.CreatesExactly (splitPath path) p.object ret created b.forest f' ∧
        b.forest.create address p path true =
          .ok (if ret = .queued then .queued else if created then .created else .exists, f',
            p.addHeldLock path Mode.X.toByte)) ∧
    (∀ op x xret x' f₀ f₁, Attempt b op x xret x' f₀ f₁ → x.createMissing = true →
      LockForest.CreatesExactly x.path x.requester xret x'.lockCreated f₀ f₁) ∧
    ∀ e b', Step b e b' → ∀ x' ∈ e.answered, x'.createMissing = true →
      ∃ x f₀ f₁, Attempt b e.op x .acquired x' f₀ f₁ ∧ x.path = x'.path ∧
        Daemon.updateStatus x' =
          if f₀.node? x'.path = none then Comm.ResponseStatus.success
            else Comm.ResponseStatus.lockExists := by
  have hattempt : ∀ op x xret x' f₀ f₁, Attempt b op x xret x' f₀ f₁ → x.createMissing = true →
      LockForest.CreatesExactly x.path x.requester xret x'.lockCreated f₀ f₁ := by
    rintro op x xret x' f₀ f₁ ⟨hwithin, hp, hl, hrel⟩ hcreate
    obtain ⟨hsound, hunmarked⟩ := hwithin.invariant
      (fun b => b.forest.Sound ∧ b.forest.Unmarked) ⟨h.forest_sound, h.unmarked⟩
      fun hb hmove => ⟨hmove.forest_sound hb.1, hmove.unmarked (by simp) hb.1 hb.2⟩
    obtain ⟨σ, hσ, hcreates⟩ := hrel.createsExactly (hsound.seats _ _ hl) (hunmarked _ _ hl) hcreate
    rw [hσ]
    refine LockForest.createsExactly_of_tree (SortedMap.lookup_set_self hl)
      (SortedMap.lookup_set_self hl) (fun d hd => ?_) hcreates
    exact (SortedMap.lookup_set_ne hd).trans (SortedMap.lookup_set_ne hd).symm
  refine ⟨fun pid p address path _ => b.forest.create_attempt address p path, hattempt, ?_⟩
  intro e b' hstep x' hx' hcreate
  obtain ⟨x, xret, f₀, f₁, hx, hne⟩ := hstep.attempt x' hx'
  have hsame : Lock.SameRequest x x' := by
    obtain ⟨-, -, -, hrel⟩ := hx
    exact hrel.same
  have hcreates := hattempt _ _ _ _ _ _ hx (hsame.createMissing ▸ hcreate)
  cases xret with
  | queued => exact absurd rfl hne
  | nonExistent => exact absurd hcreates not_false
  | acquired =>
      obtain ⟨-, -, hcreated⟩ := hcreates
      refine ⟨x, f₀, f₁, hx, hsame.path.symm, ?_⟩
      rw [hsame.path, Daemon.updateStatus, if_pos hcreate]
      simp only [hcreated]

/-- Process 0 holds X on `a`, process 1 waits to create `a.b`. -/
def creating : List Op := owning ++ [.createLock 1 [0x61, 0x2E, 0x62] true]

theorem create_acquire_exact_creating :
    ∃ x' ∈ answeredBy 1 (after 1 creating) (.releaseLock 0 [0x61] 2), x'.createMissing = true ∧
      Daemon.updateStatus x' = Comm.ResponseStatus.success ∧
      ∃ x f₀ f₁, Attempt (after 1 creating) (.releaseLock 0 [0x61] 2) x .acquired x' f₀ f₁ ∧
        f₀.node? x'.path = none := by
  have hres : ((after 1 creating).step 1 (.releaseLock 0 [0x61] 2)).toOption.map Prod.fst =
      some (.released .released) := by decide +kernel
  have hanswered : ∃ x' ∈ answeredBy 1 (after 1 creating) (.releaseLock 0 [0x61] 2),
      x'.createMissing = true ∧ Daemon.updateStatus x' = Comm.ResponseStatus.success := by
    decide +kernel
  obtain ⟨x', hx', hcreate, hstatus⟩ := hanswered
  obtain ⟨-, -, hreports⟩ := create_acquire_exact (reachable_after 1 creating)
  obtain ⟨x, f₀, f₁, hattempt, -, hreported⟩ := hreports _ _ (step_next hres) x' hx' hcreate
  refine ⟨x', hx', hcreate, hstatus, x, f₀, f₁, hattempt, ?_⟩
  by_contra hfound
  rw [hstatus, if_neg hfound] at hreported
  exact absurd hreported (by decide)

end Backend

end Tclm.Server
