/-
  Tclm.Server.Runs

  One operation of the backend, taken apart.

  `Move` lists what an operation other than `unregister_process` can do, in terms of
  the forest.  `unregister_process` is a loop of releases followed by the removal of
  the process; `Unregistering` follows that loop, and its calls are ordinary
  release operations.  So an invariant is kept by every operation as soon as moves
  and the removal keep it (`Step.invariant`); `Within` names the states in which
  the calls of an operation are made, for properties that need more than the
  invariant.
-/

import Tclm.Server.Backend
import Tclm.Server.ForestSpec

namespace Tclm.Server

/-- The operation's request was queued. -/
def Backend.Result.isQueued : Backend.Result → Bool
  | .created .queued => true
  | .acquired .queued => true
  | _ => false

/-- The process for which an operation makes a `Lock_Request`. -/
def Backend.Op.requestFor : Backend.Op → Option UInt32
  | .createLock pid _ _ => some pid
  | .acquireLock pid _ _ => some pid
  | _ => none

/-- Process, path, mode and `create_missing` of the request an operation acquires with. -/
def Backend.Op.asks : Backend.Op → Option (UInt32 × PathString × UInt8 × Bool)
  | .acquireLock pid path mode => some (pid, path, mode, false)
  | .createLock pid path true => some (pid, path, Mode.X.toByte, true)
  | _ => none

/-- The request a process makes. -/
def Process.request (p : Process) (address : Nat) (path : PathString) (mode : UInt8)
    (createMissing : Bool) : LockRequest :=
  { address, mode, requester := p.object, path := splitPath path, createMissing }

namespace Backend

open LockForest (Enters Leaves)
open Lock (SameRequest)

/-- What an operation, except `unregister_process`, does to the backend. -/
inductive Move (b : Backend) : Op → Result → Finset LockRequest → Backend → Prop where
  /-- Nothing happens. -/
  | idle {op res} (hop : ∀ pid, op.requestFor = some pid → b.processes.lookup pid = none)
      (hres : res.isQueued = false) : Move b op res ∅ b
  /-- A request was made and thrown away. -/
  | tick {op res pid} (hop : op.requestFor = some pid) (hres : res.isQueued = false) :
      Move b op res ∅ { b with nextRequest := b.nextRequest + 1 }
  | register (hfree : b.processes.lookup b.nextId = none) :
      Move b .registerProcess (.registered (some b.nextId)) ∅
        { b with
          processes := b.processes.insert (b.nextId, ⟨b.nextProcess, b.nextId, SortedList.empty⟩)
          nextId := b.nextId + 1
          nextProcess := b.nextProcess + 1 }
  /-- A request was granted or queued. -/
  | enter {op res pid path mode create p r ret f' l l' r'}
      (hask : op.asks = some (pid, path, mode, create)) (hp : b.processes.lookup pid = some p)
      (hsame : SameRequest (p.request b.nextRequest path mode create) r)
      (henter : Enters b.forest r ret f' (rootName path) l l' r') (hret : ret ≠ .nonExistent)
      (hres : res.isQueued = decide (ret = .queued)) :
      Move b op res ∅
        { b.update pid f' (p.addHeldLock path mode) with nextRequest := b.nextRequest + 1 }
  /-- Locks were created without being acquired. -/
  | add {pid path res p l} (hp : b.processes.lookup pid = some p)
      (hl : b.forest.roots.lookup (rootName path) = some l) (hres : res.isQueued = false) :
      Move b (.createLock pid path false) res ∅
        { b with
          forest := b.forest.setRoot (rootName path)
            (Lock.createNotHeld p.object (splitPath path) l).2
          nextRequest := b.nextRequest + 1 }
  /-- Something was released. -/
  | release {pid path mode p f' as l l'} (hp : b.processes.lookup pid = some p)
      (hleave : Leaves b.forest p.object mode (splitPath path) .success f' as (rootName path)
        (splitPath path).tail l l') :
      Move b (.releaseLock pid path mode) (.released .released) as.toFinset
        (b.update pid f' (p.removeHeldLock path mode))

/-- Writing back what was there changes nothing. -/
theorem update_self {b : Backend} {pid : UInt32} {p : Process}
    (hp : b.processes.lookup pid = some p) : b.update pid b.forest p = b := by
  rw [update, SortedMap.set_self hp]

-- ============================================================================
-- Operations are moves
-- ============================================================================

theorem move_of_register (b : Backend) :
    Move b .registerProcess (.registered b.registerProcess.1) ∅ b.registerProcess.2 := by
  unfold registerProcess
  split
  · exact .idle (fun _ hop => by cases hop) rfl
  · rename_i hfree
    exact .register hfree

theorem move_of_acquireLock {b b' : Backend} {pid : UInt32} {path : PathString} {mode : UInt8}
    {res : AcquireLockResult} (h : b.acquireLock pid path mode = .ok (res, b')) :
    Move b (.acquireLock pid path mode) (.acquired res) ∅ b' := by
  unfold acquireLock at h
  cases hp : b.processes.lookup pid with
  | none =>
      simp only [hp] at h
      cases h
      exact .idle (fun pid' hop => by cases hop; exact hp) rfl
  | some p =>
      simp only [hp] at h
      rcases b.forest.acquire_spec b.nextRequest p path mode with
        ⟨-, hrun⟩ | ⟨ret, l, l', r', hl, henter, hrun⟩
      · simp only [hrun, bind, Except.bind, update_self hp] at h
        cases h
        exact .tick rfl rfl
      · simp only [hrun, bind, Except.bind] at h
        have hsame : SameRequest (p.request b.nextRequest path mode false)
            (LockForest.acquireRequest b.nextRequest p path mode) := .refl _
        cases ret with
        | acquired =>
            cases h
            exact .enter rfl hp hsame henter (by simp) rfl
        | queued =>
            cases h
            exact .enter rfl hp hsame henter (by simp) rfl
        | nonExistent =>
            -- the call below left the tree alone
            obtain rfl := henter.acquires.unchanged
            simp only [if_true, LockForest.setRoot_self hl, update_self hp] at h
            cases h
            exact .tick rfl rfl

theorem move_of_createLock {b b' : Backend} {pid : UInt32} {path : PathString} {acquireX : Bool}
    {res : CreateLockResult} (h : b.createLock pid path acquireX = .ok (res, b')) :
    Move b (.createLock pid path acquireX) (.created res) ∅ b' := by
  unfold createLock at h
  cases hp : b.processes.lookup pid with
  | none =>
      simp only [hp] at h
      cases h
      exact .idle (fun pid' hop => by cases hop; exact hp) rfl
  | some p =>
      simp only [hp] at h
      cases acquireX with
      | true =>
          obtain ⟨r, ret, f', l, l', r', hsame, henter, hret, hrun⟩ :=
            b.forest.create_acquire_spec b.nextRequest p path
          simp only [hrun, bind, Except.bind] at h
          have hres : ∀ res : CreateLockResult, (res = .queued ↔ ret = .queued) →
              Move b (.createLock pid path true) (.created res) ∅
                { b.update pid f' (p.addHeldLock path Mode.X.toByte) with
                  nextRequest := b.nextRequest + 1 } := by
            intro res hiff
            refine .enter rfl hp hsame henter hret ?_
            by_cases hq : ret = .queued
            · rw [hiff.mpr hq, hq]
              rfl
            · have hne : res ≠ .queued := fun hres => hq (hiff.mp hres)
              cases res <;> simp_all [Result.isQueued]
          cases ret with
          | acquired =>
              by_cases hcreated : r'.lockCreated = true
              · simp only [hcreated, reduceCtorEq, if_false, if_true] at h
                cases h
                exact hres _ (by simp)
              · simp only [hcreated, reduceCtorEq, if_false] at h
                cases h
                exact hres _ (by simp)
          | queued =>
              cases h
              exact hres _ (by simp)
          | nonExistent => exact absurd rfl hret
      | false =>
          obtain ⟨ret, f', hret, hrun, hf⟩ := b.forest.create_notHeld_spec b.nextRequest p path
          simp only [hrun, bind, Except.bind] at h
          have hmove : ∀ res : CreateLockResult, res ≠ .queued →
              Move b (.createLock pid path false) (.created res) ∅
                { b.update pid f' p with nextRequest := b.nextRequest + 1 } := by
            intro res hne
            have hres : (Result.created res).isQueued = false := by
              cases res <;> simp_all [Result.isQueued]
            rcases hf with rfl | ⟨l, hl, rfl⟩
            · rw [update_self hp]
              exact .tick rfl hres
            · rw [update, SortedMap.set_self hp]
              exact .add hp hl hres
          cases ret with
          | created | parentNotHeld => cases h; exact hmove _ (by simp)
          | «exists» => cases h; exact hmove _ (by simp)
          | queued => exact absurd rfl hret

theorem move_of_releaseLock {b b' : Backend} {pid : UInt32} {path : PathString} {mode : UInt8}
    {res : ReleaseLockResult} {answered : Finset LockRequest}
    (h : b.releaseLock pid path mode = .ok (res, answered, b')) :
    Move b (.releaseLock pid path mode) (.released res) answered b' := by
  unfold releaseLock at h
  cases hp : b.processes.lookup pid with
  | none =>
      simp only [hp] at h
      cases h
      exact .idle (fun _ hop => by cases hop) rfl
  | some p =>
      simp only [hp] at h
      obtain ⟨⟨ret, f', p', answered'⟩, hrun, h⟩ := bind_eq_ok.mp h
      obtain ⟨rfl, hcase⟩ := LockForest.release_spec hrun
      rcases hcase with ⟨-, rfl, rfl, rfl⟩ | ⟨as, l, l', rfl, hleave⟩
      · simp only [reduceCtorEq, if_false, update_self hp] at h
        cases h
        exact .idle (fun _ hop => by cases hop) rfl
      · cases ret with
        | success =>
            cases h
            exact .release hp hleave
        | notHeld =>
            -- nothing was found, so nothing was changed
            obtain ⟨rfl, rfl, -, -⟩ := hleave.releases.of_notHeld
            have hf : f' = b.forest := hleave.result.trans (LockForest.setRoot_self hleave.lookup)
            simp only [hf, reduceCtorEq, if_false, update_self hp] at h
            cases h
            exact .idle (fun _ hop => by cases hop) rfl

-- ============================================================================
-- The loop of unregister_process
-- ============================================================================

@[simp] theorem lookup_update {b : Backend} {pid : UInt32} {f : LockForest} {p p' : Process}
    (hp : b.processes.lookup pid = some p) : (b.update pid f p').processes.lookup pid = some p' :=
  SortedMap.lookup_set_self hp

theorem lookup_update_ne {b : Backend} {pid id : UInt32} {f : LockForest} {p : Process}
    (hid : id ≠ pid) : (b.update pid f p).processes.lookup id = b.processes.lookup id :=
  SortedMap.lookup_set_ne hid

theorem update_update {b : Backend} {pid : UInt32} {f f' : LockForest} {p p' : Process} :
    (b.update pid f p).update pid f' p' = b.update pid f' p' := by
  simp only [update, SortedMap.set_set]

/-- `processes.erase (id)` -/
def drop (b : Backend) (id : UInt32) : Backend := { b with processes := b.processes.erase id }

theorem drop_update {b : Backend} {id : UInt32} {f : LockForest} {p : Process} :
    (b.update id f p).drop id = { b with forest := f, processes := b.processes.erase id } := by
  simp only [drop, update, SortedMap.erase_set]

/-- Who is registered after the removal of a process was registered before. -/
theorem lookup_of_drop {b : Backend} {id id' : UInt32} {p : Process}
    (hp : (b.drop id).processes.lookup id' = some p) : b.processes.lookup id' = some p := by
  by_cases hid : id' = id
  · subst hid
    exact absurd (SortedMap.lookup_erase_self.symm.trans hp) (by simp)
  · exact (SortedMap.lookup_erase_ne hid).symm.trans hp

/-- The state `b₁` is reached in the release loop of `unregister_process (id)`, called in
    `b`.  The requests `answered` have been answered so far, the entries `locks` of the
    copy of `held_locks` are still to be visited in the current pass. -/
inductive Unregistering (b : Backend) (id : UInt32) :
    Finset LockRequest → Backend → List (PathString × UInt8) → Prop where
  | start {p} (hp : b.processes.lookup id = some p) : Unregistering b id ∅ b []
  | pass {answered b₁ p} (h : Unregistering b id answered b₁ [])
      (hp : b₁.processes.lookup id = some p) (hcount : p.getLockCount > 0) :
      Unregistering b id answered b₁ p.heldLocks.entries
  | call {answered b₁ b₂ path mode locks res more}
      (h : Unregistering b id answered b₁ ((path, mode) :: locks))
      (hrel : b₁.releaseLock id path mode = .ok (res, more, b₂)) :
      Unregistering b id (answered ∪ more) b₂ locks

theorem Unregistering.registered {b b₁ : Backend} {id : UInt32} {answered : Finset LockRequest}
    {locks : List (PathString × UInt8)} (h : Unregistering b id answered b₁ locks) :
    ∃ p, b.processes.lookup id = some p := by
  induction h with
  | start hp => exact ⟨_, hp⟩
  | pass _ _ _ ih => exact ih
  | call _ _ ih => exact ih

/-- A call of `Lock_Forest::release` for a registered process is a release operation. -/
theorem releaseLock_of_release {b : Backend} {id : UInt32} {p p' : Process} {path : PathString}
    {mode : UInt8} {ret : ReleaseStatus} {f' : LockForest} {more : Finset LockRequest}
    (hp : b.processes.lookup id = some p)
    (h : b.forest.release p path mode = .ok (ret, f', p', more)) :
    b.releaseLock id path mode =
      .ok (if ret = .success then .released else .notHeld, more, b.update id f' p') := by
  cases ret with
  | success => simp [releaseLock, hp, h, bind, Except.bind]
  | notHeld => simp [releaseLock, hp, h, bind, Except.bind]

/-- One pass is a sequence of release operations. -/
theorem unregistering_of_releasePass {b b₁ : Backend} {id : UInt32} {p p' : Process}
    {locks : List (PathString × UInt8)} {f' : LockForest} {answered answered' : Finset LockRequest}
    (h : Unregistering b id answered b₁ locks) (hp : b₁.processes.lookup id = some p)
    (hrun : releasePass locks b₁.forest p answered = .ok (f', p', answered')) :
    Unregistering b id answered' (b₁.update id f' p') [] := by
  induction locks generalizing b₁ p answered with
  | nil =>
      cases hrun
      rw [update_self hp]
      exact h
  | cons e locks ih =>
      obtain ⟨path, mode⟩ := e
      simp only [releasePass] at hrun
      obtain ⟨⟨ret, f₁, p₁, more⟩, hrel, hrun⟩ := bind_eq_ok.mp hrun
      have hnext := h.call (releaseLock_of_release hp hrel)
      have hpass := ih hnext (lookup_update hp) hrun
      rwa [update_update] at hpass

/-- The whole loop, when it ends. -/
theorem unregistering_of_releaseLoop {fuel : Nat} {b b₁ : Backend} {id : UInt32} {p p' : Process}
    {f' : LockForest} {answered answered' : Finset LockRequest}
    (h : Unregistering b id answered b₁ []) (hp : b₁.processes.lookup id = some p)
    (hrun : releaseLoop fuel b₁.forest p answered = .ok (f', p', answered')) :
    Unregistering b id answered' (b₁.update id f' p') [] ∧ p'.getLockCount = 0 := by
  induction fuel generalizing b₁ p answered with
  | zero =>
      simp only [releaseLoop] at hrun
      split at hrun
      · cases hrun
      · rename_i hcount
        cases hrun
        rw [update_self hp]
        exact ⟨h, Nat.eq_zero_of_not_pos hcount⟩
  | succ fuel ih =>
      simp only [releaseLoop] at hrun
      split at hrun
      · rename_i hcount
        obtain ⟨⟨f₁, p₁, answered₁⟩, hpass, hrun⟩ := bind_eq_ok.mp hrun
        have hend := unregistering_of_releasePass (h.pass hp hcount) hp hpass
        have hloop := ih hend (lookup_update hp) hrun
        rwa [update_update] at hloop
      · rename_i hcount
        cases hrun
        rw [update_self hp]
        exact ⟨h, Nat.eq_zero_of_not_pos hcount⟩

/-- A returning `unregister_process` runs its loop to the end and removes the process. -/
theorem unregisterProcess_spec {fuel : Nat} {b b' : Backend} {id : UInt32} {res : UnregisterResult}
    {answered : Finset LockRequest} (h : b.unregisterProcess fuel id = .ok (res, answered, b')) :
    (b.processes.lookup id = none ∧ res = .nonExistent ∧ answered = ∅ ∧ b' = b) ∨
    ∃ b₁ p, Unregistering b id answered b₁ [] ∧ b₁.processes.lookup id = some p ∧
      p.getLockCount = 0 ∧ res = .success ∧ b' = b₁.drop id := by
  unfold unregisterProcess tryDestroy at h
  cases hp : b.processes.lookup id with
  | none =>
      simp only [hp] at h
      cases h
      exact Or.inl ⟨rfl, rfl, rfl, rfl⟩
  | some p =>
      simp only [hp, if_true] at h
      obtain ⟨⟨f, p', answered'⟩, hloop, h⟩ := bind_eq_ok.mp h
      obtain ⟨hend, hcount⟩ := unregistering_of_releaseLoop (.start hp) hp hloop
      cases h
      exact Or.inr ⟨b.update id f p', p', hend, lookup_update hp, hcount, rfl, drop_update.symm⟩

/-- An operation is a move, or it is an `unregister_process` that runs its loop. -/
theorem Step.cases {b b' : Backend} {e : Event} (h : Step b e b') :
    Move b e.op e.result e.answered b' ∨
    ∃ id b₁ p, e.op = .unregisterProcess id ∧ Unregistering b id e.answered b₁ [] ∧
      b₁.processes.lookup id = some p ∧ p.getLockCount = 0 ∧
      e.result = .unregistered .success ∧ b' = b₁.drop id := by
  obtain ⟨fuel, h⟩ := h
  obtain ⟨op, res, answered⟩ := e
  cases op with
  | registerProcess =>
      cases h
      exact Or.inl (move_of_register b)
  | unregisterProcess id =>
      obtain ⟨⟨res', answered', b₁⟩, hrun, h⟩ := bind_eq_ok.mp h
      cases h
      rcases unregisterProcess_spec hrun with ⟨-, -, rfl, rfl⟩ | ⟨b₁, p, hloop, hp, hcount, rfl, rfl⟩
      · exact Or.inl (.idle (fun _ hop => by cases hop) rfl)
      · exact Or.inr ⟨id, b₁, p, rfl, hloop, hp, hcount, rfl, rfl⟩
  | createLock pid path acquireX =>
      obtain ⟨⟨res', b₁⟩, hrun, h⟩ := bind_eq_ok.mp h
      cases h
      exact Or.inl (move_of_createLock hrun)
  | acquireLock pid path mode =>
      obtain ⟨⟨res', b₁⟩, hrun, h⟩ := bind_eq_ok.mp h
      cases h
      exact Or.inl (move_of_acquireLock hrun)
  | releaseLock pid path mode =>
      obtain ⟨⟨res', answered', b₁⟩, hrun, h⟩ := bind_eq_ok.mp h
      cases h
      exact Or.inl (move_of_releaseLock hrun)

/-- A `release_lock` is a call of `releaseLock`. -/
theorem Step.releaseLock_eq {b b' : Backend} {e : Event} {pid : UInt32} {path : PathString}
    {mode : UInt8} (h : Step b e b') (hop : e.op = .releaseLock pid path mode) :
    ∃ res, b.releaseLock pid path mode = .ok (res, e.answered, b') := by
  obtain ⟨fuel, h⟩ := h
  rw [hop] at h
  obtain ⟨⟨res, answered, b₁⟩, hrun, h⟩ := bind_eq_ok.mp h
  obtain ⟨op, res', answered'⟩ := e
  cases h
  exact ⟨res, hrun⟩

/-- The call `op'` is made in state `b₁` while the backend, in state `b`, executes `op`. -/
inductive Within (b : Backend) : Op → Backend → Op → Prop where
  | self {op} : Within b op b op
  | release {id answered b₁ path mode locks}
      (h : Unregistering b id answered b₁ ((path, mode) :: locks)) :
      Within b (.unregisterProcess id) b₁ (.releaseLock id path mode)

/-- Requests are made by the operation itself, not by a loop. -/
theorem Within.op_eq_of_asks {b b₁ : Backend} {op op₁ : Op}
    {x : UInt32 × PathString × UInt8 × Bool} (h : Within b op b₁ op₁) (hask : op₁.asks = some x) :
    op₁ = op := by
  cases h with
  | self => rfl
  | release => cases hask

/-- What the calls of the loop keep is kept by the loop. -/
theorem Unregistering.invariant (Inv : Backend → Prop) {b b₁ : Backend} {id : UInt32}
    {answered : Finset LockRequest} {locks : List (PathString × UInt8)}
    (h : Unregistering b id answered b₁ locks) (hb : Inv b)
    (hmove : ∀ {b₁ op res answered b₂}, Within b (.unregisterProcess id) b₁ op → Inv b₁ →
      Move b₁ op res answered b₂ → Inv b₂) : Inv b₁ := by
  induction h with
  | start => exact hb
  | pass _ _ _ ih => exact ih
  | call h hrel ih => exact hmove (.release h) ih (move_of_releaseLock hrel)

/-- What moves and the removal of processes keep is kept by every operation. -/
theorem Step.invariant (Inv : Backend → Prop) {b b' : Backend} {e : Event} (h : Step b e b')
    (hb : Inv b)
    (hmove : ∀ {b₁ op res answered b₂}, Within b e.op b₁ op → Inv b₁ →
      Move b₁ op res answered b₂ → Inv b₂)
    (hdrop : ∀ {b₁ id p}, e.op = .unregisterProcess id → b₁.processes.lookup id = some p →
      p.getLockCount = 0 → Inv b₁ → Inv (b₁.drop id)) : Inv b' := by
  rcases h.cases with hmove' | ⟨id, b₁, p, hop, hloop, hp, hcount, -, rfl⟩
  · exact hmove .self hb hmove'
  · refine hdrop hop hp hcount (hloop.invariant Inv hb ?_)
    rw [← hop]
    exact hmove

/-- Only releases and `unregister_process` answer requests. -/
theorem Step.answered_cases {b b' : Backend} {e : Event} {r : LockRequest} (h : Step b e b')
    (hr : r ∈ e.answered) :
    (∃ pid path mode p f' as l l', e.op = .releaseLock pid path mode ∧
      b.processes.lookup pid = some p ∧ e.answered = as.toFinset ∧
      Leaves b.forest p.object mode (splitPath path) .success f' as (rootName path)
        (splitPath path).tail l l' ∧
      b' = b.update pid f' (p.removeHeldLock path mode)) ∨
    ∃ id b₁, e.op = .unregisterProcess id ∧ Unregistering b id e.answered b₁ [] ∧
      b' = b₁.drop id := by
  rcases h.cases with hmove | ⟨id, b₁, p, hop, hloop, -, -, -, rfl⟩
  · obtain ⟨op, res, answered⟩ := e
    cases hmove with
    | idle | tick | register | enter | add => simp at hr
    | release hp hleave =>
        exact Or.inl ⟨_, _, _, _, _, _, _, _, rfl, hp, rfl, hleave, rfl⟩
  · exact Or.inr ⟨id, b₁, hop, hloop, rfl⟩

-- ============================================================================
-- Runs under a condition
-- ============================================================================

/-- A step all of whose calls meet a condition. -/
def GuardedStep (cond : Backend → Op → Prop) (b : Backend) (e : Event) (b' : Backend) : Prop :=
  (∀ b₁ op, Within b e.op b₁ op → cond b₁ op) ∧ Step b e b'

/-- What calls that meet the condition keep, and the removal of processes keeps, holds in
    every state of a run under the condition. -/
theorem invariant_of_guarded (Inv : Backend → Prop) {cond : Backend → Op → Prop} {b : Backend}
    (h : Lts.Reachable (GuardedStep cond) init b) (hinit : Inv init)
    (hmove : ∀ {b₁ op res answered b₂}, cond b₁ op → Inv b₁ → Move b₁ op res answered b₂ → Inv b₂)
    (hdrop : ∀ {b₁ id}, Inv b₁ → Inv (b₁.drop id)) : Inv b := by
  refine h.invariant Inv hinit ?_
  rintro b e b' hb ⟨hcond, hstep⟩
  exact Step.invariant Inv hstep hb
    (fun hwithin hb hmove' => hmove (hcond _ _ hwithin) hb hmove') fun _ _ _ hb => hdrop hb

/-- The operation is not `unregister_process`, so it makes no other calls. -/
def Op.isSimple : Op → Bool
  | .unregisterProcess _ => false
  | _ => true

theorem Within.of_isSimple {b b₁ : Backend} {op op₁ : Op} (h : Within b op b₁ op₁)
    (hop : op.isSimple = true) : b₁ = b ∧ op₁ = op := by
  cases h with
  | self => exact ⟨rfl, rfl⟩
  | release => cases hop

/-- A simple operation makes no calls but itself. -/
theorem guarded_of_isSimple {cond : Backend → Op → Bool} {b b' : Backend} {e : Event}
    (hop : e.op.isSimple = true) (hcond : cond b e.op = true) (h : Step b e b') :
    GuardedStep (fun b op => cond b op = true) b e b' := by
  refine ⟨fun b₁ op₁ hwithin => ?_, h⟩
  obtain ⟨rfl, rfl⟩ := hwithin.of_isSimple hop
  exact hcond

/-- The condition holds along a list of simple operations. -/
def along (cond : Backend → Op → Bool) (fuel : Nat) : List Op → Backend → Bool
  | [], _ => true
  | op :: ops, b => op.isSimple && cond b op && along cond fuel ops (next fuel b op)

theorem reachable_along {cond : Backend → Op → Bool} {fuel : Nat} {ops : List Op}
    (h : along cond fuel ops init = true) :
    Lts.Reachable (GuardedStep fun b op => cond b op = true) init (after fuel ops) := by
  have hfold : ∀ b, Lts.Reachable (GuardedStep fun b op => cond b op = true) init b →
      along cond fuel ops b = true →
      Lts.Reachable (GuardedStep fun b op => cond b op = true) init (ops.foldl (next fuel) b) := by
    clear h
    induction ops with
    | nil => exact fun b hb _ => hb
    | cons op ops ih =>
        intro b hb hops
        simp only [along, Bool.and_eq_true] at hops
        obtain ⟨⟨hsimple, hcond⟩, hops⟩ := hops
        refine ih _ (reachable_next hb fun res answered b' hstep => ?_) hops
        exact guarded_of_isSimple hsimple hcond ⟨fuel, hstep⟩
  exact hfold init (Lts.Reachable.refl init) h

/-- The condition holds at the calls that the loop of `unregister_process` makes for these
    entries, and no entry is left after them. -/
def passMeets (cond : Backend → Op → Bool) (id : UInt32) :
    List (PathString × UInt8) → Backend → Bool
  | [], b => (b.processes.lookup id).all fun p => p.getLockCount = 0
  | (path, mode) :: locks, b =>
      cond b (.releaseLock id path mode) &&
        match b.releaseLock id path mode with
        | .ok (_, _, b') => passMeets cond id locks b'
        | .error _ => true

/-- One pass is all that the loop does. -/
theorem Unregistering.passMeets {cond : Backend → Op → Bool} {b b₁ : Backend} {id : UInt32}
    {p : Process} {answered : Finset LockRequest} {locks : List (PathString × UInt8)}
    (h : Unregistering b id answered b₁ locks) (hp : b.processes.lookup id = some p)
    (hpass : passMeets cond id p.heldLocks.entries b = true) :
    (b₁ = b ∧ locks = []) ∨ Backend.passMeets cond id locks b₁ = true := by
  induction h with
  | start => exact Or.inl ⟨rfl, rfl⟩
  | pass _ hp₁ hcount ih =>
      rcases ih with ⟨rfl, -⟩ | hend
      · obtain rfl := Option.some.inj (hp.symm.trans hp₁)
        exact Or.inr hpass
      · simp only [Backend.passMeets, hp₁, Option.all_some, decide_eq_true_eq] at hend
        omega
  | call _ hrel ih =>
      rcases ih with ⟨-, hnil⟩ | hmeets
      · cases hnil
      · simp only [Backend.passMeets, hrel, Bool.and_eq_true] at hmeets
        exact Or.inr hmeets.2

theorem within_of_passMeets {cond : Backend → Op → Bool} {b : Backend} {id : UInt32} {p : Process}
    (hp : b.processes.lookup id = some p) (hself : cond b (.unregisterProcess id) = true)
    (hpass : passMeets cond id p.heldLocks.entries b = true) :
    ∀ b₁ op, Within b (.unregisterProcess id) b₁ op → cond b₁ op = true := by
  intro b₁ op hwithin
  cases hwithin with
  | self => exact hself
  | release h =>
      rcases h.passMeets hp hpass with ⟨-, hnil⟩ | hmeets
      · cases hnil
      · exact (Bool.and_eq_true_iff.mp hmeets).1

-- ============================================================================
-- The forest in reachable states
-- ============================================================================

/-- Properties of single locks along an operation. -/
theorem Step.all {good : LockRequest → Prop} {P Q : LockPath → LockState → Prop} {b b' : Backend}
    {e : Event} (h : Step b e b') (rule : ∀ p mode, ReleaseRule good p mode P Q)
    (hgood : ∀ {pid path mode create address r} {p : Process},
      e.op.asks = some (pid, path, mode, create) →
      SameRequest (p.request address path mode create) r → good r)
    (hcancel : ∀ {b₁ pid path mode p l ρ rest n s'},
      Within b e.op b₁ (.releaseLock pid path mode) → b₁.processes.lookup pid = some p →
      b₁.forest.roots.lookup (rootName path) = some l → (splitPath path).tail = ρ ++ rest →
      NamedTree.find ρ l = some n → Lock.NotReleased p.object mode rest n →
      n.val.cancel p.object mode = some s' → P (rootName path :: ρ) n.val →
      P (rootName path :: ρ) s')
    (hseats : b.forest.All (LockState.Seats good)) (hb : b.forest.All P) :
    b'.forest.All (LockState.Seats good) ∧ b'.forest.All P := by
  have hintrinsic := (rule 0 0).stable.intrinsic
  refine Step.invariant (fun b => b.forest.All (LockState.Seats good) ∧ b.forest.All P) h
    ⟨hseats, hb⟩ ?_ fun _ _ _ hb => hb
  rintro b₁ op res answered b₂ hwithin ⟨hseats, hb⟩ hmove
  cases hmove with
  | idle | tick | register => exact ⟨hseats, hb⟩
  | @enter _ _ pid path mode create p r ret f' l l' r' hask hp hsame henter =>
      have hgood' : good r := hgood (hwithin.op_eq_of_asks hask ▸ hask) hsame
      exact ⟨henter.all (seats_rule hintrinsic) hgood' hseats,
        henter.all (rule 0 0).stable hgood' hb⟩
  | add hp hl =>
      have hupd := LockForest.updates_setRoot hl
      have hadds := LockForest.createNotHeld_adds
      exact ⟨(hupd _).all_of_adds (hadds ..) (seats_rule hintrinsic).fresh hseats,
        (hupd _).all_of_adds (hadds ..) (rule 0 0).stable.fresh hb⟩
  | release hp hleave =>
      refine ⟨hleave.seats hintrinsic hseats, hleave.all (rule _ _) ?_ hseats hb⟩
      exact fun hpath hn hnot hc hP => hcancel hwithin hp hleave.lookup hpath hn hnot hc hP

theorem createsInX_of_asks {op : Op} {pid : UInt32} {path : PathString} {mode : UInt8}
    {create : Bool} {p : Process} {address : Nat} {r : LockRequest}
    (hask : op.asks = some (pid, path, mode, create))
    (hsame : SameRequest (p.request address path mode create) r) : r.CreatesInX := by
  refine intrinsic_createsInX _ _ hsame fun hcreate => ?_
  change create = true at hcreate
  subst hcreate
  cases op with
  | registerProcess | unregisterProcess | releaseLock => cases hask
  | createLock pid path acquireX =>
      cases acquireX with
      | true => cases hask; rfl
      | false => cases hask
  | acquireLock => cases hask

theorem Move.forest_sound {b b' : Backend} {op : Op} {res : Result}
    {answered : Finset LockRequest} (h : Move b op res answered b') (hb : b.forest.Sound) :
    b'.forest.Sound := by
  cases h with
  | idle | tick | register => exact hb
  | enter hask hp hsame henter => exact henter.sound (createsInX_of_asks hask hsame) hb
  | add hp hl =>
      exact (LockForest.updates_setRoot hl _).sound_of_adds (LockForest.createNotHeld_adds ..) hb
  | release hp hleave => exact hleave.sound hb

theorem Step.forest_sound {b b' : Backend} {e : Event} (h : Step b e b') (hb : b.forest.Sound) :
    b'.forest.Sound :=
  Step.invariant (fun b => b.forest.Sound) h hb (fun _ hb hmove => hmove.forest_sound hb)
    fun _ _ _ hb => hb

/-- In every reachable state the forest is sound. -/
theorem Reachable.forest_sound {b : Backend} (h : Reachable b) : b.forest.Sound :=
  Lts.Reachable.invariant (fun b => b.forest.Sound) h LockForest.sound_empty
    fun hb hstep => Step.forest_sound hstep hb

end Backend

end Tclm.Server
