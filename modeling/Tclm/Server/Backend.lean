/-
  Tclm.Server.Backend

  The process map and the backend: `src/server/Process_map.{h,cpp}` and
  `src/server/backend.{h,cpp}`, and the runs of the backend.

  One operation is one step: the daemon handles messages one after the other.
  `nextProcess` and `nextRequest` hand out the identities of `Process` and
  `Lock_Request` objects; they are never used twice.
-/

import Tclm.Lib.Trace
import Tclm.Server.LockForest

namespace Tclm.Server

/-- `PROCESS_UNREGISTER_RESULT_*` -/
inductive UnregisterResult where
  | success
  | holdsLocks
  | nonExistent
deriving DecidableEq, Repr

/-- `CREATE_LOCK_RESULT_*` -/
inductive CreateLockResult where
  | noSuchProcess
  | created
  | queued
  | exists
  | parentNotHeld
deriving DecidableEq, Repr

/-- `ACQUIRE_LOCK_RESULT_*` -/
inductive AcquireLockResult where
  | noSuchProcess
  | acquired
  | queued
  | noSuchLock
deriving DecidableEq, Repr

/-- `RELEASE_LOCK_RESULT_*` -/
inductive ReleaseLockResult where
  | noSuchProcess
  | released
  | notHeld
deriving DecidableEq, Repr

/-- The state of the backend: `Lock_Forest` and `Process_map`. -/
structure Backend where
  forest : LockForest
  processes : SortedMap UInt32 Process
  nextId : UInt32
  nextProcess : ProcessRef
  nextRequest : Nat

namespace Backend

/-- A backend right after its construction. -/
def init : Backend := ⟨LockForest.empty, SortedList.empty, 0, 0, 0⟩

-- ============================================================================
-- Registering and unregistering
-- ============================================================================

/-- `Process_map::create`; `none` stands for `too_many_processes_exception`. -/
def registerProcess (b : Backend) : Option UInt32 × Backend :=
  match b.processes.lookup b.nextId with
  | some _ => (none, b)
  | none =>
      let p : Process := ⟨b.nextProcess, b.nextId, SortedList.empty⟩
      -- `next_id` wraps at `numeric_limits<uint32_t>::max()`, as `UInt32` addition does
      (some b.nextId,
        { b with
          processes := b.processes.insert (b.nextId, p)
          nextId := b.nextId + 1
          nextProcess := b.nextProcess + 1 })

/-- One pass of the release loop of `Process_map::try_destroy` over a copy of
    `held_locks`. -/
def releasePass : List (PathString × UInt8) → LockForest → Process → Finset LockRequest →
    Except Fault (LockForest × Process × Finset LockRequest)
  | [], f, p, answered => .ok (f, p, answered)
  | (path, mode) :: locks, f, p, answered => do
      let (_, f', p', more) ← f.release p path mode
      releasePass locks f' p' (answered ∪ more)

/-- The loop `while (p->get_lock_count() > 0)` of `Process_map::try_destroy`. -/
def releaseLoop : Nat → LockForest → Process → Finset LockRequest →
    Except Fault (LockForest × Process × Finset LockRequest)
  | 0, f, p, answered => if p.getLockCount > 0 then .error .outOfFuel else .ok (f, p, answered)
  | fuel + 1, f, p, answered =>
      if p.getLockCount > 0 then do
        let (f', p', answered') ← releasePass p.heldLocks.entries f p answered
        releaseLoop fuel f' p' answered'
      else .ok (f, p, answered)

/-- `Process_map::try_destroy` with at most `fuel` turns of the release loop. -/
def tryDestroy (fuel : Nat) (b : Backend) (id : UInt32) (releaseLocks : Bool) :
    Except Fault (UnregisterResult × Finset LockRequest × Backend) :=
  match b.processes.lookup id with
  | none => .ok (.nonExistent, ∅, b)
  | some p =>
      if releaseLocks then do
        let (f, _, answered) ← releaseLoop fuel b.forest p ∅
        .ok (.success, answered, { b with forest := f, processes := b.processes.erase id })
      else if p.getLockCount > 0 then .ok (.holdsLocks, ∅, b)
      else .ok (.success, ∅, { b with processes := b.processes.erase id })

/-- `backend::unregister_process` -/
def unregisterProcess (fuel : Nat) (b : Backend) (id : UInt32) :
    Except Fault (UnregisterResult × Finset LockRequest × Backend) :=
  tryDestroy fuel b id true

-- ============================================================================
-- Lock operations
-- ============================================================================

/-- Write back the forest and a process after an operation. -/
def update (b : Backend) (id : UInt32) (f : LockForest) (p : Process) : Backend :=
  { b with forest := f, processes := b.processes.set id p }

/-- `backend::create_lock` -/
def createLock (b : Backend) (pid : UInt32) (path : PathString) (acquireX : Bool) :
    Except Fault (CreateLockResult × Backend) :=
  match b.processes.lookup pid with
  | none => .ok (.noSuchProcess, b)
  | some p => do
      let (ret, f, p') ← b.forest.create b.nextRequest p path acquireX
      let b' := { b.update pid f p' with nextRequest := b.nextRequest + 1 }
      match ret with
      | .created => .ok (.created, b')
      | .queued => .ok (.queued, b')
      | .exists => .ok (.exists, b')
      | .parentNotHeld => .ok (.parentNotHeld, b')

/-- `backend::acquire_lock` -/
def acquireLock (b : Backend) (pid : UInt32) (path : PathString) (mode : UInt8) :
    Except Fault (AcquireLockResult × Backend) :=
  match b.processes.lookup pid with
  | none => .ok (.noSuchProcess, b)
  | some p => do
      let (ret, f, p') ← b.forest.acquire b.nextRequest p path mode
      let b' := { b.update pid f p' with nextRequest := b.nextRequest + 1 }
      match ret with
      | .acquired => .ok (.acquired, b')
      | .queued => .ok (.queued, b')
      | .nonExistent => .ok (.noSuchLock, b')

/-- `backend::release_lock` -/
def releaseLock (b : Backend) (pid : UInt32) (path : PathString) (mode : UInt8) :
    Except Fault (ReleaseLockResult × Finset LockRequest × Backend) :=
  match b.processes.lookup pid with
  | none => .ok (.noSuchProcess, ∅, b)
  | some p => do
      let (ret, f, p', answered) ← b.forest.release p path mode
      match ret with
      | .success => .ok (.released, answered, b.update pid f p')
      | .notHeld => .ok (.notHeld, answered, b.update pid f p')

-- ============================================================================
-- Runs
-- ============================================================================

/-- The operations of the backend. -/
inductive Op where
  | registerProcess
  | unregisterProcess (id : UInt32)
  | createLock (pid : UInt32) (path : PathString) (acquireX : Bool)
  | acquireLock (pid : UInt32) (path : PathString) (mode : UInt8)
  | releaseLock (pid : UInt32) (path : PathString) (mode : UInt8)
deriving DecidableEq, Repr

/-- What an operation returns. -/
inductive Result where
  | registered (id : Option UInt32)
  | unregistered (result : UnregisterResult)
  | created (result : CreateLockResult)
  | acquired (result : AcquireLockResult)
  | released (result : ReleaseLockResult)
deriving DecidableEq, Repr

/-- One operation as the environment sees it: the call, its result and the set of
    requests it answered. -/
structure Event where
  op : Op
  result : Result
  answered : Finset LockRequest

/-- Execute one operation. -/
def step (fuel : Nat) (b : Backend) : Op → Except Fault (Result × Finset LockRequest × Backend)
  | .registerProcess =>
      let (id, b') := b.registerProcess
      .ok (.registered id, ∅, b')
  | .unregisterProcess id => do
      let (res, answered, b') ← b.unregisterProcess fuel id
      .ok (.unregistered res, answered, b')
  | .createLock pid path acquireX => do
      let (res, b') ← b.createLock pid path acquireX
      .ok (.created res, ∅, b')
  | .acquireLock pid path mode => do
      let (res, b') ← b.acquireLock pid path mode
      .ok (.acquired res, ∅, b')
  | .releaseLock pid path mode => do
      let (res, answered, b') ← b.releaseLock pid path mode
      .ok (.released res, answered, b')

/-- The operation returns, whatever number of loop turns it takes. -/
def Step (b : Backend) (e : Event) (b' : Backend) : Prop :=
  ∃ fuel, b.step fuel e.op = .ok (e.result, e.answered, b')

/-- States the backend can be in between two operations. -/
def Reachable (b : Backend) : Prop := Lts.Reachable Step init b

/-- The state after one operation; one that does not return within the fuel is left
    out. -/
def next (fuel : Nat) (b : Backend) (op : Op) : Backend :=
  match b.step fuel op with
  | .ok (_, _, b') => b'
  | .error _ => b

/-- The state after a list of operations. -/
def after (fuel : Nat) (ops : List Op) : Backend := ops.foldl (next fuel) init

/-- What the operation answers, if it returns within the fuel. -/
def answeredBy (fuel : Nat) (b : Backend) (op : Op) : Finset LockRequest :=
  match b.step fuel op with
  | .ok (_, answered, _) => answered
  | .error _ => ∅

/-- An operation that returns is a step to the next state. -/
theorem step_next {fuel : Nat} {b : Backend} {op : Op} {res : Result}
    (h : (b.step fuel op).toOption.map Prod.fst = some res) :
    Step b ⟨op, res, answeredBy fuel b op⟩ (next fuel b op) := by
  unfold next answeredBy
  cases hstep : b.step fuel op with
  | ok x =>
      obtain ⟨res', answered, b'⟩ := x
      rw [hstep] at h
      obtain rfl : res' = res := Option.some.inj h
      exact ⟨fuel, hstep⟩
  | error e =>
      rw [hstep] at h
      cases h

/-- A run goes on with an operation if the relation allows what it does. -/
theorem reachable_next {R : Backend → Event → Backend → Prop} {fuel : Nat} {b : Backend} {op : Op}
    (h : Lts.Reachable R init b)
    (hR : ∀ res answered b', b.step fuel op = .ok (res, answered, b') → R b ⟨op, res, answered⟩ b') :
    Lts.Reachable R init (next fuel b op) := by
  unfold next
  cases hstep : b.step fuel op with
  | error e => exact h
  | ok x =>
      obtain ⟨res, answered, b'⟩ := x
      exact h.next (hR res answered b' hstep)

theorem reachable_after (fuel : Nat) (ops : List Op) : Reachable (after fuel ops) := by
  have hfold : ∀ b, Reachable b → Reachable (ops.foldl (next fuel) b) := by
    induction ops with
    | nil => exact fun b hb => hb
    | cons op ops ih => exact fun b hb => ih _ (reachable_next hb fun _ _ _ h => ⟨fuel, h⟩)
  exact hfold init (Lts.Reachable.refl init)

end Backend

end Tclm.Server
