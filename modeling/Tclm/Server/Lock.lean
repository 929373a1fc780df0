/-
  Tclm.Server.Lock

  The lock tree of the server: `src/server/Lock.{h,cpp}` and
  `src/server/Lock_Request.{h,cpp}`.

  - A `Lock` is a node of a named tree.  Its value `LockState` holds the six
    holder fields and the queue of waiting requests.
  - `Process *` is an object identity (`ProcessRef`); pointers are only compared.
  - A `Lock_Request` is shared by pointer in the source.  At most one queue
    mentions a request at any moment, so it is a value here; functions that write
    to `r->...` return the new value, and `address` keeps the object's identity.
  - `lockers_I*.erase(lockers_I*.find(p))` is undefined behaviour when `p` is not
    in the multiset.  The model reports that as `Fault.eraseEnd`.
  - Mutexes are left out: the server is single-threaded.

  `current_level`, `level` and the index arithmetic on `*path` are expressed by
  the list `rest` of components below the current node: it is
  `path->drop(current_level + 1)`, and `current_level == level` means `rest = []`.
  Paths come out of messages with a 16-bit length, so the 32-bit levels cannot
  wrap and are natural numbers here.
-/

import Mathlib.Data.Finset.Dedup
import Mathlib.Data.Finset.Lattice.Lemmas
import Tclm.Lib.NamedTree

namespace Tclm.Server

/-- The name of a lock: one component of a path, a byte string. -/
abbrev LockName := List UInt8

/-- A path split into its components (`vector<string>`). -/
abbrev LockPath := List LockName

/-- Identity of a `Process` object (`Process *`). -/
abbrev ProcessRef := Nat

/-- What can go wrong inside an operation besides a regular result: undefined
    behaviour of `erase(end())`, or a loop that has not ended within its fuel. -/
inductive Fault where
  | eraseEnd
  | outOfFuel
deriving DecidableEq, Repr

-- ============================================================================
-- Modes and requests
-- ============================================================================

/-- The three lock modes. -/
inductive Mode where
  | S
  | Splus
  | X
deriving DecidableEq, Repr

namespace Mode

/-- `LOCK_REQUEST_MODE_*`, the byte that stands for a mode in messages. -/
def toByte : Mode → UInt8
  | .S => 0x00
  | .Splus => 0x01
  | .X => 0x02

/-- The case a `switch (mode)` takes; every other byte takes none. -/
def ofByte (b : UInt8) : Option Mode :=
  if b = 0x00 then some .S
  else if b = 0x01 then some .Splus
  else if b = 0x02 then some .X
  else none

@[simp] theorem ofByte_toByte (m : Mode) : ofByte m.toByte = some m := by
  cases m <;> rfl

theorem toByte_injective {m m' : Mode} (h : m.toByte = m'.toByte) : m = m' := by
  have hmodes := congrArg ofByte h
  rw [ofByte_toByte, ofByte_toByte] at hmodes
  exact Option.some.inj hmodes

theorem ofByte_eq_some {b : UInt8} {m : Mode} : ofByte b = some m ↔ b = m.toByte := by
  constructor
  · intro h
    unfold ofByte at h
    split at h
    · rename_i hb; cases h; exact hb
    · split at h
      · rename_i hb; cases h; exact hb
      · split at h
        · rename_i hb; cases h; exact hb
        · cases h
  · rintro rfl
    exact ofByte_toByte m

end Mode

/-- `LOCK_ACQUIRE_*` -/
inductive AcquireStatus where
  | acquired
  | queued
  | nonExistent
deriving DecidableEq, Repr

/-- `LOCK_RELEASE_*` -/
inductive ReleaseStatus where
  | success
  | notHeld
deriving DecidableEq, Repr

/-- `LOCK_CREATE_*` -/
inductive CreateStatus where
  | created
  | queued
  | exists
  | parentNotHeld
deriving DecidableEq, Repr

/-- A `Lock_Request`.  `address` is the identity of the shared object. -/
structure LockRequest where
  address : Nat
  mode : UInt8
  requester : ProcessRef
  path : LockPath
  currentLevel : Nat := 0
  createMissing : Bool := false
  lockCreated : Bool := false
  -- `int acquire_status = 0`, which is the value of `LOCK_ACQUIRE_ACQUIRED`
  acquireStatus : AcquireStatus := .acquired
deriving DecidableEq, Repr

namespace LockRequest

/-- The components of the path below the node the request has reached. -/
def remaining (r : LockRequest) : LockPath := r.path.drop (r.currentLevel + 1)

/-- `r->current_level++` -/
def advance (r : LockRequest) : LockRequest := { r with currentLevel := r.currentLevel + 1 }

/-- `r->acquire_status = status` -/
def withStatus (r : LockRequest) (status : AcquireStatus) : LockRequest :=
  { r with acquireStatus := status }

/-- `r->lock_created = true` -/
def markCreated (r : LockRequest) : LockRequest := { r with lockCreated := true }

end LockRequest

-- ============================================================================
-- The state of one lock
-- ============================================================================

/-- Holders, intent holders and waiting requests of one lock. -/
structure LockState where
  lockersS : Multiset ProcessRef := 0
  lockerSplus : Option ProcessRef := none
  lockerX : Option ProcessRef := none
  lockersIS : Multiset ProcessRef := 0
  lockersISplus : Multiset ProcessRef := 0
  lockersIX : Multiset ProcessRef := 0
  lockRequests : List LockRequest := []

namespace LockState

/-- The condition under which `p` gets the lock in mode `m` (the `switch` at
    `current_level == level` of `Lock::acquire`). -/
def MayLock (s : LockState) (p : ProcessRef) : Mode → Prop
  | .S => s.lockerX = none ∧ s.lockersIX = 0
  | .Splus =>
      s.lockerSplus = none ∧ s.lockersISplus = 0 ∧
        (s.lockerX = none ∨ s.lockerX = some p) ∧ ∀ q ∈ s.lockersIX, p = q
  | .X =>
      s.lockersS = 0 ∧ s.lockerX = none ∧ s.lockersIS = 0 ∧ s.lockersIX = 0 ∧
        (s.lockerSplus = none ∨ s.lockerSplus = some p) ∧ ∀ q ∈ s.lockersISplus, p = q

/-- The condition under which `p` gets the intent lock for mode `m` on the way to
    a lock further down. -/
def MayIntend (s : LockState) (p : ProcessRef) : Mode → Prop
  | .S => s.lockerX = none
  | .Splus => s.lockerSplus = none ∧ (s.lockerX = none ∨ s.lockerX = some p)
  | .X =>
      s.lockersS = 0 ∧ s.lockerX = none ∧ (s.lockerSplus = none ∨ s.lockerSplus = some p)

instance decidableMayLock (s : LockState) (p : ProcessRef) : (m : Mode) → Decidable (s.MayLock p m)
  | .S => inferInstanceAs (Decidable (_ ∧ _))
  | .Splus => inferInstanceAs (Decidable (_ ∧ _ ∧ (_ ∨ _) ∧ ∀ q ∈ s.lockersIX, p = q))
  | .X => inferInstanceAs (Decidable (_ ∧ _ ∧ _ ∧ _ ∧ (_ ∨ _) ∧ ∀ q ∈ s.lockersISplus, p = q))

instance decidableMayIntend (s : LockState) (p : ProcessRef) :
    (m : Mode) → Decidable (s.MayIntend p m)
  | .S => inferInstanceAs (Decidable (_ = _))
  | .Splus => inferInstanceAs (Decidable (_ ∧ (_ ∨ _)))
  | .X => inferInstanceAs (Decidable (_ ∧ _ ∧ (_ ∨ _)))

/-- Enter `p` as a holder in mode `m`. -/
def addLocker (s : LockState) (p : ProcessRef) : Mode → LockState
  | .S => { s with lockersS := p ::ₘ s.lockersS }
  | .Splus => { s with lockerSplus := some p }
  | .X => { s with lockerX := some p }

/-- The intent holders for mode `m`. -/
def intents (s : LockState) : Mode → Multiset ProcessRef
  | .S => s.lockersIS
  | .Splus => s.lockersISplus
  | .X => s.lockersIX

/-- Replace the intent holders for mode `m`. -/
def setIntents (s : LockState) (ps : Multiset ProcessRef) : Mode → LockState
  | .S => { s with lockersIS := ps }
  | .Splus => { s with lockersISplus := ps }
  | .X => { s with lockersIX := ps }

/-- Grant the request's mode to its requester if the lock is free for it.
    A mode byte without a `case` is never granted. -/
def tryLock (s : LockState) (r : LockRequest) : Option LockState :=
  match Mode.ofByte r.mode with
  | some m => if s.MayLock r.requester m then some (s.addLocker r.requester m) else none
  | none => none

/-- Take the intent lock for the request's mode if that is possible.  A mode byte
    without a `case` falls through the `switch` and takes no intent lock. -/
def tryIntent (s : LockState) (r : LockRequest) : Option LockState :=
  match Mode.ofByte r.mode with
  | some m =>
      if s.MayIntend r.requester m then
        some (s.setIntents (r.requester ::ₘ s.intents m) m)
      else none
  | none => some s

/-- `lockers_I*.erase(lockers_I*.find(p))` for the given mode byte. -/
def eraseIntent (s : LockState) (p : ProcessRef) (mode : UInt8) : Except Fault LockState :=
  match Mode.ofByte mode with
  | some m =>
      if p ∈ s.intents m then .ok (s.setIntents ((s.intents m).erase p) m)
      else .error .eraseEnd
  | none => .ok s

/-- `lock_requests.push_back (r)` if `insert_in_current_queue`.  The queued object
    is the one whose status is set to `LOCK_ACQUIRE_QUEUED` right afterwards. -/
def enqueue (s : LockState) (r : LockRequest) (insertInCurrentQueue : Bool) : LockState :=
  if insertInCurrentQueue then
    { s with lockRequests := s.lockRequests ++ [r.withStatus .queued] }
  else s

/-- Release a lock that `p` holds in the given mode, if it does. -/
def tryUnlock (s : LockState) (p : ProcessRef) (mode : UInt8) : Option LockState :=
  match Mode.ofByte mode with
  | some .S => if p ∈ s.lockersS then some { s with lockersS := s.lockersS.erase p } else none
  | some .Splus => if s.lockerSplus = some p then some { s with lockerSplus := none } else none
  | some .X => if s.lockerX = some p then some { s with lockerX := none } else none
  | none => none

/-- Remove the first waiting request of `p` in the given mode, if there is one. -/
def cancel (s : LockState) (p : ProcessRef) (mode : UInt8) : Option LockState :=
  (s.lockRequests.splitFirst fun cr => mode = cr.mode ∧ p = cr.requester).map
    fun (pre, _, post) => { s with lockRequests := pre ++ post }

end LockState

-- ============================================================================
-- The lock tree
-- ============================================================================

/-- A lock with everything below it. -/
abbrev Lock := NamedTree LockName LockState

namespace Lock

open NamedTree (node)

/-- `new Lock (parent, name)` -/
def new (name : LockName) : Lock := node name {} []

/-- Search `children` for a name, in zipper form. -/
def splitChild (name : LockName) (cs : List Lock) : Option (List Lock × Lock × List Lock) :=
  cs.splitFirst fun c => c.name = name

/-- `Lock::create_not_held (p, path, current_level, level, ownership_ensured)`.
    The list is the part of the path below this node, so the source's test
    `current_level < level` asks whether more than one component is left. -/
def createBelow (p : ProcessRef) : LockPath → Lock → Bool → CreateStatus × Lock
  | [], l, _ => (.parentNotHeld, l)
  | c :: rest, .node k s cs, ownershipEnsured =>
      let ensured := ownershipEnsured || decide (s.lockerX = some p)
      match splitChild c cs with
      | some (pre, child, post) =>
          if rest = [] then
            (if ensured then .exists else .parentNotHeld, .node k s cs)
          else
            let (ret, child') := createBelow p rest child ensured
            (ret, .node k s (pre ++ child' :: post))
      | none =>
          if ¬ ensured then (.parentNotHeld, .node k s cs)
          else if rest = [] then (.created, .node k s (cs ++ [new c]))
          else
            let (ret, child') := createBelow p rest (new c) ensured
            (ret, .node k s (cs ++ [child']))

/-- `Lock::create_not_held (p, path)` -/
def createNotHeld (p : ProcessRef) (path : LockPath) (l : Lock) : CreateStatus × Lock :=
  if path.head? ≠ some l.name then (.parentNotHeld, l)
  else
    let ensured := decide (l.val.lockerX = some p)
    if path.length ≤ 1 then (if ensured then .exists else .parentNotHeld, l)
    else createBelow p path.tail l ensured

/-- `Lock::acquire (r, insert_in_current_queue)`, with the rest of the path below
    this node as the recursion argument. -/
def acquire : LockPath → Lock → LockRequest → Bool →
    Except Fault (AcquireStatus × Lock × LockRequest)
  | [], .node k s cs, r, ins =>
      -- At the lock to be acquired
      match s.tryLock r with
      | some s' => .ok (.acquired, .node k s' cs, r.withStatus .acquired)
      | none => .ok (.queued, .node k (s.enqueue r ins) cs, r.withStatus .queued)
  | c :: rest, .node k s cs, r, ins =>
      -- At an intermediate node in the path to the lock that is requested
      match s.tryIntent r with
      | none => .ok (.queued, .node k (s.enqueue r ins) cs, r.withStatus .queued)
      | some s' =>
          match splitChild c cs with
          | some (pre, child, post) => do
              let (ret, child', r') ← acquire rest child r.advance true
              if ret = .nonExistent then
                -- If a child lock did not exist, release the intent lock
                let s'' ← s'.eraseIntent r.requester r.mode
                .ok (ret, .node k s'' (pre ++ child' :: post), r')
              else
                .ok (ret, .node k s' (pre ++ child' :: post), r')
          | none =>
              if r.createMissing then do
                let (ret, child', r') ← acquire rest (new c) r.markCreated.advance true
                .ok (ret, .node k s' (cs ++ [child']), r')
              else do
                let s'' ← s'.eraseIntent r.requester r.mode
                .ok (.nonExistent, .node k s'' cs, r.withStatus .nonExistent)

/-- Replace the queue of the root. -/
def setRequests (l : Lock) (q : List LockRequest) : Lock :=
  node l.name { l.val with lockRequests := q } l.children

/-- `lock_requests.pop_front()` -/
def popFront (l : Lock) : Lock := l.setRequests l.val.lockRequests.tail

/-- Write through the shared pointer at the front of the queue. -/
def setFront (l : Lock) (r : LockRequest) : Lock := l.setRequests (r :: l.val.lockRequests.tail)

/-- The loop `while (lock_requests.size() > 0)` of `Lock::release`: grant or advance
    waiting requests until the first one is blocked.  `answered` accumulates the
    requests that were granted or failed. -/
def wakeUp : Nat → Lock → Finset LockRequest → Except Fault (Lock × Finset LockRequest)
  | 0, l, answered => if l.val.lockRequests = [] then .ok (l, answered) else .error .outOfFuel
  | fuel + 1, l, answered =>
      match l.val.lockRequests with
      | [] => .ok (l, answered)
      | r :: _ => do
          let (ret, l', r') ← acquire r.remaining l r false
          if ret ≠ .queued then wakeUp fuel l'.popFront (insert r' answered)
          else if r'.currentLevel > r.currentLevel then wakeUp fuel l'.popFront answered
          else .ok (l'.setFront r', answered)

/-- The end of `Lock::release` if nothing was released: potentially remove a lock
    request. -/
def cancelRequest (p : ProcessRef) (mode : UInt8) (l : Lock) (answered : Finset LockRequest) :
    ReleaseStatus × Lock × Finset LockRequest :=
  match l.val.cancel p mode with
  | some s => (.success, .node l.name s l.children, answered)
  | none => (.notHeld, l, answered)

/-- The end of `Lock::release` after something was released: look if other lock
    requests can be granted now.  Every turn of the loop shortens the queue or is
    the last one, so its length is enough fuel (`wakeUp_spec`). -/
def wakeRequests (l : Lock) (answered : Finset LockRequest) :
    Except Fault (ReleaseStatus × Lock × Finset LockRequest) := do
  let (l', answered') ← wakeUp l.val.lockRequests.length l answered
  .ok (.success, l', answered')

/-- `Lock::release (p, mode, path, current_level, level)` -/
def release (p : ProcessRef) (mode : UInt8) : LockPath → Lock →
    Except Fault (ReleaseStatus × Lock × Finset LockRequest)
  | [], .node k s cs =>
      match s.tryUnlock p mode with
      | some s' => wakeRequests (.node k s' cs) ∅
      | none => .ok (cancelRequest p mode (.node k s cs) ∅)
  | c :: rest, .node k s cs =>
      -- Try to unlock the child
      match splitChild c cs with
      | some (pre, child, post) => do
          let (ret, child', answered) ← release p mode rest child
          if ret = .success then
            -- Release this lock if the child was held (or had a lock request)
            let s' ← s.eraseIntent p mode
            wakeRequests (.node k s' (pre ++ child' :: post)) answered
          else
            .ok (cancelRequest p mode (.node k s (pre ++ child' :: post)) answered)
      | none => .ok (cancelRequest p mode (.node k s cs) ∅)

end Lock

end Tclm.Server
