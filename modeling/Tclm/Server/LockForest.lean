/-
  Tclm.Server.LockForest

  The forest of lock trees and the bookkeeping of a process:
  `src/server/Lock_Forest.{h,cpp}` and `src/server/Process.{h,cpp}`.

  The forest works on split paths, a process records raw path strings.  Of a
  process only the identity, the id and `held_locks` are modelled: the list of
  weak pointers to its requests serves their destruction, and the connection is
  read by the daemon only.
-/

import Tclm.Lib.SortedList
import Tclm.Server.Lock

namespace Tclm.Server

/-- A path as it comes in a message: bytes, components separated by dots. -/
abbrev PathString := List UInt8

-- ============================================================================
-- Processes
-- ============================================================================

/-- `std::set<std::pair<const std::string,uint8_t>>`: ordered by string, then mode. -/
abbrev HeldLocks := SortedList fun e : PathString × UInt8 => toLex e

/-- A `Process` object.  `object` is its identity, which is never used again. -/
structure Process where
  object : ProcessRef
  id : UInt32
  heldLocks : HeldLocks

namespace Process

/-- `Process::add_held_lock` -/
def addHeldLock (p : Process) (path : PathString) (mode : UInt8) : Process :=
  { p with heldLocks := p.heldLocks.insert (path, mode) }

/-- `Process::remove_held_lock` -/
def removeHeldLock (p : Process) (path : PathString) (mode : UInt8) : Process :=
  { p with heldLocks := p.heldLocks.erase (toLex (path, mode)) }

/-- `Process::get_lock_count`: the size, returned as a `uint32_t`. -/
def getLockCount (p : Process) : Nat := p.heldLocks.size % 2 ^ 32

end Process

-- ============================================================================
-- Path strings
-- ============================================================================

/-- The byte `'.'`. -/
def dot : UInt8 := 0x2E

/-- The loop of `Lock_Forest::split_path`; `piece` is what has been read since
    `cbegin`.  Only the last piece may be empty. -/
def splitPathFrom (piece : LockName) : PathString → LockPath
  | [] => [piece]
  | b :: s =>
      if b = dot then
        if piece = [] then splitPathFrom [] s else piece :: splitPathFrom [] s
      else splitPathFrom (piece ++ [b]) s

/-- `Lock_Forest::split_path` -/
def splitPath (path : PathString) : LockPath := splitPathFrom [] path

theorem splitPathFrom_ne_nil (piece : LockName) (s : PathString) : splitPathFrom piece s ≠ [] := by
  induction s generalizing piece with
  | nil => simp [splitPathFrom]
  | cons b s ih =>
      simp only [splitPathFrom]
      split
      · split
        · exact ih []
        · simp
      · exact ih _

theorem splitPath_ne_nil (s : PathString) : splitPath s ≠ [] := splitPathFrom_ne_nil [] s

/-- The name of the root on the path, `(*path)[0]`. -/
def rootName (path : PathString) : LockName := (splitPath path).head (splitPath_ne_nil path)

theorem splitPath_eq (s : PathString) : splitPath s = rootName s :: (splitPath s).tail :=
  (List.cons_head_tail _).symm

-- ============================================================================
-- The forest
-- ============================================================================

/-- `Lock_Forest`: the root locks by name. -/
structure LockForest where
  roots : SortedMap LockName Lock

namespace LockForest

/-- The forest without locks. -/
def empty : LockForest := ⟨SortedList.empty⟩

/-- The lock named by a split path. -/
def node? (f : LockForest) : LockPath → Option Lock
  | [] => none
  | c :: rest => (f.roots.lookup c).bind (NamedTree.find rest)

/-- Write back a root lock after an operation on its tree. -/
def setRoot (f : LockForest) (name : LockName) (l : Lock) : LockForest := ⟨f.roots.set name l⟩

/-- `Lock_Forest::create`.  The `Lock_Request` that it makes gets the identity
    `address`. -/
def create (f : LockForest) (address : Nat) (p : Process) (pathStr : PathString)
    (acquireX : Bool) : Except Fault (CreateStatus × LockForest × Process) :=
  let req : LockRequest :=
    { address, mode := Mode.X.toByte, requester := p.object, path := splitPath pathStr,
      createMissing := true }
  let root := rootName pathStr
  if acquireX then do
    -- Does the root node exist already?  Otherwise it can be created, as it will
    -- be acquired.
    let (f, l, req) := match f.roots.lookup root with
      | some l => (f, l, req)
      | none => (⟨f.roots.insert (root, Lock.new root)⟩, Lock.new root, req.markCreated)
    let (ret, l', req') ← Lock.acquire req.remaining l req true
    let f' : LockForest := f.setRoot root l'
    match ret with
    | .acquired =>
        .ok (if req'.lockCreated then .created else .exists, f',
          p.addHeldLock pathStr Mode.X.toByte)
    | .queued => .ok (.queued, f', p.addHeldLock pathStr Mode.X.toByte)
    | .nonExistent => .ok (.exists, f', p)
  else
    match f.roots.lookup root with
    | none => .ok (.parentNotHeld, f, p)
    | some l =>
        let (ret, l') := Lock.createNotHeld p.object (splitPath pathStr) l
        .ok (ret, f.setRoot root l', p)

/-- `Lock_Forest::acquire` -/
def acquire (f : LockForest) (address : Nat) (p : Process) (pathStr : PathString) (mode : UInt8) :
    Except Fault (AcquireStatus × LockForest × Process) :=
  let root := rootName pathStr
  -- Look if the root exists
  match f.roots.lookup root with
  | none => .ok (.nonExistent, f, p)
  | some l => do
      let req : LockRequest := { address, mode, requester := p.object, path := splitPath pathStr }
      let (ret, l', _) ← Lock.acquire req.remaining l req true
      let p' := if ret = .nonExistent then p else p.addHeldLock pathStr mode
      .ok (ret, f.setRoot root l', p')

/-- `Lock_Forest::release` -/
def release (f : LockForest) (p : Process) (pathStr : PathString) (mode : UInt8) :
    Except Fault (ReleaseStatus × LockForest × Process × Finset LockRequest) :=
  let root := rootName pathStr
  -- Look if the root exists
  match f.roots.lookup root with
  | none => .ok (.notHeld, f, p, ∅)
  | some l => do
      let (ret, l', answered) ← Lock.release p.object mode (splitPath pathStr).tail l
      let p' := if ret = .success then p.removeHeldLock pathStr mode else p
      .ok (ret, f.setRoot root l', p', answered)

end LockForest

end Tclm.Server
