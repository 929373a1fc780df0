/-
  Tclm.Manager.Responses

  The manager, `src/manager/main.cpp`: what it reads from the messages of the server.

  A handler returns what it prints, as values; the texts around them are left out.  The
  loops have a number of turns they may take; a loop that would take more `diverges`.
-/

import Tclm.Comm.Messages

open Tclm.Comm
open Tclm.Comm.Stream

namespace Tclm.Manager

/-- `ap->action` -/
inductive Action where
  | listConnections
  | listProcesses
  | listLocks
  | kill
deriving DecidableEq, Repr

/-- A line of the list of locks. -/
structure LockLine where
  level : UInt32
  name : List UInt8
  statusBits : UInt8
deriving DecidableEq, Repr

/-- What is printed for a message. -/
inductive Response where
  /-- Addresses and ports; a record of another type is skipped. -/
  | connections (lines : List (Option (List UInt8 × UInt16)))
  | processes (lines : List (UInt32 × UInt32))
  | locks (lines : List LockLine)
  /-- Paths and modes of the locks of a process. -/
  | locksOfProcess (pid : UInt32) (status : UInt16) (lines : List (List UInt8 × UInt8))
  | unregistered (pid : UInt32) (status : UInt16)
  | nothing
deriving DecidableEq, Repr

-- ============================================================================
-- Loops over records
-- ============================================================================

/-- `while (stream_tell(s) < length)` with the given turn. -/
def readRecords {α : Type} (length : UInt32) (turn : StreamM α) : Nat → StreamM (List α)
  | 0 => do if (← tell) < length.toNat then throw .diverges else pure []
  | fuel + 1 => do
      if (← tell) < length.toNat then
        let a ← turn
        let as ← readRecords length turn fuel
        pure (a :: as)
      else pure []

/-- The turn of the loop of `receive_list_conns_response`. -/
def readConnection (host : ByteOrder) (length : UInt32) :
    StreamM (Option (List UInt8 × UInt16)) := do
  let addrType ← readUInt8
  if addrType = 0 ∧ (← tell) + 6 ≤ length.toNat then
    let a ← readUInt8
    let b ← readUInt8
    let c ← readUInt8
    let d ← readUInt8
    let port ← readUInt16 host
    pure (some ([a, b, c, d], port))
  else pure none

/-- The turn of the loop of `receive_list_processes_response`. -/
def readProcess (host : ByteOrder) : StreamM (UInt32 × UInt32) := do
  let id ← readUInt32 host
  let lockCount ← readUInt32 host
  pure (id, lockCount)

/-- The turn of the loop of `receive_list_locks_response`; `string` reads the name at
    `stream_pointer`. -/
def readLockBy (string : Nat → StreamM (List UInt8)) (host : ByteOrder) : StreamM LockLine := do
  let level ← readUInt32 host
  let strlength ← readUInt16 host
  let name ← string strlength.toNat
  seek ((← tell) + strlength.toNat)
  let statusBits ← readUInt8
  pure ⟨level, name, statusBits⟩

/-- The turn with names that have to stand in the message. -/
def readLock (host : ByteOrder) : StreamM LockLine := readLockBy pointerBytes host

/-- The loop of `receive_list_locks_process_response`; `length` is what is left. -/
def readHeldLocks (host : ByteOrder) : Nat → UInt32 → StreamM (List (List UInt8 × UInt8))
  | 0, length => if 2 < length then throw .diverges else pure []
  | fuel + 1, length => do
      if 2 < length then
        let strlength ← readUInt16 host
        if length.toNat < strlength.toNat + 2 + 1 then pure []
        else
          let path ← pointerBytes strlength.toNat
          seek ((← tell) + strlength.toNat)
          let mode ← readUInt8
          let lines ← readHeldLocks host fuel (length - UInt32.ofNat (strlength.toNat + 2 + 1))
          pure ((path, mode) :: lines)
      else pure []

/-- What is shown of the status of a lock: IS, IS+, IX, S, S+ and X. -/
def LockLine.status (l : LockLine) : List Bool :=
  [0x40, 0x20, 0x10, 0x4, 0x2, 0x1].map fun mask => decide (l.statusBits &&& mask ≠ 0)

-- ============================================================================
-- Handlers
-- ============================================================================

section

variable (string : Nat → StreamM (List UInt8)) (host : ByteOrder) (fuel : Nat) (action : Action)
  (length : UInt32)

/-- `receive_list_conns_response` -/
def receiveListConnsResponse : StreamM Response :=
  if action = .listConnections then
    Response.connections <$> readRecords length (readConnection host length) fuel
  else pure .nothing

/-- `receive_list_processes_response` -/
def receiveListProcessesResponse : StreamM Response :=
  if action = .listProcesses then
    Response.processes <$> readRecords length (readProcess host) fuel
  else pure .nothing

/-- `receive_list_locks_response` -/
def receiveListLocksResponse : StreamM Response :=
  if action = .listLocks then
    Response.locks <$> readRecords length (readLockBy string host) fuel
  else pure .nothing

/-- `receive_list_locks_process_response` -/
def receiveListLocksProcessResponse : StreamM Response :=
  if action = .listLocks then do
    let length := length - UInt32.ofNat (← tell)
    if length < 6 then pure .nothing
    else
      let pid ← readUInt32 host
      let status ← readUInt16 host
      let length := length - 6
      if status ≠ ResponseStatus.success then pure (.locksOfProcess pid status [])
      else Response.locksOfProcess pid status <$> readHeldLocks host fuel length
  else pure .nothing

/-- `receive_unregister_process_response` -/
def receiveUnregisterProcessResponse : StreamM Response :=
  if action = .kill then do
    if length.toNat = (← tell) + 6 then
      let pid ← readUInt32 host
      let status ← readUInt16 host
      pure (.unregistered pid status)
    else pure .nothing
  else pure .nothing

end

/-- `receive_message`; the length of the stream is passed on as a `uint32_t`. -/
def receiveMessageBy (string : Nat → StreamM (List UInt8)) (host : ByteOrder) (fuel : Nat)
    (action : Action) : StreamM Response := do
  let s ← get
  let length := UInt32.ofNat s.length
  let id ← readUInt8
  let _ ← readUInt32 host
  if id = MsgId.listConnsResponse then receiveListConnsResponse host fuel action length
  else if id = MsgId.listProcsResponse then receiveListProcessesResponse host fuel action length
  else if id = MsgId.listLocksResponse then
    receiveListLocksResponse string host fuel action length
  else if id = MsgId.listLocksProcessResponse then
    receiveListLocksProcessResponse host fuel action length
  else if id = MsgId.unregProcResponse then receiveUnregisterProcessResponse host action length
  else pure .nothing

/-- `receive_message`, where reading outside of the message goes wrong. -/
def receiveMessage (host : ByteOrder) (fuel : Nat) (action : Action) : StreamM Response :=
  receiveMessageBy pointerBytes host fuel action

-- ============================================================================
-- What the loops read
-- ============================================================================

section

variable {α β : Type} {s : Stream} {length : UInt32}

theorem run_get (s : Stream) : (get : StreamM Stream) s = .ok (s, s) := rfl

theorem run_tell (s : Stream) : tell s = .ok (s.pos, s) := rfl

/-- A record of `n` bytes that fits is taken off the length. -/
theorem toNat_sub_ofNat {length : UInt32} {n : Nat} (h : n ≤ length.toNat) :
    (length - UInt32.ofNat n).toNat = length.toNat - n := by
  have hlt := length.toNat_lt
  have hval : (UInt32.ofNat n).toNat = n := by
    rw [UInt32.toNat_ofNat', Nat.mod_eq_of_lt (by omega)]
  rw [UInt32.toNat_sub_of_le _ _ (by rw [UInt32.le_iff_toNat_le]; omega), hval]

/-- Behind some bytes of what is left to read. -/
theorem rest_advance {bs tail : List UInt8} (h : s.rest = bs ++ tail) :
    rest { s with pos := s.pos + bs.length } = tail := by
  have hdrop : s.rest.drop bs.length = tail := by rw [h, List.drop_left]
  rw [rest, List.drop_drop] at hdrop
  exact hdrop

/-- The loop reads records up to the end of the message, and ends there. -/
theorem readRecords_spec {turn : StreamM α} {bytes : β → List UInt8} {line : β → α}
    {xs : List β} (hturn : ∀ x ∈ xs, Gets turn (bytes x) (line x) ∧ bytes x ≠ [])
    (hcap : s.length ≤ s.capacity) (hlen : length.toNat = s.length)
    (hrest : s.rest = xs.flatMap bytes) {fuel : Nat} (hfuel : xs.length ≤ fuel) :
    ∃ s', readRecords length turn fuel s = .ok (xs.map line, s') := by
  have hleft := length_rest hcap
  induction xs generalizing s fuel with
  | nil =>
      have hend : ¬ s.pos < length.toNat := by
        rw [hrest, List.flatMap_nil, List.length_nil] at hleft
        omega
      refine ⟨s, ?_⟩
      cases fuel with
      | zero =>
          rw [readRecords, run_bind (run_tell s), if_neg hend]
          rfl
      | succ fuel =>
          rw [readRecords, run_bind (run_tell s), if_neg hend]
          rfl
  | cons x xs ih =>
      obtain ⟨hx, hne⟩ := hturn x List.mem_cons_self
      rw [List.flatMap_cons] at hrest
      have hpos := List.length_pos_iff.mpr hne
      have hmore : s.pos < length.toNat := by
        rw [hrest, List.length_append] at hleft
        omega
      obtain ⟨fuel, rfl⟩ : ∃ n, fuel = n + 1 := by
        rw [List.length_cons] at hfuel
        exact ⟨fuel - 1, by omega⟩
      obtain ⟨s', hrun⟩ := ih (s := { s with pos := s.pos + (bytes x).length })
        (fun y hy => hturn y (List.mem_cons_of_mem x hy)) hcap hlen (rest_advance hrest)
        (Nat.le_of_succ_le_succ hfuel) (length_rest hcap)
      refine ⟨s', ?_⟩
      rw [readRecords, run_bind (run_tell s), if_pos hmore, run_bind (hx hcap hrest), run_bind hrun]
      rfl

end

end Tclm.Manager
