/-
  Tclm.Client.AccessConcentrator

  The client's side of a connection, `src/client/Access_Concentrator.{h,cpp}`: requests
  are remembered in tables, sent, and answered when a message from the server names them.

  A request object is a `Handle`; `answer` of `src/client/request.cpp`, which wakes the
  thread that waits for the request, is an `Answer` in the result of a handler.  The tables
  for registering and unregistering are lists; the others are maps, so that a request is
  dropped when there is one with its key already.
-/

import Mathlib.Data.Prod.Lex
import Mathlib.Order.Basic
import Tclm.Lib.SortedList
import Tclm.Comm.Messages

open Tclm.Comm
open Tclm.Comm.Stream

namespace Tclm.Client

/-- A request object of the client. -/
abbrev Handle := Nat

/-- `r->answer (status_code)`; for a registration also the id of the new process. -/
structure Answer where
  request : Handle
  status : UInt16
  id : Option UInt32 := none
deriving DecidableEq, Repr

/-- The key of a request to create a lock. -/
def createKey (pid : UInt32) (path : List UInt8) : UInt32 ×ₗ List UInt8 := toLex (pid, path)

/-- The key of a request to acquire or release a lock. -/
def modeKey (pid : UInt32) (path : List UInt8) (mode : UInt8) : UInt32 ×ₗ List UInt8 ×ₗ UInt8 :=
  toLex (pid, toLex (path, mode))

/-- The requests that wait for an answer. -/
structure AccessConcentrator where
  registerProcessNextNonce : UInt32 := 0
  registerProcessRequests : List (UInt32 × Handle) := []
  unregisterProcessRequests : List (UInt32 × Handle) := []
  createLockRequests : SortedMap (UInt32 ×ₗ List UInt8) Handle := SortedList.empty
  acquireLockRequests : SortedMap (UInt32 ×ₗ List UInt8 ×ₗ UInt8) Handle := SortedList.empty
  releaseLockRequests : SortedMap (UInt32 ×ₗ List UInt8 ×ₗ UInt8) Handle := SortedList.empty

-- ============================================================================
-- Sending
-- ============================================================================

/-- Allocate a stream and write a message to it; without memory nothing is sent. -/
def sendMessage (heap : Heap) (n : Nat) (write : StreamM Unit) :
    Except StreamFault (Option Stream) := do
  match ← newStream heap n with
  | none => pure none
  | some s => do
      let ((), s) ← write s
      pure (some s)

/-- `send_register_process_request` -/
def sendRegisterProcessRequest (host : ByteOrder) (heap : Heap) (nonce : UInt32) :
    Except StreamFault (Option Stream) :=
  sendMessage heap 9 do
    writeMessageHeader host heap MsgId.regProc 4
    writeUInt32 host nonce

/-- `send_unregister_process_request` -/
def sendUnregisterProcessRequest (host : ByteOrder) (heap : Heap) (id : UInt32) :
    Except StreamFault (Option Stream) :=
  sendMessage heap 9 do
    writeMessageHeader host heap MsgId.unregProc 4
    writeUInt32 host id

/-- `send_create_lock_request` -/
def sendCreateLockRequest (host : ByteOrder) (heap : Heap) (pid : UInt32) (path : List UInt8)
    (acquireX : Bool) : Except StreamFault (Option Stream) :=
  sendMessage heap (5 + 4 + 2 + path.length + 1) do
    writeMessageHeader host heap MsgId.createLock (UInt32.ofNat (4 + 2 + path.length + 1))
    writeUInt32 host pid
    writeUInt16 host (UInt16.ofNat path.length)
    copySeekLength path
    writeUInt8 (if acquireX then 1 else 0)

/-- Common to the requests that name a mode. -/
def sendModeRequest (id : UInt8) (host : ByteOrder) (heap : Heap) (pid : UInt32)
    (path : List UInt8) (mode : UInt8) : Except StreamFault (Option Stream) :=
  sendMessage heap (5 + 4 + 2 + path.length + 1) do
    writeMessageHeader host heap id (UInt32.ofNat (4 + 2 + path.length + 1))
    writeUInt32 host pid
    writeUInt16 host (UInt16.ofNat path.length)
    copyLengthSeek path
    writeUInt8 mode

/-- `send_acquire_lock_request` -/
def sendAcquireLockRequest := sendModeRequest MsgId.acquireLock

/-- `send_release_lock_request` -/
def sendReleaseLockRequest := sendModeRequest MsgId.releaseLock

namespace AccessConcentrator

-- ============================================================================
-- Issuing requests
-- ============================================================================

/-- `issue_register_process_request` -/
def issueRegisterProcessRequest (host : ByteOrder) (heap : Heap) (r : Handle)
    (ac : AccessConcentrator) : Except StreamFault (Option Stream × AccessConcentrator) := do
  -- the nonce wraps at `numeric_limits<uint32_t>::max()`, as `UInt32` addition does
  let nonce := ac.registerProcessNextNonce
  let ac := { ac with
    registerProcessNextNonce := nonce + 1
    registerProcessRequests := ac.registerProcessRequests ++ [(nonce, r)] }
  let s ← sendRegisterProcessRequest host heap nonce
  pure (s, ac)

/-- `issue_unregister_process_request` -/
def issueUnregisterProcessRequest (host : ByteOrder) (heap : Heap) (r : Handle) (id : UInt32)
    (ac : AccessConcentrator) : Except StreamFault (Option Stream × AccessConcentrator) := do
  let ac := { ac with unregisterProcessRequests := ac.unregisterProcessRequests ++ [(id, r)] }
  let s ← sendUnregisterProcessRequest host heap id
  pure (s, ac)

/-- `issue_create_lock_request` -/
def issueCreateLockRequest (host : ByteOrder) (heap : Heap) (r : Handle) (pid : UInt32)
    (path : List UInt8) (acquireX : Bool) (ac : AccessConcentrator) :
    Except StreamFault (Option Stream × AccessConcentrator) := do
  let ac := { ac with
    createLockRequests := ac.createLockRequests.insert (createKey pid path, r) }
  let s ← sendCreateLockRequest host heap pid path acquireX
  pure (s, ac)

/-- `issue_acquire_lock_request` -/
def issueAcquireLockRequest (host : ByteOrder) (heap : Heap) (r : Handle) (pid : UInt32)
    (path : List UInt8) (mode : UInt8) (ac : AccessConcentrator) :
    Except StreamFault (Option Stream × AccessConcentrator) := do
  let ac := { ac with
    acquireLockRequests := ac.acquireLockRequests.insert (modeKey pid path mode, r) }
  let s ← sendAcquireLockRequest host heap pid path mode
  pure (s, ac)

/-- `issue_release_lock_request` -/
def issueReleaseLockRequest (host : ByteOrder) (heap : Heap) (r : Handle) (pid : UInt32)
    (path : List UInt8) (mode : UInt8) (ac : AccessConcentrator) :
    Except StreamFault (Option Stream × AccessConcentrator) := do
  let ac := { ac with
    releaseLockRequests := ac.releaseLockRequests.insert (modeKey pid path mode, r) }
  let s ← sendReleaseLockRequest host heap pid path mode
  pure (s, ac)

-- ============================================================================
-- Answering requests
-- ============================================================================

/-- The loop of `receive_register_process_response`. -/
def answerRegister (nonce : UInt32) (status : UInt16) (id : Option UInt32)
    (ac : AccessConcentrator) : Option Answer × AccessConcentrator :=
  match ac.registerProcessRequests.splitFirst fun e => e.1 = nonce with
  | some (pre, e, post) =>
      (some ⟨e.2, status, id⟩, { ac with registerProcessRequests := pre ++ post })
  | none => (none, ac)

/-- The loop of `receive_unregister_process_response`. -/
def answerUnregister (id : UInt32) (status : UInt16) (ac : AccessConcentrator) :
    Option Answer × AccessConcentrator :=
  match ac.unregisterProcessRequests.splitFirst fun e => e.1 = id with
  | some (pre, e, post) =>
      (some ⟨e.2, status, none⟩, { ac with unregisterProcessRequests := pre ++ post })
  | none => (none, ac)

/-- The second half of `receive_create_lock_update`. -/
def answerCreate (pid : UInt32) (path : List UInt8) (status : UInt16) (ac : AccessConcentrator) :
    Option Answer × AccessConcentrator :=
  match ac.createLockRequests.lookup (createKey pid path) with
  | some r =>
      if status ≠ ResponseStatus.queued then
        (some ⟨r, status, none⟩,
          { ac with createLockRequests := ac.createLockRequests.erase (createKey pid path) })
      else (none, ac)
  | none => (none, ac)

/-- The second half of `receive_acquire_lock_update`. -/
def answerAcquire (pid : UInt32) (path : List UInt8) (mode : UInt8) (status : UInt16)
    (ac : AccessConcentrator) : Option Answer × AccessConcentrator :=
  match ac.acquireLockRequests.lookup (modeKey pid path mode) with
  | some r =>
      if status ≠ ResponseStatus.queued then
        (some ⟨r, status, none⟩,
          { ac with acquireLockRequests := ac.acquireLockRequests.erase (modeKey pid path mode) })
      else (none, ac)
  | none => (none, ac)

/-- The second half of `receive_release_lock_response`. -/
def answerRelease (pid : UInt32) (path : List UInt8) (mode : UInt8) (status : UInt16)
    (ac : AccessConcentrator) : Option Answer × AccessConcentrator :=
  match ac.releaseLockRequests.lookup (modeKey pid path mode) with
  | some r =>
      (some ⟨r, status, none⟩,
        { ac with releaseLockRequests := ac.releaseLockRequests.erase (modeKey pid path mode) })
  | none => (none, ac)

end AccessConcentrator

-- ============================================================================
-- Receiving
-- ============================================================================

/-- The process and the path at the start of an update. -/
def readLockFields (host : ByteOrder) : StreamM (UInt32 × List UInt8) := do
  let pid ← readUInt32 host
  let pathLength ← readUInt16 host
  let path ← pointerBytes pathLength.toNat
  seek ((← tell) + pathLength.toNat)
  pure (pid, path)

/-- The id of a new process, read behind `RESPONSE_STATUS_SUCCESS` only. -/
def readId (host : ByteOrder) (status : UInt16) : StreamM (Option UInt32) := do
  let s ← get
  if status = ResponseStatus.success ∧ 4 ≤ s.remainingLength then some <$> readUInt32 host
  else pure none

/-- `receive_register_process_response` -/
def receiveRegisterProcessResponse (host : ByteOrder) (ac : AccessConcentrator) :
    StreamM (Option Answer × AccessConcentrator) := do
  let nonce ← readUInt32 host
  let status ← readUInt16 host
  let id ← readId host status
  pure (ac.answerRegister nonce status id)

/-- `receive_unregister_process_response` -/
def receiveUnregisterProcessResponse (host : ByteOrder) (ac : AccessConcentrator) :
    StreamM (Option Answer × AccessConcentrator) := do
  let id ← readUInt32 host
  let status ← readUInt16 host
  pure (ac.answerUnregister id status)

/-- `receive_create_lock_update` -/
def receiveCreateLockUpdate (host : ByteOrder) (ac : AccessConcentrator) :
    StreamM (Option Answer × AccessConcentrator) := do
  let (pid, path) ← readLockFields host
  let status ← readUInt16 host
  pure (ac.answerCreate pid path status)

/-- `receive_acquire_lock_update` -/
def receiveAcquireLockUpdate (host : ByteOrder) (ac : AccessConcentrator) :
    StreamM (Option Answer × AccessConcentrator) := do
  let (pid, path) ← readLockFields host
  let mode ← readUInt8
  let status ← readUInt16 host
  pure (ac.answerAcquire pid path mode status)

/-- `receive_release_lock_response` -/
def receiveReleaseLockResponse (host : ByteOrder) (ac : AccessConcentrator) :
    StreamM (Option Answer × AccessConcentrator) := do
  let (pid, path) ← readLockFields host
  let mode ← readUInt8
  let status ← readUInt16 host
  pure (ac.answerRelease pid path mode status)

/-- `receive_message_tcp_internal` -/
def receiveMessageTcpInternal (host : ByteOrder) (ac : AccessConcentrator) :
    StreamM (Option Answer × AccessConcentrator) := do
  let id ← readUInt8
  let _ ← readUInt32 host
  if id = MsgId.regProcResponse then receiveRegisterProcessResponse host ac
  else if id = MsgId.unregProcResponse then receiveUnregisterProcessResponse host ac
  else if id = MsgId.createLockUpdate then receiveCreateLockUpdate host ac
  else if id = MsgId.acquireLockUpdate then receiveAcquireLockUpdate host ac
  else if id = MsgId.releaseLockResponse then receiveReleaseLockResponse host ac
  else pure (none, ac)

-- ============================================================================
-- The messages that are sent
-- ============================================================================

theorem sendMessage_spec {heap : Heap} (hheap : heap.Ample) {n : Nat} {write : StreamM Unit}
    {bs : List UInt8} (hwrite : Puts write bs) (hn : n ≤ 2 ^ 63) (hlen : bs.length ≤ n) :
    ∃ s, sendMessage heap n write = .ok (some s) ∧ s.Filled bs := by
  obtain ⟨s, hnew, hfilled, hroom⟩ := newStream_ample hheap hn
  obtain ⟨s', hrun, hfilled', -⟩ := hwrite hfilled (by rw [List.length_nil]; omega)
  refine ⟨s', ?_, hfilled'⟩
  rw [sendMessage, hnew]
  show (do let ((), s) ← write s; pure (some s)) = _
  rw [hrun]
  rfl

/-- What a thread asks the `Access_Concentrator` for. -/
inductive Call where
  | registerProcess
  | unregisterProcess (id : UInt32)
  | createLock (pid : UInt32) (path : List UInt8) (acquireX : Bool)
  | acquireLock (pid : UInt32) (path : List UInt8) (mode : UInt8)
  | releaseLock (pid : UInt32) (path : List UInt8) (mode : UInt8)
deriving DecidableEq, Repr

namespace AccessConcentrator

/-- The functions that issue a request. -/
def issue (host : ByteOrder) (heap : Heap) (r : Handle) (ac : AccessConcentrator) :
    Call → Except StreamFault (Option Stream × AccessConcentrator)
  | .registerProcess => ac.issueRegisterProcessRequest host heap r
  | .unregisterProcess id => ac.issueUnregisterProcessRequest host heap r id
  | .createLock pid path acquireX => ac.issueCreateLockRequest host heap r pid path acquireX
  | .acquireLock pid path mode => ac.issueAcquireLockRequest host heap r pid path mode
  | .releaseLock pid path mode => ac.issueReleaseLockRequest host heap r pid path mode

/-- The request that is sent for a call. -/
def request (ac : AccessConcentrator) : Call → Request
  | .registerProcess => .registerProcess ac.registerProcessNextNonce
  | .unregisterProcess id => .unregisterProcess id
  | .createLock pid path acquireX => .createLock pid path acquireX
  | .acquireLock pid path mode => .acquireLock pid path mode
  | .releaseLock pid path mode => .releaseLock pid path mode

/-- The tables after a call. -/
def remember (r : Handle) (ac : AccessConcentrator) : Call → AccessConcentrator
  | .registerProcess =>
      { ac with
        registerProcessNextNonce := ac.registerProcessNextNonce + 1
        registerProcessRequests :=
          ac.registerProcessRequests ++ [(ac.registerProcessNextNonce, r)] }
  | .unregisterProcess id =>
      { ac with unregisterProcessRequests := ac.unregisterProcessRequests ++ [(id, r)] }
  | .createLock pid path _ =>
      { ac with createLockRequests := ac.createLockRequests.insert (createKey pid path, r) }
  | .acquireLock pid path mode =>
      { ac with acquireLockRequests := ac.acquireLockRequests.insert (modeKey pid path mode, r) }
  | .releaseLock pid path mode =>
      { ac with releaseLockRequests := ac.releaseLockRequests.insert (modeKey pid path mode, r) }

/-- What a reply does to the tables. -/
def answer (ac : AccessConcentrator) : Reply → Option Answer × AccessConcentrator
  | .registered nonce status id => ac.answerRegister nonce status id
  | .unregistered id status => ac.answerUnregister id status
  | .createUpdate pid path status => ac.answerCreate pid path status
  | .acquireUpdate pid path mode status => ac.answerAcquire pid path mode status
  | .released pid path mode status => ac.answerRelease pid path mode status

/-- The requests that name a lock, whichever way the path is copied. -/
theorem sendLockRequest_spec {heap : Heap} (hheap : heap.Ample) (id : UInt8) (pid : UInt32)
    (path : List UInt8) (last : UInt8) {copy : StreamM Unit} (hpath : path.length ≤ maxPathLength)
    (hcopy : Puts copy path) :
    ∃ s, sendMessage heap (5 + 4 + 2 + path.length + 1) (do
        writeMessageHeader .little heap id (UInt32.ofNat (4 + 2 + path.length + 1))
        writeUInt32 .little pid
        writeUInt16 .little (UInt16.ofNat path.length)
        copy
        writeUInt8 last) = .ok (some s) ∧
      s.Filled (frame (id, lockFields pid path ++ [last])) := by
  have hlen : (lockFields pid path ++ [last]).length = 4 + 2 + path.length + 1 := by
    rw [List.length_append, length_lockFields, List.length_singleton]
  have hsmall : 4 + 2 + path.length + 1 < 2 ^ 32 := by
    rw [maxPathLength] at hpath
    omega
  have hput := puts_header heap id
    (puts_lockFields pid hpath hcopy (puts_writeUInt8 last)) rfl hlen hsmall
  refine sendMessage_spec hheap hput (by omega) ?_
  rw [length_frame, hlen]
  omega

/-- A call is remembered, and its request is sent. -/
theorem issue_spec {heap : Heap} (hheap : heap.Ample) (r : Handle) (ac : AccessConcentrator)
    (call : Call) (hpath : (ac.request call).path.length ≤ maxPathLength) :
    ∃ s, ac.issue .little heap r call = .ok (some s, ac.remember r call) ∧
      s.Filled (frame (ac.request call).message) := by
  have hnumber : ∀ (id : UInt8) (n : UInt32), ∃ s,
      sendMessage heap 9 (do writeMessageHeader .little heap id 4; writeUInt32 .little n) =
        .ok (some s) ∧ s.Filled (frame (id, beBytes 4 n.toNat)) := by
    intro id n
    have hput : Puts (do writeMessageHeader .little heap id 4; writeUInt32 .little n)
        (frame (id, beBytes 4 n.toNat)) :=
      puts_header heap id (puts_writeUInt32 n) rfl (length_beBytes 4 _) (by decide)
    refine sendMessage_spec hheap hput (by decide) ?_
    rw [length_frame, length_beBytes]
  cases call with
  | registerProcess =>
      obtain ⟨s, hsend, hfilled⟩ := hnumber MsgId.regProc ac.registerProcessNextNonce
      refine ⟨s, ?_, hfilled⟩
      rw [issue, issueRegisterProcessRequest, sendRegisterProcessRequest, hsend]
      rfl
  | unregisterProcess id =>
      obtain ⟨s, hsend, hfilled⟩ := hnumber MsgId.unregProc id
      refine ⟨s, ?_, hfilled⟩
      rw [issue, issueUnregisterProcessRequest, sendUnregisterProcessRequest, hsend]
      rfl
  | createLock pid path acquireX =>
      obtain ⟨s, hsend, hfilled⟩ := sendLockRequest_spec hheap MsgId.createLock pid path _ hpath
        (puts_copySeekLength path)
      refine ⟨s, ?_, hfilled⟩
      rw [issue, issueCreateLockRequest, sendCreateLockRequest, hsend]
      rfl
  | acquireLock pid path mode =>
      obtain ⟨s, hsend, hfilled⟩ := sendLockRequest_spec hheap MsgId.acquireLock pid path mode hpath
        (puts_copyLengthSeek path)
      refine ⟨s, ?_, hfilled⟩
      rw [issue, issueAcquireLockRequest, sendAcquireLockRequest, sendModeRequest, hsend]
      rfl
  | releaseLock pid path mode =>
      obtain ⟨s, hsend, hfilled⟩ := sendLockRequest_spec hheap MsgId.releaseLock pid path mode hpath
        (puts_copyLengthSeek path)
      refine ⟨s, ?_, hfilled⟩
      rw [issue, issueReleaseLockRequest, sendReleaseLockRequest, sendModeRequest, hsend]
      rfl

end AccessConcentrator

-- ============================================================================
-- The messages that are received
-- ============================================================================

theorem gets_readLockFields (pid : UInt32) {path : List UInt8}
    (hpath : path.length ≤ maxPathLength) :
    Gets (readLockFields .little) (lockFields pid path) (pid, path) := by
  have hlen : (UInt16.ofNat path.length).toNat = path.length := by
    rw [maxPathLength] at hpath
    rw [UInt16.toNat_ofNat', Nat.mod_eq_of_lt (by omega)]
  have hlength := gets_readUInt16 (UInt16.ofNat path.length)
  rw [hlen] at hlength
  have htake := (gets_takeBytes path).map fun bs => (pid, bs)
  have hblock : (do
      let path' ← pointerBytes path.length
      seek ((← tell) + path.length)
      pure (pid, path')) = (fun bs => (pid, bs)) <$> takeBytes path.length := by
    simp only [takeBytes, map_eq_pure_bind, bind_assoc, pure_bind]
  rw [readLockFields, lockFields]
  refine (gets_readUInt32 pid).bind (hlength.bind ?_)
  rw [hlen, hblock]
  exact htake

/-- The id of a new process, or nothing behind another status. -/
theorem gets_readId {status : UInt16} {id : Option UInt32}
    (h : id.isSome = true ↔ status = ResponseStatus.success) :
    Gets (readId .little status) (idField id) id := by
  intro s tail hlen hrest
  show (if status = ResponseStatus.success ∧ 4 ≤ s.remainingLength then
      some <$> readUInt32 .little else pure none : StreamM (Option UInt32)) s = _
  cases id with
  | none =>
      have hstatus : status ≠ ResponseStatus.success := fun heq => by
        have hsome := h.mpr heq
        cases hsome
      rw [if_neg fun hcond => hstatus hcond.1]
      rfl
  | some id =>
      have hfour : 4 ≤ s.remainingLength := by
        have hlength := length_rest hlen
        rw [hrest, List.length_append, idField, length_beBytes] at hlength
        rw [remainingLength]
        omega
      rw [if_pos ⟨h.mp rfl, hfour⟩]
      exact (gets_readUInt32 id).map some hlen hrest

/-- What the handlers read from a message; `none` for a message that is no reply. -/
def decode (host : ByteOrder) : StreamM (Option Reply) := do
  let id ← readUInt8
  let _ ← readUInt32 host
  if id = MsgId.regProcResponse then do
    let nonce ← readUInt32 host
    let status ← readUInt16 host
    let id ← readId host status
    pure (some (.registered nonce status id))
  else if id = MsgId.unregProcResponse then do
    let id ← readUInt32 host
    let status ← readUInt16 host
    pure (some (.unregistered id status))
  else if id = MsgId.createLockUpdate then do
    let (pid, path) ← readLockFields host
    let status ← readUInt16 host
    pure (some (.createUpdate pid path status))
  else if id = MsgId.acquireLockUpdate then do
    let (pid, path) ← readLockFields host
    let mode ← readUInt8
    let status ← readUInt16 host
    pure (some (.acquireUpdate pid path mode status))
  else if id = MsgId.releaseLockResponse then do
    let (pid, path) ← readLockFields host
    let mode ← readUInt8
    let status ← readUInt16 host
    pure (some (.released pid path mode status))
  else pure none

/-- What a message does to the tables, in terms of the reply in it. -/
def AccessConcentrator.accept (ac : AccessConcentrator) :
    Option Reply → Option Answer × AccessConcentrator
  | some r => ac.answer r
  | none => (none, ac)

/-- A message has its effect through the reply in it. -/
theorem receiveMessageTcpInternal_eq (host : ByteOrder) (ac : AccessConcentrator) :
    receiveMessageTcpInternal host ac = ac.accept <$> decode host := by
  simp only [receiveMessageTcpInternal, decode, map_bind]
  refine bind_congr fun id => bind_congr fun _ => ?_
  split
  · simp only [receiveRegisterProcessResponse, map_bind, map_pure]
    rfl
  split
  · simp only [receiveUnregisterProcessResponse, map_bind, map_pure]
    rfl
  split
  · simp only [receiveCreateLockUpdate, map_bind, map_pure]
    rfl
  split
  · simp only [receiveAcquireLockUpdate, map_bind, map_pure]
    rfl
  split
  · simp only [receiveReleaseLockResponse, map_bind, map_pure]
    rfl
  · rfl

/-- A reply is decoded to exactly its fields. -/
theorem gets_decode {r : Reply} (hr : r.WellFormed) :
    Gets (decode .little) (frame r.message) (some r) := by
  apply gets_frame
  cases r with
  | registered nonce status id =>
      exact (gets_readUInt32 nonce).bind ((gets_readUInt16 status).bind
        ((gets_readId hr).bind_pure fun id => some (Reply.registered nonce status id)))
  | unregistered id status =>
      exact (gets_readUInt32 id).bind
        ((gets_readUInt16 status).bind_pure fun status => some (Reply.unregistered id status))
  | createUpdate pid path status =>
      exact (gets_readLockFields pid hr).bind
        ((gets_readUInt16 status).bind_pure fun status => some (Reply.createUpdate pid path status))
  | acquireUpdate pid path mode status =>
      exact (gets_readLockFields pid hr).bind ((gets_readUInt8 mode).bind
        ((gets_readUInt16 status).bind_pure fun status =>
          some (Reply.acquireUpdate pid path mode status)))
  | released pid path mode status =>
      exact (gets_readLockFields pid hr).bind ((gets_readUInt8 mode).bind
        ((gets_readUInt16 status).bind_pure fun status =>
          some (Reply.released pid path mode status)))

/-- A reply has its effect on the tables. -/
theorem AccessConcentrator.gets_reply (ac : AccessConcentrator) {r : Reply} (hr : r.WellFormed) :
    Gets (receiveMessageTcpInternal .little ac) (frame r.message) (ac.answer r) := by
  rw [receiveMessageTcpInternal_eq]
  exact (gets_decode hr).map ac.accept

end Tclm.Client
