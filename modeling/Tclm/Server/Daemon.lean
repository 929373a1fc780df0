/-
  Tclm.Server.Daemon

  The daemon, `src/server/daemon.{h,cpp}`: it reads a message of a client, calls the
  backend and writes the reply.

  A handler gets the stream with the message, positioned behind the header, and returns
  the messages it sends, the set of requests that were answered meanwhile, and the daemon
  afterwards.  The two handlers that release locks pass that set to
  `notify_answered_requests` at their end; the set is ordered by the addresses of the
  requests, so the notifications come in any order (`Delivers`).

  Of a process the connection is kept here, by the identity of the process.  An `Env`
  collects what is not up to the daemon: the byte order of the host, the answers of the
  allocator, which connections are up, and how many turns a loop of the backend may take.
-/

import Tclm.Comm.Messages
import Tclm.Server.Backend

open Tclm.Comm
open Tclm.Comm.Stream

namespace Tclm.Server

/-- A `TCP_Connection`. -/
abbrev Conn := Nat

/-- A message on its way to a client. -/
abbrev Packet := Conn × Stream

/-- The daemon with its backend, and `tcp_conn` of every process. -/
structure Daemon where
  backend : Backend := .init
  tcpConn : ProcessRef → Option Conn := fun _ => none

/-- What the daemon does not decide. -/
structure Env where
  host : ByteOrder := .little
  /-- Answers the allocations for a reply. -/
  heap : Heap
  /-- Answers the allocations for the records of a list, or for the notifications. -/
  heaps : Nat → Heap
  /-- Whether a connection is still there, `tcp_conn.lock ()`. -/
  up : Conn → Bool := fun _ => true
  /-- The addresses and ports of the connections. -/
  peers : List (UInt32 × UInt16) := []
  fuel : Nat

/-- Nothing fails. -/
def Env.plain : Env := { heap := .zeros, heaps := fun _ => .zeros, fuel := 1 }

/-- What can go wrong: a stream operation (`noMemory` stands for `bad_alloc`) or the
    backend. -/
inductive DaemonFault where
  | stream (fault : StreamFault)
  | backend (fault : Fault)
deriving DecidableEq, Repr

/-- A stream operation as a step of a handler. -/
def onStream {α : Type} (act : Except StreamFault α) : Except DaemonFault α :=
  act.mapError .stream

/-- A call of the backend as a step of a handler. -/
def onBackend {α : Type} (act : Except Fault α) : Except DaemonFault α := act.mapError .backend

/-- What a handler returns. -/
abbrev Handled := List Packet × Finset LockRequest × Daemon

namespace Daemon

/-- `daemon::update_pid_connection` -/
def updatePidConnection (d : Daemon) (pid : UInt32) (c : Conn) : Daemon :=
  match d.backend.processes.lookup pid with
  | some p => { d with tcpConn := Function.update d.tcpConn p.object (some c) }
  | none => d

-- ============================================================================
-- Lists
-- ============================================================================

/-- Write one record after the other; the first allocator answers for the first record. -/
def writeRecords {α : Type} (write : Heap → α → StreamM Unit) :
    (Nat → Heap) → List α → StreamM Unit
  | _, [] => pure ()
  | heaps, a :: as => do
      write (heaps 0) a
      writeRecords write (fun i => heaps (i + 1)) as

/-- A new stream with a header whose length is filled in later. -/
def newListing (env : Env) (id : UInt8) : Except DaemonFault Stream := do
  if env.heap.calloc then
    let ((), s) ← onStream (writeMessageHeader env.host env.heap id 0 {})
    pure s
  else throw (.stream .noMemory)

/-- Write the records of a list behind the header, and fill in the length. -/
def finishListing (env : Env) (write : StreamM Unit) (s : Stream) : Except DaemonFault Stream := do
  let ((), s) ← onStream ((do
    write
    updateMessageLength env.host (← tell) : StreamM Unit) s)
  pure s

/-- The record of a connection. -/
def writeConnection (host : ByteOrder) (heap : Heap) (peer : UInt32 × UInt16) : StreamM Unit := do
  reserve heap 7
  writeUInt8 0
  writeUInt32 host peer.1
  writeUInt16 host peer.2

/-- `daemon::receive_message_list_connections` -/
def receiveMessageListConnections (env : Env) (c : Conn) (d : Daemon) :
    Except DaemonFault Handled := do
  let s ← newListing env MsgId.listConnsResponse
  let s ← finishListing env (writeRecords (writeConnection env.host) env.heaps env.peers) s
  pure ([(c, s)], ∅, d)

/-- The record of a process. -/
def writeProcess (host : ByteOrder) (heap : Heap) (p : Process) : StreamM Unit := do
  reserve heap 8
  writeUInt32 host p.id
  writeUInt32 host (UInt32.ofNat p.getLockCount)

/-- `daemon::receive_message_list_processes` -/
def receiveMessageListProcesses (env : Env) (c : Conn) (d : Daemon) :
    Except DaemonFault Handled := do
  let s ← newListing env MsgId.listProcsResponse
  let processes := d.backend.processes.entries.map Prod.snd
  let s ← finishListing env (writeRecords (writeProcess env.host) env.heaps processes) s
  pure ([(c, s)], ∅, d)

end Daemon

mutual
/-- A lock and all locks below it, in the order of `Lock::for_each_child`. -/
def Lock.visit (level : UInt32) : Lock → List (UInt32 × Lock)
  | .node k s cs => (level, .node k s cs) :: Lock.forEachChild (level + 1) cs
/-- `Lock::for_each_child` -/
def Lock.forEachChild (level : UInt32) : List Lock → List (UInt32 × Lock)
  | [] => []
  | c :: cs => Lock.visit level c ++ Lock.forEachChild level cs
end

/-- `Lock_Forest::for_each_lock` -/
def LockForest.forEachLock (f : LockForest) : List (UInt32 × Lock) :=
  f.roots.entries.flatMap fun e => Lock.visit 0 e.2

/-- The status of a lock as six bits. -/
def LockState.statusBits (s : LockState) : UInt8 :=
  (if s.lockersIS = 0 then 0 else 0x40) |||
  (if s.lockersISplus = 0 then 0 else 0x20) |||
  (if s.lockersIX = 0 then 0 else 0x10) |||
  (if s.lockersS = 0 then 0 else 0x4) |||
  (if s.lockerSplus = none then 0 else 0x2) |||
  (if s.lockerX = none then 0 else 0x1)

namespace Daemon

/-- The record of a lock. -/
def writeLock (host : ByteOrder) (heap : Heap) (x : UInt32 × Lock) : StreamM Unit := do
  let name := x.2.name
  reserve heap (name.length + 4 + 2 + 1)
  writeUInt32 host x.1
  writeUInt16 host (UInt16.ofNat name.length)
  copyExtendSeek name
  writeUInt8 x.2.val.statusBits

/-- `daemon::receive_message_list_locks` -/
def receiveMessageListLocks (env : Env) (c : Conn) (d : Daemon) : Except DaemonFault Handled := do
  let s ← newListing env MsgId.listLocksResponse
  let locks := d.backend.forest.forEachLock
  let s ← finishListing env (writeRecords (writeLock env.host) env.heaps locks) s
  pure ([(c, s)], ∅, d)

/-- The record of a lock that a process holds. -/
def writeHeldLock (host : ByteOrder) (heap : Heap) (x : PathString × UInt8) : StreamM Unit := do
  reserve heap (x.1.length + 1 + 2)
  writeUInt16 host (UInt16.ofNat x.1.length)
  copyExtendSeek x.1
  writeUInt8 x.2

/-- What follows the header of the list of a process' locks. -/
def writeLocksOfProcess (host : ByteOrder) (heaps : Nat → Heap) (pid : UInt32) :
    Option Process → StreamM Unit
  | none => do
      reserve (heaps 0) 6
      writeUInt32 host pid
      writeUInt16 host ResponseStatus.noSuchProcess
  | some p => do
      reserve (heaps 0) 6
      writeUInt32 host pid
      writeUInt16 host ResponseStatus.success
      writeRecords (writeHeldLock host) (fun i => heaps (i + 1)) p.heldLocks.entries

/-- `daemon::receive_message_list_locks_of_process` -/
def receiveMessageListLocksOfProcess (env : Env) (c : Conn) (input : Stream) (length : UInt32)
    (d : Daemon) : Except DaemonFault Handled := do
  if length ≠ 4 then pure ([], ∅, d)
  else
    let (pid, _) ← onStream (readUInt32 env.host input)
    let s ← newListing env MsgId.listLocksProcessResponse
    let s ← finishListing env
      (writeLocksOfProcess env.host env.heaps pid (d.backend.processes.lookup pid)) s
    pure ([(c, s)], ∅, d)

-- ============================================================================
-- Processes
-- ============================================================================

/-- Write to a stream. -/
def write (act : StreamM Unit) (s : Stream) : Except DaemonFault Stream := do
  let ((), s) ← onStream (act s)
  pure s

/-- What follows the nonce in the answer to a registration. -/
def writeRegistered (host : ByteOrder) : Option UInt32 → StreamM Unit
  | some id => do
      writeUInt16 host ResponseStatus.success
      writeUInt32 host id
  | none => do
      writeUInt16 host ResponseStatus.tooManyProcesses
      updateMessageLength host 11

/-- Register a process and answer. -/
def registerProcess (env : Env) (c : Conn) (nonce : UInt32) (d : Daemon) :
    Except DaemonFault Handled := do
  match ← onStream (newStream env.heap 15) with
  | none => throw (.stream .noMemory)
  | some s => do
      let s ← write (do
        writeMessageHeader env.host env.heap MsgId.regProcResponse 10
        writeUInt32 env.host nonce) s
      let (id, b) := d.backend.registerProcess
      let d := { d with backend := b }
      let d := match id with
        | some id => d.updatePidConnection id c
        | none => d
      let s ← write (writeRegistered env.host id) s
      pure ([(c, s)], ∅, d)

/-- `daemon::receive_message_register_process` -/
def receiveMessageRegisterProcess (env : Env) (c : Conn) (input : Stream) (d : Daemon) :
    Except DaemonFault Handled := do
  let (nonce, _) ← onStream (readUInt32 env.host input)
  d.registerProcess env c nonce

end Daemon

/-- The status code for the result of unregistering a process. -/
def UnregisterResult.status : UnregisterResult → UInt16
  | .success => ResponseStatus.success
  | .nonExistent => ResponseStatus.noSuchProcess
  | .holdsLocks => ResponseStatus.processHoldsLocks

/-- The status code for the result of creating a lock. -/
def CreateLockResult.status : CreateLockResult → UInt16
  | .noSuchProcess => ResponseStatus.noSuchProcess
  | .created => ResponseStatus.success
  | .queued => ResponseStatus.queued
  | .exists => ResponseStatus.lockExists
  | .parentNotHeld => ResponseStatus.parentNotHeld

/-- `ACQUIRE_LOCK_RESULT_*` are status codes. -/
def AcquireLockResult.status : AcquireLockResult → UInt16
  | .noSuchProcess => ResponseStatus.noSuchProcess
  | .acquired => ResponseStatus.success
  | .queued => ResponseStatus.queued
  | .noSuchLock => ResponseStatus.noSuchLock

/-- `RELEASE_LOCK_RESULT_*` are status codes. -/
def ReleaseLockResult.status : ReleaseLockResult → UInt16
  | .noSuchProcess => ResponseStatus.noSuchProcess
  | .released => ResponseStatus.success
  | .notHeld => ResponseStatus.lockNotHeld

namespace Daemon

/-- Unregister a process and answer. -/
def unregisterProcess (env : Env) (c : Conn) (id : UInt32) (d : Daemon) :
    Except DaemonFault Handled := do
  let d := d.updatePidConnection id c
  match ← onStream (newStream env.heap 11) with
  | none => throw (.stream .noMemory)
  | some s => do
      let s ← write (do
        writeMessageHeader env.host env.heap MsgId.unregProcResponse 6
        writeUInt32 env.host id) s
      let (res, answered, b) ← onBackend (d.backend.unregisterProcess env.fuel id)
      let s ← write (writeUInt16 env.host res.status) s
      pure ([(c, s)], answered, { d with backend := b })

/-- `daemon::receive_message_unregister_process` -/
def receiveMessageUnregisterProcess (env : Env) (c : Conn) (input : Stream) (d : Daemon) :
    Except DaemonFault Handled := do
  let (id, _) ← onStream (readUInt32 env.host input)
  d.unregisterProcess env c id

-- ============================================================================
-- Locks
-- ============================================================================

/-- What a message about a lock says: a process, the declared length of the path, the path
    and a last byte.  The path is read from memory without a look at the length of the
    message. -/
def readLockRequest (host : ByteOrder) : StreamM (UInt32 × UInt16 × PathString × UInt8) := do
  let pid ← readUInt32 host
  let pathLength ← readUInt16 host
  let path ← pointerBytes pathLength.toNat
  seek ((← tell) + pathLength.toNat)
  let last ← readUInt8
  pure (pid, pathLength, path, last)

/-- Create a lock and answer. -/
def createLock (env : Env) (c : Conn) (pid : UInt32) (pathLength : UInt16) (path : PathString)
    (acquireX : Bool) (d : Daemon) : Except DaemonFault Handled := do
  let d := d.updatePidConnection pid c
  match ← onStream (newStream env.heap (5 + 4 + 2 + pathLength.toNat + 2)) with
  | none => pure ([], ∅, d)
  | some s => do
      let s ← write (writeMessageHeader env.host env.heap MsgId.createLockUpdate
        (UInt32.ofNat (4 + 2 + pathLength.toNat + 2))) s
      let (res, b) ← onBackend (d.backend.createLock pid path acquireX)
      let s ← write (do
        writeUInt32 env.host pid
        writeUInt16 env.host pathLength
        copyLengthSeek path
        writeUInt16 env.host res.status) s
      pure ([(c, s)], ∅, { d with backend := b })

/-- `daemon::receive_message_create_lock` -/
def receiveMessageCreateLock (env : Env) (c : Conn) (input : Stream) (d : Daemon) :
    Except DaemonFault Handled := do
  let ((pid, pathLength, path, last), _) ← onStream (readLockRequest env.host input)
  d.createLock env c pid pathLength path (decide (0 < last))

/-- The request behind its header. -/
def readBody : StreamM (List UInt8) := do
  seek 5
  let s ← get
  pointerBytes s.remainingLength

/-- Copy the request behind its header to a reply, which gets the length of the request. -/
def echo (body : List UInt8) (length : Nat) : StreamM Unit := do
  memcpy body
  setLength length
  seek length

/-- Release a lock and answer; the request is sent back with the status. -/
def releaseLock (env : Env) (c : Conn) (input : Stream) (pid : UInt32) (path : PathString)
    (mode : UInt8) (d : Daemon) : Except DaemonFault Handled := do
  let d := d.updatePidConnection pid c
  match ← onStream (newStream env.heap (input.capacity + 2)) with
  | none => pure ([], ∅, d)
  | some s => do
      let s ← write (writeMessageHeader env.host env.heap MsgId.releaseLockResponse
        (UInt32.ofNat (input.length + 2 - 5))) s
      let (body, _) ← onStream (readBody input)
      let s ← write (echo body input.length) s
      let (res, answered, b) ← onBackend (d.backend.releaseLock pid path mode)
      let s ← write (writeUInt16 env.host res.status) s
      pure ([(c, s)], answered, { d with backend := b })

/-- `daemon::receive_message_release_lock` -/
def receiveMessageReleaseLock (env : Env) (c : Conn) (input : Stream) (d : Daemon) :
    Except DaemonFault Handled := do
  let ((pid, _, path, mode), input) ← onStream (readLockRequest env.host input)
  d.releaseLock env c input pid path mode

/-- Acquire a lock and answer; the request is sent back with the status. -/
def acquireLock (env : Env) (c : Conn) (input : Stream) (pid : UInt32) (path : PathString)
    (mode : UInt8) (d : Daemon) : Except DaemonFault Handled := do
  let d := d.updatePidConnection pid c
  match ← onStream (newStream env.heap (input.capacity + 2)) with
  | none => pure ([], ∅, d)
  | some s => do
      let s ← write (writeMessageHeader env.host env.heap MsgId.acquireLockUpdate
        (UInt32.ofNat (input.length + 2 - 5))) s
      let (body, _) ← onStream (readBody input)
      let s ← write (echo body input.length) s
      let (res, b) ← onBackend (d.backend.acquireLock pid path mode)
      let s ← write (writeUInt16 env.host res.status) s
      pure ([(c, s)], ∅, { d with backend := b })

/-- `daemon::receive_message_acquire_lock` -/
def receiveMessageAcquireLock (env : Env) (c : Conn) (input : Stream) (d : Daemon) :
    Except DaemonFault Handled := do
  let ((pid, _, path, mode), input) ← onStream (readLockRequest env.host input)
  d.acquireLock env c input pid path mode

/-- The handler for a message id, with the stream behind the header. -/
def handleMessage (env : Env) (c : Conn) (id : UInt8) (length : UInt32) (input : Stream)
    (d : Daemon) : Except DaemonFault Handled :=
  if id = MsgId.listConns then d.receiveMessageListConnections env c
  else if id = MsgId.listProcs then d.receiveMessageListProcesses env c
  else if id = MsgId.listLocks then d.receiveMessageListLocks env c
  else if id = MsgId.listLocksProcess then
    d.receiveMessageListLocksOfProcess env c input length
  else if id = MsgId.regProc then d.receiveMessageRegisterProcess env c input
  else if id = MsgId.unregProc then d.receiveMessageUnregisterProcess env c input
  else if id = MsgId.createLock then d.receiveMessageCreateLock env c input
  else if id = MsgId.releaseLock then d.receiveMessageReleaseLock env c input
  else if id = MsgId.acquireLock then d.receiveMessageAcquireLock env c input
  else pure ([], ∅, d)

/-- The ids of the messages for which there is a handler. -/
def handledIds : List UInt8 :=
  [MsgId.listConns, MsgId.listProcs, MsgId.listLocks, MsgId.listLocksProcess, MsgId.regProc,
    MsgId.unregProc, MsgId.createLock, MsgId.releaseLock, MsgId.acquireLock]

/-- One case for each handler, and one for all other messages. -/
theorem msgId_cases (id : UInt8) :
    id = MsgId.listConns ∨ id = MsgId.listProcs ∨ id = MsgId.listLocks ∨
      id = MsgId.listLocksProcess ∨ id = MsgId.regProc ∨ id = MsgId.unregProc ∨
      id = MsgId.createLock ∨ id = MsgId.releaseLock ∨ id = MsgId.acquireLock ∨
      id ∉ handledIds := by
  by_cases h : id ∈ handledIds
  · simpa [handledIds, or_assoc] using Or.inl h
  · simp [h]

/-- Other messages are ignored. -/
theorem handleMessage_of_notMem {id : UInt8} (h : id ∉ handledIds) (env : Env) (c : Conn)
    (length : UInt32) (input : Stream) (d : Daemon) :
    d.handleMessage env c id length input = .ok ([], ∅, d) := by
  simp only [handledIds, List.mem_cons, List.not_mem_nil, or_false, not_or] at h
  simp [handleMessage, h]
  rfl

/-- `daemon::receive_message_internal` -/
def receiveMessageInternal (env : Env) (c : Conn) (input : Stream) (d : Daemon) :
    Except DaemonFault Handled := do
  let (id, input) ← onStream (readUInt8 input)
  let (length, input) ← onStream (readUInt32 env.host input)
  d.handleMessage env c id length input

-- ============================================================================
-- Notifications
-- ============================================================================

/-- The components of a path with dots between them, as `notify_answered_requests` assembles
    them. -/
def joinPath (path : LockPath) : PathString :=
  path.foldl (fun s component => (if 0 < s.length then s ++ [dot] else s) ++ component) []

/-- The process a request belongs to, if it still exists. -/
def requester (d : Daemon) (r : LockRequest) : Option Process :=
  (d.backend.processes.entries.find? fun e => e.2.object = r.requester).map Prod.snd

/-- The status that the update for an answered request carries. -/
def updateStatus (r : LockRequest) : UInt16 :=
  if r.createMissing then
    if r.lockCreated then ResponseStatus.success else ResponseStatus.lockExists
  else if r.acquireStatus = .acquired then ResponseStatus.success
  else ResponseStatus.noSuchLock

/-- The message that tells a process of its answered request. -/
def writeUpdate (host : ByteOrder) (heap : Heap) (pid : UInt32) (r : LockRequest)
    (plength : UInt32) : StreamM Unit := do
  let path := joinPath r.path
  writeMessageHeader host heap
    (if r.createMissing then MsgId.createLockUpdate else MsgId.acquireLockUpdate) plength
  writeUInt32 host pid
  writeUInt16 host (UInt16.ofNat path.length)
  copySeekLength path
  if r.createMissing then writeUInt16 host (updateStatus r)
  else do
    writeUInt8 r.mode
    writeUInt16 host (updateStatus r)

/-- One turn of the loop of `daemon::notify_answered_requests`. -/
def notify (env : Env) (heap : Heap) (d : Daemon) (r : LockRequest) :
    Except DaemonFault (List Packet) := do
  match d.requester r with
  | none => pure []
  | some p =>
      match d.tcpConn p.object with
      | none => pure []
      | some c =>
          if env.up c then
            let plength : UInt32 := UInt32.ofNat
              (4 + 2 + (joinPath r.path).length + (if r.createMissing then 0 else 1) + 2)
            match ← onStream (newStream heap (plength + 5).toNat) with
            | none => pure []
            | some s => do
                let s ← write (writeUpdate env.host heap p.id r plength) s
                pure [(c, s)]
          else pure []

/-- `daemon::notify_answered_requests` -/
def notifyAnsweredRequests (env : Env) (d : Daemon) :
    (Nat → Heap) → List LockRequest → Except DaemonFault (List Packet)
  | _, [] => pure []
  | heaps, r :: requests => do
      let first ← d.notify env (heaps 0) r
      let more ← notifyAnsweredRequests env d (fun i => heaps (i + 1)) requests
      pure (first ++ more)

/-- The daemon takes a message from a connection and sends messages.  The requests that were
    answered are notified in the order of their addresses, which is any. -/
def Delivers (env : Env) (d : Daemon) (c : Conn) (input : Stream) (sent : List Packet)
    (d' : Daemon) : Prop :=
  ∃ replies answered requests updates,
    d.receiveMessageInternal env c input = .ok (replies, answered, d') ∧
    requests.Nodup ∧ requests.toFinset = answered ∧
    d'.notifyAnsweredRequests env env.heaps requests = .ok updates ∧
    sent = replies ++ updates

end Daemon

end Tclm.Server
