/-
  Tclm.Comm.Messages

  What client and server say to each other: the message numbers and status codes of
  `src/messages.h`, and requests and replies as values with the bytes that stand for
  them on the wire.

  `Request.message` and `Reply.message` describe the wire format.  The functions that
  write and read messages, in the client and in the daemon, are modelled from their own
  sources and compared with these.
-/

import Tclm.Comm.Framing

open Tclm.Comm.Stream

namespace Tclm.Comm

-- ============================================================================
-- Numbers
-- ============================================================================

namespace MsgId

def regProc : UInt8 := 0x01
def regProcResponse : UInt8 := 0x02
def unregProc : UInt8 := 0x03
def unregProcResponse : UInt8 := 0x04
def listProcs : UInt8 := 0x05
def listProcsResponse : UInt8 := 0x06
def listConns : UInt8 := 0x07
def listConnsResponse : UInt8 := 0x08
def listLocks : UInt8 := 0x09
def listLocksResponse : UInt8 := 0x0A
def createLock : UInt8 := 0x0B
def createLockUpdate : UInt8 := 0x0C
def releaseLock : UInt8 := 0x0D
def releaseLockResponse : UInt8 := 0x0E
def acquireLock : UInt8 := 0x0F
def acquireLockUpdate : UInt8 := 0x10
def listLocksProcess : UInt8 := 0x11
def listLocksProcessResponse : UInt8 := 0x12

end MsgId

namespace ResponseStatus

def success : UInt16 := 0x0000
def tooManyProcesses : UInt16 := 0x0001
def processHoldsLocks : UInt16 := 0x0002
def noSuchProcess : UInt16 := 0x0003
def queued : UInt16 := 0x0004
def lockExists : UInt16 := 0x0005
def lockNotHeld : UInt16 := 0x0006
def noSuchLock : UInt16 := 0x0007
def parentNotHeld : UInt16 := 0x0008

end ResponseStatus

-- ============================================================================
-- Requests and replies
-- ============================================================================

/-- What a client asks for. -/
inductive Request where
  | registerProcess (nonce : UInt32)
  | unregisterProcess (id : UInt32)
  | createLock (pid : UInt32) (path : List UInt8) (acquireX : Bool)
  | acquireLock (pid : UInt32) (path : List UInt8) (mode : UInt8)
  | releaseLock (pid : UInt32) (path : List UInt8) (mode : UInt8)
deriving DecidableEq, Repr

/-- What the server answers to requests of a client. -/
inductive Reply where
  | registered (nonce : UInt32) (status : UInt16) (id : Option UInt32)
  | unregistered (id : UInt32) (status : UInt16)
  | createUpdate (pid : UInt32) (path : List UInt8) (status : UInt16)
  | acquireUpdate (pid : UInt32) (path : List UInt8) (mode : UInt8) (status : UInt16)
  | released (pid : UInt32) (path : List UInt8) (mode : UInt8) (status : UInt16)
deriving DecidableEq, Repr

/-- A process, a path and a mode, as requests and replies name a lock. -/
def lockFields (pid : UInt32) (path : List UInt8) : List UInt8 :=
  beBytes 4 pid.toNat ++ (beBytes 2 path.length ++ path)

/-- The message for a request. -/
def Request.message : Request → Message
  | .registerProcess nonce => (MsgId.regProc, beBytes 4 nonce.toNat)
  | .unregisterProcess id => (MsgId.unregProc, beBytes 4 id.toNat)
  | .createLock pid path acquireX =>
      (MsgId.createLock, lockFields pid path ++ [if acquireX then 1 else 0])
  | .acquireLock pid path mode => (MsgId.acquireLock, lockFields pid path ++ [mode])
  | .releaseLock pid path mode => (MsgId.releaseLock, lockFields pid path ++ [mode])

/-- The id of a new process, if there is one. -/
def idField : Option UInt32 → List UInt8
  | some id => beBytes 4 id.toNat
  | none => []

/-- The message for a reply. -/
def Reply.message : Reply → Message
  | .registered nonce status id =>
      (MsgId.regProcResponse, beBytes 4 nonce.toNat ++ (beBytes 2 status.toNat ++ idField id))
  | .unregistered id status =>
      (MsgId.unregProcResponse, beBytes 4 id.toNat ++ beBytes 2 status.toNat)
  | .createUpdate pid path status =>
      (MsgId.createLockUpdate, lockFields pid path ++ beBytes 2 status.toNat)
  | .acquireUpdate pid path mode status =>
      (MsgId.acquireLockUpdate, lockFields pid path ++ (mode :: beBytes 2 status.toNat))
  | .released pid path mode status =>
      (MsgId.releaseLockResponse, lockFields pid path ++ (mode :: beBytes 2 status.toNat))

/-- The longest path that has a place in a message. -/
def maxPathLength : Nat := 65535

/-- The path of a request. -/
def Request.path : Request → List UInt8
  | .createLock _ path _ | .acquireLock _ path _ | .releaseLock _ path _ => path
  | _ => []

/-- The path of a reply. -/
def Reply.path : Reply → List UInt8
  | .createUpdate _ path _ | .acquireUpdate _ path _ _ | .released _ path _ _ => path
  | _ => []

/-- The path has a place in the message, and the id of a new process is told exactly when the
    registration succeeded. -/
def Reply.WellFormed : Reply → Prop
  | .registered _ status id => id.isSome = true ↔ status = ResponseStatus.success
  | .unregistered _ _ => True
  | .createUpdate _ path _ | .acquireUpdate _ path _ _ | .released _ path _ _ =>
      path.length ≤ maxPathLength

theorem length_lockFields (pid : UInt32) (path : List UInt8) :
    (lockFields pid path).length = 6 + path.length := by
  simp only [lockFields, List.length_append, length_beBytes]
  omega

/-- A request with a path that has a place in the message is short. -/
theorem Request.length_message_le {r : Request} (h : r.path.length ≤ maxPathLength) :
    r.message.2.length ≤ maxPathLength + 7 := by
  cases r with
  | registerProcess | unregisterProcess =>
      simp only [message, length_beBytes, maxPathLength]
      omega
  | createLock pid path _ | acquireLock pid path _ | releaseLock pid path _ =>
      simp only [message, List.length_append, length_lockFields, List.length_singleton]
      exact Nat.add_le_add_right (by rw [Nat.add_comm]; exact Nat.add_le_add_right h 6) 1

/-- A reply with a path that has a place in the message is short. -/
theorem Reply.length_message_le {r : Reply} (h : r.path.length ≤ maxPathLength) :
    r.message.2.length ≤ maxPathLength + 9 := by
  cases r with
  | registered nonce status id =>
      cases id with
      | none | some id =>
          simp only [message, idField, List.length_append, length_beBytes, List.length_nil,
            maxPathLength]
          omega
  | unregistered =>
      simp only [message, List.length_append, length_beBytes, maxPathLength]
      omega
  | createUpdate pid path _ | acquireUpdate pid path _ _ | released pid path _ _ =>
      have hpath : path.length ≤ maxPathLength := h
      simp only [message, List.length_append, List.length_cons, length_lockFields, length_beBytes]
      omega

theorem Request.fits {r : Request} (h : r.path.length ≤ maxPathLength) : r.message.Fits := by
  have hle := length_message_le h
  rw [maxPathLength] at hle
  rw [Message.Fits]
  omega

theorem Reply.WellFormed.length_path {r : Reply} (h : r.WellFormed) :
    r.path.length ≤ maxPathLength := by
  cases r with
  | registered | unregistered => exact Nat.zero_le _
  | createUpdate | acquireUpdate | released => exact h

theorem Reply.fits {r : Reply} (h : r.WellFormed) : r.message.Fits := by
  have hle := length_message_le h.length_path
  rw [maxPathLength] at hle
  rw [Message.Fits]
  omega

-- ============================================================================
-- New messages
-- ============================================================================

/-- `stream_new` and `stream_ensure_remaining_capacity`, as every message starts; `none` when
    there is not enough memory. -/
def newStream (heap : Heap) (n : Nat) : Except StreamFault (Option Stream) :=
  if heap.calloc then do
    let (enough, s) ← Stream.ensureRemainingCapacity heap n {}
    pure (if enough then some s else none)
  else pure none

theorem newStream_spec (heap : Heap) {n : Nat} (hn : n ≤ 2 ^ 63) :
    (newStream heap n = .ok none ∧ ¬ heap.Ample) ∨
    ∃ s, newStream heap n = .ok (some s) ∧ s.Filled [] ∧ n ≤ s.capacity := by
  obtain ⟨enough, s, hensure, hfilled, hroom, hample⟩ :=
    Stream.filled_new.ensure heap (l := n) (by rw [List.length_nil]; omega)
  rw [newStream]
  by_cases hnew : heap.calloc = true
  · rw [if_pos hnew, hensure]
    cases enough with
    | true =>
        have hcap := hroom rfl
        rw [List.length_nil, Nat.zero_add] at hcap
        exact .inr ⟨s, rfl, hfilled, hcap⟩
    | false => exact .inl ⟨rfl, fun h => Bool.noConfusion (hample h)⟩
  · rw [if_neg hnew]
    exact .inl ⟨rfl, fun h => hnew h.1⟩

/-- Where allocations succeed, a message gets its stream. -/
theorem newStream_ample {heap : Heap} (h : heap.Ample) {n : Nat} (hn : n ≤ 2 ^ 63) :
    ∃ s, newStream heap n = .ok (some s) ∧ s.Filled [] ∧ n ≤ s.capacity := by
  rcases newStream_spec heap hn with ⟨-, hnot⟩ | hs
  · exact absurd h hnot
  · exact hs

-- ============================================================================
-- Writing and reading messages
-- ============================================================================

/-- A header for a body of the given length. -/
theorem puts_header (heap : Heap) (id : UInt8) {n : Nat} {len : UInt32} {next : StreamM Unit}
    {body : List UInt8} (hnext : Puts next body) (hn : len = UInt32.ofNat n)
    (hlen : body.length = n) (hlt : n < 2 ^ 32) :
    Puts (writeMessageHeader .little heap id len >>= fun _ => next) (frame (id, body)) := by
  have hput := (puts_writeMessageHeader heap id len).bind hnext
  have hval : len.toNat = n := by
    rw [hn, UInt32.toNat_ofNat', Nat.mod_eq_of_lt hlt]
  rw [hval, ← hlen] at hput
  exact hput

theorem puts_lockFields (pid : UInt32) {path last : List UInt8} {copy next : StreamM Unit}
    (hpath : path.length ≤ maxPathLength) (hcopy : Puts copy path) (hnext : Puts next last) :
    Puts (writeUInt32 .little pid >>= fun _ =>
      writeUInt16 .little (UInt16.ofNat path.length) >>= fun _ => copy >>= fun _ => next)
      (lockFields pid path ++ last) := by
  have hlen : (UInt16.ofNat path.length).toNat = path.length := by
    rw [maxPathLength] at hpath
    rw [UInt16.toNat_ofNat', Nat.mod_eq_of_lt (by omega)]
  have hlength := puts_writeUInt16 (UInt16.ofNat path.length)
  rw [hlen] at hlength
  rw [lockFields, List.append_assoc, List.append_assoc]
  exact (puts_writeUInt32 pid).bind (hlength.bind (hcopy.bind hnext))

/-- The length in a header, read as a 32-bit number. -/
theorem gets_lengthField (n : Nat) : Gets (readUInt32 .little) (beBytes 4 n) (UInt32.ofNat n) := by
  have hlength := (gets_readUInt (length_beBytes 4 n)).map UInt32.ofNat
  have hval : UInt32.ofNat (beVal (beBytes 4 n)) = UInt32.ofNat n := by
    apply UInt32.toNat_inj.mp
    rw [beVal_beBytes, UInt32.toNat_ofNat', UInt32.toNat_ofNat']
    exact Nat.mod_mod _ _
  rw [hval] at hlength
  exact hlength

/-- The header leads to the handler. -/
theorem gets_frame {α : Type} {m : Message} {next : UInt8 → UInt32 → StreamM α} {v : α}
    (h : Gets (next m.1 (UInt32.ofNat m.2.length)) m.2 v) :
    Gets (readUInt8 >>= fun id => readUInt32 .little >>= fun length => next id length)
      (frame m) v := by
  exact (gets_readUInt8 m.1).bind ((gets_lengthField m.2.length).bind h)

/-- A stream as a connection hands it over with a message.  A block of memory takes less than
    half of the address space. -/
structure Stream.Carries (s : Stream) (m : Message) : Prop where
  start : s.pos = 0
  bytes : s.bytes = frame m
  length : s.length ≤ s.capacity
  bound : s.capacity + 2 ≤ 2 ^ 63

namespace Stream.Carries

variable {s : Stream} {m : Message}

theorem length_eq (h : s.Carries m) : s.length = 5 + m.2.length := by
  have hlen := congrArg List.length h.bytes
  have hle := h.length
  rw [Stream.bytes, List.length_take, length_frame] at hlen
  rw [capacity] at hle
  omega

/-- What a computation gets from the message. -/
theorem run {α : Type} {act : StreamM α} {v : α} (h : s.Carries m) (hact : Gets act (frame m) v) :
    act s = .ok (v, { s with pos := s.length }) := by
  have hrest : s.rest = frame m ++ [] := by
    rw [rest, h.start, List.drop_zero, h.bytes, List.append_nil]
  rw [hact h.length hrest, h.start, length_frame, h.length_eq, Nat.zero_add]

/-- The header, and what is left behind it. -/
theorem run_header (h : s.Carries m) :
    readUInt8 s = .ok (m.1, { s with pos := 1 }) ∧
    readUInt32 .little { s with pos := 1 } =
      .ok (UInt32.ofNat m.2.length, { s with pos := 5 }) ∧
    rest { s with pos := 5 } = m.2 := by
  have hfive : (m.1 :: beBytes 4 m.2.length).length = 5 := by
    rw [List.length_cons, length_beBytes]
  have hrest : ∀ p, rest { s with pos := p } = (frame m).drop p := by
    intro p
    rw [← h.bytes]
    rfl
  have hstart : s.rest = [m.1] ++ (beBytes 4 m.2.length ++ m.2) := by
    rw [rest, h.start, List.drop_zero, h.bytes]
    rfl
  have hnext : rest { s with pos := 1 } = beBytes 4 m.2.length ++ m.2 := by
    rw [hrest]
    rfl
  refine ⟨?_, ?_, ?_⟩
  · rw [gets_readUInt8 m.1 h.length hstart, h.start]
    rfl
  · have hlength := gets_lengthField m.2.length (s := { s with pos := 1 }) h.length hnext
    rw [length_beBytes] at hlength
    exact hlength
  · rw [hrest, frame, ← hfive]
    exact List.drop_left

end Stream.Carries

theorem Stream.carries_ofBytes {m : Message} (h : m.Fits) :
    (Stream.ofBytes (frame m)).Carries m where
  start := rfl
  bytes := List.take_length
  length := Nat.le_refl _
  bound := by
    show (frame m).length + 2 ≤ 2 ^ 63
    rw [Message.Fits] at h
    rw [length_frame]
    omega

/-- A connection hands over the first message of the bytes that have come in. -/
def HandsOver (bytes : List UInt8) (input : Stream) (rest : List UInt8) : Prop :=
  ∃ m : Message, m.Fits ∧ input.Carries m ∧ bytes = frame m ++ rest

/-- From a sequence of messages the first one is handed over. -/
theorem HandsOver.first {ms : List Message} {input : Stream} {rest : List UInt8}
    (h : HandsOver (frames ms) input rest) (hms : ∀ m ∈ ms, m.Fits) :
    ∃ m ms', ms = m :: ms' ∧ input.Carries m ∧ rest = frames ms' := by
  obtain ⟨m, hm, hinput, hbytes⟩ := h
  cases ms with
  | nil => cases hbytes
  | cons m' ms' =>
      obtain ⟨rfl, rfl⟩ := frame_append_inj (hms m' List.mem_cons_self) hm hbytes
      exact ⟨m', ms', rfl, hinput, rfl⟩

/-- The message in `s` was sent and handed over by the connection of the other side. -/
structure Stream.Delivered (s input : Stream) : Prop where
  start : input.pos = 0
  bytes : input.bytes = s.bytes
  length : input.length ≤ input.capacity
  bound : input.capacity + 2 ≤ 2 ^ 63

theorem Stream.Delivered.carries {s input : Stream} (h : s.Delivered input) {m : Message}
    (hs : s.bytes = frame m) : input.Carries m := ⟨h.start, h.bytes.trans hs, h.length, h.bound⟩

end Tclm.Comm
