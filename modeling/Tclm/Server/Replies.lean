/-
  Tclm.Server.Replies

  What the daemon does with a request, and the messages it answers with.

  `serve` is the part of a handler behind the reading of the request, `respond` is what it
  does in terms of values: the reply, the requests that were answered meanwhile, and the
  daemon afterwards.  On a little-endian host with enough memory, the message of a request
  is read to its fields (`receiveMessageInternal_eq_serve`), and the messages that are sent
  are those of the replies (`receiveMessageInternal_spec`, `notify_spec`).
-/

import Tclm.Server.Decoding
import Tclm.Server.Listing

open Tclm.Comm
open Tclm.Comm.Stream

namespace Tclm.Server.Daemon

-- ============================================================================
-- Requests
-- ============================================================================

/-- The handlers with the fields of a request. -/
def serve (env : Env) (c : Conn) (input : Stream) (d : Daemon) :
    Request → Except DaemonFault Handled
  | .registerProcess nonce => d.registerProcess env c nonce
  | .unregisterProcess id => d.unregisterProcess env c id
  | .createLock pid path acquireX =>
      d.createLock env c pid (UInt16.ofNat path.length) path acquireX
  | .acquireLock pid path mode =>
      d.acquireLock env c { input with pos := input.length } pid path mode
  | .releaseLock pid path mode =>
      d.releaseLock env c { input with pos := input.length } pid path mode

theorem gets_readLockRequest (pid : UInt32) {path : List UInt8} (last : UInt8)
    (hpath : path.length ≤ maxPathLength) :
    Gets (readLockRequest .little) (lockFields pid path ++ [last])
      (pid, UInt16.ofNat path.length, path, last) := by
  have hlen : (UInt16.ofNat path.length).toNat = path.length := by
    rw [maxPathLength] at hpath
    rw [UInt16.toNat_ofNat', Nat.mod_eq_of_lt (by omega)]
  have hlength := gets_readUInt16 (UInt16.ofNat path.length)
  rw [hlen] at hlength
  have htake : Gets (takeBytes path.length >>= fun path' => readUInt8 >>= fun last =>
      pure (pid, UInt16.ofNat path.length, path', last)) (path ++ [last])
      (pid, UInt16.ofNat path.length, path, last) :=
    (gets_takeBytes path).bind ((gets_readUInt8 last).bind_pure
      fun last => (pid, UInt16.ofNat path.length, path, last))
  simp only [takeBytes, bind_assoc, pure_bind] at htake
  rw [readLockRequest, lockFields, List.append_assoc, List.append_assoc]
  refine (gets_readUInt32 pid).bind (hlength.bind ?_)
  rw [hlen]
  exact htake

/-- The message of a request is read to its fields. -/
theorem receiveMessageInternal_eq_serve {env : Env} (hhost : env.host = .little) (c : Conn)
    (d : Daemon) {q : Request} (hpath : q.path.length ≤ maxPathLength) {input : Stream}
    (hinput : input.Carries q.message) :
    d.receiveMessageInternal env c input = d.serve env c input q := by
  obtain ⟨hid, hlength, hrest⟩ := hinput.run_header
  have hread : ∀ {α : Type} {act : StreamM α} {v : α}, Gets act q.message.2 v →
      act { input with pos := 5 } = .ok (v, { input with pos := input.length }) := by
    intro α act v hact
    rw [hact (s := { input with pos := 5 }) hinput.length (by rw [hrest, List.append_nil]),
      hinput.length_eq]
  rw [receiveMessageInternal, hid]
  show (onStream (readUInt32 env.host { input with pos := 1 }) >>= _) = _
  rw [hhost, hlength]
  show d.handleMessage env c q.message.1 _ { input with pos := 5 } = _
  cases q with
  | registerProcess nonce =>
      show d.receiveMessageRegisterProcess env c { input with pos := 5 } = _
      rw [receiveMessageRegisterProcess, hhost, hread (gets_readUInt32 nonce)]
      rfl
  | unregisterProcess id =>
      show d.receiveMessageUnregisterProcess env c { input with pos := 5 } = _
      rw [receiveMessageUnregisterProcess, hhost, hread (gets_readUInt32 id)]
      rfl
  | createLock pid path acquireX =>
      show d.receiveMessageCreateLock env c { input with pos := 5 } = _
      rw [receiveMessageCreateLock, hhost, hread (gets_readLockRequest pid _ hpath)]
      cases acquireX with
      | true | false => rfl
  | acquireLock pid path mode =>
      show d.receiveMessageAcquireLock env c { input with pos := 5 } = _
      rw [receiveMessageAcquireLock, hhost, hread (gets_readLockRequest pid mode hpath)]
      rfl
  | releaseLock pid path mode =>
      show d.receiveMessageReleaseLock env c { input with pos := 5 } = _
      rw [receiveMessageReleaseLock, hhost, hread (gets_readLockRequest pid mode hpath)]
      rfl

-- ============================================================================
-- Replies
-- ============================================================================

/-- What a handler does, with the reply as a value. -/
def respond (env : Env) (c : Conn) (d : Daemon) :
    Request → Except Fault (Reply × Finset LockRequest × Daemon)
  | .registerProcess nonce =>
      match d.backend.registerProcess with
      | (some id, b) =>
          .ok (.registered nonce ResponseStatus.success (some id), ∅,
            { d with backend := b }.updatePidConnection id c)
      | (none, b) =>
          .ok (.registered nonce ResponseStatus.tooManyProcesses none, ∅, { d with backend := b })
  | .unregisterProcess id => do
      let d := d.updatePidConnection id c
      let (res, answered, b) ← d.backend.unregisterProcess env.fuel id
      .ok (.unregistered id res.status, answered, { d with backend := b })
  | .createLock pid path acquireX => do
      let d := d.updatePidConnection pid c
      let (res, b) ← d.backend.createLock pid path acquireX
      .ok (.createUpdate pid path res.status, ∅, { d with backend := b })
  | .acquireLock pid path mode => do
      let d := d.updatePidConnection pid c
      let (res, b) ← d.backend.acquireLock pid path mode
      .ok (.acquireUpdate pid path mode res.status, ∅, { d with backend := b })
  | .releaseLock pid path mode => do
      let d := d.updatePidConnection pid c
      let (res, answered, b) ← d.backend.releaseLock pid path mode
      .ok (.released pid path mode res.status, answered, { d with backend := b })

/-- The path of the reply is that of the request, so it has a place in the message. -/
theorem wellFormed_respond {env : Env} {c : Conn} {d d' : Daemon} {q : Request}
    (hpath : q.path.length ≤ maxPathLength) {r : Reply} {answered : Finset LockRequest}
    (h : d.respond env c q = .ok (r, answered, d')) : r.WellFormed := by
  cases q with
  | registerProcess nonce =>
      rw [respond] at h
      split at h
      · cases h
        exact ⟨fun _ => rfl, fun _ => rfl⟩
      · cases h
        exact ⟨nofun, nofun⟩
  | unregisterProcess id =>
      obtain ⟨x, -, h⟩ := bind_eq_ok.mp h
      cases h
      exact trivial
  | createLock | acquireLock | releaseLock =>
      obtain ⟨x, -, h⟩ := bind_eq_ok.mp h
      cases h
      exact hpath

/-- A stream with the bytes of a reply, and nothing that was not written. -/
def Sends (s : Stream) (r : Reply) : Prop := s.bytes = frame r.message ∧ s.length ≤ s.capacity

theorem sends_of_filled {s : Stream} {r : Reply} (h : s.Filled (frame r.message)) : Sends s r :=
  ⟨h.bytes_eq, by rw [h.length]; exact h.length_le⟩

/-- Writing as a step of a handler. -/
theorem write_spec {act : StreamM Unit} {s : Stream} {out bs : List UInt8} (hact : Puts act bs)
    (hs : s.Filled out) (hroom : out.length + bs.length ≤ s.capacity) :
    ∃ s', write act s = .ok s' ∧ s'.Filled (out ++ bs) ∧ s'.capacity = s.capacity := by
  obtain ⟨s', hrun, hfilled, hcap⟩ := hact hs hroom
  refine ⟨s', ?_, hfilled, hcap⟩
  rw [write, hrun]
  rfl

/-- The request is copied behind the header of its reply. -/
theorem echo_spec {s : Stream} {out body : List UInt8} (hs : s.Filled out)
    (hroom : out.length + body.length ≤ s.capacity) :
    ∃ s', write (echo body (out.length + body.length)) s = .ok s' ∧ s'.Filled (out ++ body) ∧
      s'.capacity = s.capacity := by
  obtain ⟨hfilled, hcap⟩ := hs.extend hroom
  refine ⟨_, ?_, hfilled, hcap⟩
  rw [write, echo, run_bind (run_memcpy (by rw [hs.pos]; exact hroom)), hs.pos]
  rfl

/-- `d` answers with a message for the reply, if the backend returns. -/
def Answers (act : Except DaemonFault Handled) (c : Conn)
    (spec : Except Fault (Reply × Finset LockRequest × Daemon)) : Prop :=
  match spec with
  | .ok (r, answered, d') => ∃ s, act = .ok ([(c, s)], answered, d') ∧ Sends s r
  | .error fault => act = .error (.backend fault)

section Handlers

variable {env : Env} (hhost : env.host = .little) (hheap : env.heap.Ample) (c : Conn) (d : Daemon)

include hhost hheap

/-- A reply starts with a number. -/
theorem newReply_spec (id : UInt8) (len n : UInt32) (size : Nat) (hsize : 9 ≤ size)
    (hbound : size ≤ 2 ^ 63) :
    ∃ s s', newStream env.heap size = .ok (some s) ∧
      write (do writeMessageHeader env.host env.heap id len; writeUInt32 env.host n) s = .ok s' ∧
      s'.Filled (id :: beBytes 4 len.toNat ++ beBytes 4 n.toNat) ∧ size ≤ s'.capacity := by
  obtain ⟨s, hnew, hfilled, hcap⟩ := newStream_ample hheap hbound
  have hput := (puts_writeMessageHeader env.heap id len).bind (puts_writeUInt32 n)
  rw [← hhost] at hput
  obtain ⟨s', hwrite, hfilled', hcap'⟩ := write_spec hput hfilled (by
    simp only [List.length_nil, List.length_append, List.length_cons, length_beBytes]
    omega)
  exact ⟨s, s', hnew, hwrite, hfilled', by omega⟩

theorem registerProcess_spec (nonce : UInt32) :
    Answers (d.registerProcess env c nonce) c (d.respond env c (.registerProcess nonce)) := by
  obtain ⟨s, s₁, hnew, hwrite, hfilled, hcap⟩ := newReply_spec hhost hheap MsgId.regProcResponse 10
    nonce 15 (by decide) (by decide)
  rw [registerProcess, hnew]
  show Answers (write _ s >>= _) c _
  rw [hwrite, respond]
  rcases d.backend.registerProcess with ⟨id, b⟩
  cases id with
  | some id =>
      have hput := (puts_writeUInt16 ResponseStatus.success).bind (puts_writeUInt32 id)
      rw [← hhost] at hput
      obtain ⟨s₂, hlast, hfilled₂, -⟩ := write_spec hput hfilled (by
        simp only [List.length_append, List.length_cons, length_beBytes]
        omega)
      refine ⟨s₂, ?_, sends_of_filled ?_⟩
      · show (write (writeRegistered env.host (some id)) s₁ >>= _) = _
        rw [writeRegistered, hlast]
        rfl
      · rw [List.append_assoc] at hfilled₂
        exact hfilled₂
  | none =>
      -- the answer is shorter than announced, and its length is corrected
      have hput := puts_writeUInt16 ResponseStatus.tooManyProcesses
      rw [← hhost] at hput
      obtain ⟨s₂, hlast, hfilled₂, -⟩ := hput hfilled (by
        simp only [List.length_append, List.length_cons, length_beBytes]
        omega)
      rw [List.append_assoc] at hfilled₂
      obtain ⟨s₃, hupdate, hbytes, -, hlength⟩ :=
        hfilled₂.run_updateMessageLength (length_beBytes 4 _) .little 11
      rw [wire_little] at hbytes
      refine ⟨s₃, ?_, ?_, hlength⟩
      · show (write (writeRegistered env.host none) s₁ >>= _) = _
        rw [writeRegistered, write, run_bind hlast, hhost, hupdate]
        rfl
      · have hsix : (Reply.registered nonce ResponseStatus.tooManyProcesses none).message.2.length =
            6 := by
          simp only [Reply.message, idField, List.length_append, length_beBytes, List.length_nil]
        rw [hbytes, frame, hsix, Reply.message, idField, List.append_nil]
        rfl

theorem unregisterProcess_spec (id : UInt32) :
    Answers (d.unregisterProcess env c id) c (d.respond env c (.unregisterProcess id)) := by
  obtain ⟨s, s₁, hnew, hwrite, hfilled, hcap⟩ := newReply_spec hhost hheap MsgId.unregProcResponse 6
    id 11 (by decide) (by decide)
  rw [unregisterProcess, hnew]
  show Answers (write _ s >>= _) c _
  rw [hwrite]
  show Answers (onBackend _ >>= _) c ((d.updatePidConnection id c).backend.unregisterProcess _ _ >>= _)
  cases (d.updatePidConnection id c).backend.unregisterProcess env.fuel id with
  | error fault => exact rfl
  | ok x =>
      obtain ⟨res, answered, b⟩ := x
      have hput := puts_writeUInt16 res.status
      rw [← hhost] at hput
      obtain ⟨s₂, hlast, hfilled₂, -⟩ := write_spec hput hfilled (by
        simp only [List.length_append, List.length_cons, length_beBytes]
        omega)
      refine ⟨s₂, ?_, sends_of_filled ?_⟩
      · show (write (writeUInt16 env.host res.status) s₁ >>= _) = _
        rw [hlast]
        rfl
      · rw [List.append_assoc] at hfilled₂
        exact hfilled₂

/-- The header of a reply that names a lock. -/
theorem newLockReply_spec (id : UInt8) (n size : Nat) (hn : n < 2 ^ 32) (hsize : 5 + n ≤ size)
    (hbound : size ≤ 2 ^ 63) :
    ∃ s s', newStream env.heap size = .ok (some s) ∧
      write (writeMessageHeader env.host env.heap id (UInt32.ofNat n)) s = .ok s' ∧
      s'.Filled (id :: beBytes 4 n) ∧ size ≤ s'.capacity := by
  obtain ⟨s, hnew, hfilled, hcap⟩ := newStream_ample hheap hbound
  have hput := puts_writeMessageHeader env.heap id (UInt32.ofNat n)
  rw [UInt32.toNat_ofNat', Nat.mod_eq_of_lt hn, ← hhost] at hput
  obtain ⟨s', hwrite, hfilled', hcap'⟩ := write_spec hput hfilled (by
    rw [List.length_nil, List.length_cons, length_beBytes]
    omega)
  exact ⟨s, s', hnew, hwrite, hfilled', by omega⟩

theorem createLock_spec (pid : UInt32) {path : PathString} (acquireX : Bool)
    (hpath : path.length ≤ maxPathLength) :
    Answers (d.createLock env c pid (UInt16.ofNat path.length) path acquireX) c
      (d.respond env c (.createLock pid path acquireX)) := by
  have hlen : (UInt16.ofNat path.length).toNat = path.length := by
    rw [maxPathLength] at hpath
    rw [UInt16.toNat_ofNat', Nat.mod_eq_of_lt (by omega)]
  have hsmall : path.length ≤ 65535 := hpath
  obtain ⟨s, s₁, hnew, hwrite, hfilled, hcap⟩ := newLockReply_spec hhost hheap
    MsgId.createLockUpdate (4 + 2 + path.length + 2) (5 + 4 + 2 + path.length + 2)
    (by omega) (by omega) (by omega)
  rw [createLock, hlen, hnew]
  show Answers (write _ s >>= _) c _
  rw [hwrite]
  show Answers (onBackend _ >>= _) c ((d.updatePidConnection pid c).backend.createLock _ _ _ >>= _)
  cases (d.updatePidConnection pid c).backend.createLock pid path acquireX with
  | error fault => exact rfl
  | ok x =>
      obtain ⟨res, b⟩ := x
      have hput := puts_lockFields pid hpath (puts_copyLengthSeek path)
        (puts_writeUInt16 res.status)
      rw [← hhost] at hput
      obtain ⟨s₂, hlast, hfilled₂, -⟩ := write_spec hput hfilled (by
        simp only [List.length_append, List.length_cons, length_beBytes, length_lockFields]
        omega)
      have hbody : (lockFields pid path ++ beBytes 2 res.status.toNat).length =
          4 + 2 + path.length + 2 := by
        rw [List.length_append, length_lockFields, length_beBytes]
      rw [← hbody] at hfilled₂
      refine ⟨s₂, ?_, sends_of_filled hfilled₂⟩
      show (write _ s₁ >>= _) = _
      rw [hlast]
      rfl

/-- The reply that sends a request back with a status. -/
theorem echoReply_spec (id : UInt8) {q : Message} {input : Stream} (hinput : input.Carries q)
    (hq : q.2.length + 2 < 2 ^ 32) :
    ∃ s s₁ s₂, newStream env.heap (input.capacity + 2) = .ok (some s) ∧
      write (writeMessageHeader env.host env.heap id (UInt32.ofNat (input.length + 2 - 5))) s =
        .ok s₁ ∧
      readBody { input with pos := input.length } = .ok (q.2, { input with pos := 5 }) ∧
      write (echo q.2 input.length) s₁ = .ok s₂ ∧
      ∀ status : UInt16, ∃ s₃, write (writeUInt16 env.host status) s₂ = .ok s₃ ∧
        s₃.Filled (frame (id, q.2 ++ beBytes 2 status.toNat)) := by
  have hlength := hinput.length_eq
  have hle := hinput.length
  have hbound := hinput.bound
  have hsize : input.length + 2 - 5 = q.2.length + 2 := by omega
  obtain ⟨s, s₁, hnew, hwrite, hfilled, hcap⟩ := newLockReply_spec hhost hheap id _
    (input.capacity + 2) hq (by omega) hbound
  have hroom : (id :: beBytes 4 (q.2.length + 2)).length + q.2.length ≤ s₁.capacity := by
    rw [List.length_cons, length_beBytes]
    omega
  obtain ⟨s₂, hecho, hfilled₂, hcap₂⟩ := echo_spec hfilled hroom
  have hecholen : (id :: beBytes 4 (q.2.length + 2)).length + q.2.length = input.length := by
    rw [List.length_cons, length_beBytes]
    omega
  rw [hecholen] at hecho
  refine ⟨s, s₁, s₂, hnew, by rw [hsize]; exact hwrite, ?_, hecho, fun status => ?_⟩
  · have hcap' : Stream.length { input with pos := input.length } ≤
        capacity { input with pos := input.length } := hinput.length
    have hdrop : (frame q).drop 5 = q.2 := hinput.bytes ▸ hinput.run_header.2.2
    rw [run_readBody hcap']
    show Except.ok (input.bytes.drop 5, _) = _
    rw [hinput.bytes, hdrop]
  · have hput := puts_writeUInt16 status
    rw [← hhost] at hput
    obtain ⟨s₃, hlast, hfilled₃, -⟩ := write_spec hput hfilled₂ (by
      rw [List.length_append, hecholen, length_beBytes, hcap₂]
      omega)
    refine ⟨s₃, hlast, ?_⟩
    rw [List.append_assoc] at hfilled₃
    show s₃.Filled (id :: beBytes 4 (q.2 ++ beBytes 2 status.toNat).length ++ _)
    rw [List.length_append, length_beBytes]
    exact hfilled₃

/-- A handler that sends the request back answers with the reply for the status. -/
theorem sendBack_spec (id : UInt8) {q : Request} (hpath : q.path.length ≤ maxPathLength)
    {input : Stream} (hinput : input.Carries q.message) (reply : UInt16 → Reply)
    (hreply : ∀ status, (reply status).message = (id, q.message.2 ++ beBytes 2 status.toNat))
    (act : Except Fault (UInt16 × Finset LockRequest × Daemon)) :
    Answers (sendBack env c { input with pos := input.length } id d act) c
      (act.map fun x => (reply x.1, x.2)) := by
  have hshort : q.message.2.length + 2 < 2 ^ 32 := by
    have hle := Request.length_message_le hpath
    rw [maxPathLength] at hle
    omega
  obtain ⟨s, s₁, s₂, hnew, hheader, hbody, hecho, hlast⟩ :=
    echoReply_spec hhost hheap id hinput hshort
  rw [sendBack]
  show Answers (onStream (newStream env.heap (input.capacity + 2)) >>= _) c _
  rw [hnew]
  show Answers (write _ s >>= _) c _
  rw [hheader]
  show Answers (onStream (readBody { input with pos := input.length }) >>= _) c _
  rw [hbody]
  show Answers (write _ s₁ >>= _) c _
  rw [hecho]
  show Answers (onBackend act >>= _) c _
  cases act with
  | error fault => exact rfl
  | ok x =>
      obtain ⟨status, answered, d'⟩ := x
      obtain ⟨s₃, hstatus, hfilled⟩ := hlast status
      refine ⟨s₃, ?_, sends_of_filled ?_⟩
      · show (write _ s₂ >>= _) = _
        rw [hstatus]
        rfl
      · rw [hreply]
        exact hfilled

theorem acquireLock_spec (pid : UInt32) {path : PathString} (mode : UInt8)
    (hpath : path.length ≤ maxPathLength) {input : Stream}
    (hinput : input.Carries (Request.acquireLock pid path mode).message) :
    Answers (d.acquireLock env c { input with pos := input.length } pid path mode) c
      (d.respond env c (.acquireLock pid path mode)) := by
  have hanswers := sendBack_spec hhost hheap c (d.updatePidConnection pid c)
    MsgId.acquireLockUpdate (q := .acquireLock pid path mode) hpath hinput
    (.acquireUpdate pid path mode)
    (fun status => by simp [Reply.message, Request.message]) (do
      let (res, b) ← (d.updatePidConnection pid c).backend.acquireLock pid path mode
      .ok (res.status, ∅, { d.updatePidConnection pid c with backend := b }))
  rw [acquireLock_eq_sendBack, respond]
  cases hcall : (d.updatePidConnection pid c).backend.acquireLock pid path mode with
  | error fault =>
      rw [hcall] at hanswers
      exact hanswers
  | ok x =>
      rw [hcall] at hanswers
      exact hanswers

theorem releaseLock_spec (pid : UInt32) {path : PathString} (mode : UInt8)
    (hpath : path.length ≤ maxPathLength) {input : Stream}
    (hinput : input.Carries (Request.releaseLock pid path mode).message) :
    Answers (d.releaseLock env c { input with pos := input.length } pid path mode) c
      (d.respond env c (.releaseLock pid path mode)) := by
  have hanswers := sendBack_spec hhost hheap c (d.updatePidConnection pid c)
    MsgId.releaseLockResponse (q := .releaseLock pid path mode) hpath hinput
    (.released pid path mode)
    (fun status => by simp [Reply.message, Request.message]) (do
      let (res, answered, b) ← (d.updatePidConnection pid c).backend.releaseLock pid path mode
      .ok (res.status, answered, { d.updatePidConnection pid c with backend := b }))
  rw [releaseLock_eq_sendBack, respond]
  cases hcall : (d.updatePidConnection pid c).backend.releaseLock pid path mode with
  | error fault =>
      rw [hcall] at hanswers
      exact hanswers
  | ok x =>
      rw [hcall] at hanswers
      exact hanswers

/-- A request is answered with the message of its reply. -/
theorem receiveMessageInternal_spec {q : Request} (hpath : q.path.length ≤ maxPathLength)
    {input : Stream} (hinput : input.Carries q.message) :
    Answers (d.receiveMessageInternal env c input) c (d.respond env c q) := by
  rw [receiveMessageInternal_eq_serve hhost c d hpath hinput]
  cases q with
  | registerProcess nonce => exact registerProcess_spec hhost hheap c d nonce
  | unregisterProcess id => exact unregisterProcess_spec hhost hheap c d id
  | createLock pid path acquireX => exact createLock_spec hhost hheap c d pid acquireX hpath
  | acquireLock pid path mode => exact acquireLock_spec hhost hheap c d pid mode hpath hinput
  | releaseLock pid path mode => exact releaseLock_spec hhost hheap c d pid mode hpath hinput

end Handlers

-- ============================================================================
-- Notifications
-- ============================================================================

/-- The update for an answered request, as a value. -/
def update (pid : UInt32) (r : LockRequest) : Reply :=
  if r.createMissing then .createUpdate pid (joinPath r.path) (updateStatus r)
  else .acquireUpdate pid (joinPath r.path) r.mode (updateStatus r)

theorem wellFormed_update (pid : UInt32) {r : LockRequest}
    (hpath : (joinPath r.path).length ≤ maxPathLength) : (update pid r).WellFormed := by
  rw [update]
  split
  · exact hpath
  · exact hpath

/-- The bytes behind the path in an update. -/
def updateTail (host : ByteOrder) (r : LockRequest) : List UInt8 :=
  if r.createMissing then wire host 2 (updateStatus r).toNat
  else [r.mode] ++ wire host 2 (updateStatus r).toNat

/-- What follows the header of an update. -/
def updateBody (host : ByteOrder) (pid : UInt32) (r : LockRequest) : List UInt8 :=
  wire host 4 pid.toNat ++ (lengthBytes host (joinPath r.path).length ++
    (joinPath r.path ++ updateTail host r))

theorem length_updateTail (host : ByteOrder) (r : LockRequest) :
    (updateTail host r).length = (if r.createMissing then 0 else 1) + 2 := by
  rw [updateTail]
  split
  · rw [length_wire]
  · rw [List.length_append, length_wire]
    rfl

theorem length_updateBody (host : ByteOrder) (pid : UInt32) (r : LockRequest) :
    (updateBody host pid r).length =
      4 + 2 + (joinPath r.path).length + (if r.createMissing then 0 else 1) + 2 := by
  simp only [updateBody, List.length_append, length_wire, length_lengthBytes, length_updateTail]
  omega

theorem puts_updateTail (host : ByteOrder) (r : LockRequest) :
    Puts (if r.createMissing then writeUInt16 host (updateStatus r)
      else writeUInt8 r.mode >>= fun _ => writeUInt16 host (updateStatus r))
      (updateTail host r) := by
  rw [updateTail]
  split
  · exact puts_wire host 2 _
  · exact (puts_writeUInt8 r.mode).bind (puts_wire host 2 _)

/-- Writing the update, with the number of bytes behind the header. -/
theorem puts_writeUpdate (host : ByteOrder) (heap : Heap) (pid : UInt32) (r : LockRequest)
    (n : UInt32) :
    Puts (writeUpdate host heap pid r n)
      ((if r.createMissing then MsgId.createLockUpdate else MsgId.acquireLockUpdate) ::
        wire host 4 n.toNat ++ updateBody host pid r) :=
  (puts_messageHeader host heap
    (if r.createMissing then MsgId.createLockUpdate else MsgId.acquireLockUpdate) n).bind
      ((puts_wire host 4 pid.toNat).bind
        ((puts_wire host 2 (UInt16.ofNat (joinPath r.path).length).toNat).bind
          ((puts_copySeekLength (joinPath r.path)).bind (puts_updateTail host r))))

/-- The bytes of the update, on every machine. -/
theorem notify_run {env : Env} {heap : Heap} (hheap : heap.Ample) {d : Daemon} {r : LockRequest}
    {p : Process} {c : Conn} (hp : d.requester r = some p) (hc : d.tcpConn p.object = some c)
    (hup : env.up c = true) (hsize : 5 + (updateBody env.host p.id r).length < 2 ^ 32) :
    ∃ s, d.notify env heap r = .ok [(c, s)] ∧
      s.Filled ((if r.createMissing then MsgId.createLockUpdate else MsgId.acquireLockUpdate) ::
        wire env.host 4 (updateBody env.host p.id r).length ++ updateBody env.host p.id r) := by
  obtain ⟨n, hn⟩ : ∃ n, (updateBody env.host p.id r).length = n := ⟨_, rfl⟩
  have hlen := length_updateBody env.host p.id r
  rw [hn] at hsize hlen ⊢
  have hval : (UInt32.ofNat n).toNat = n := by
    rw [UInt32.toNat_ofNat', Nat.mod_eq_of_lt (by omega)]
  have hfive : (UInt32.ofNat n + 5).toNat = 5 + n := by
    rw [UInt32.toNat_add, hval]
    show (n + 5) % 2 ^ 32 = 5 + n
    omega
  obtain ⟨s, hnew, hfilled, hcap⟩ := newStream_ample hheap (n := 5 + n) (by omega)
  have hput := puts_writeUpdate env.host heap p.id r (UInt32.ofNat n)
  rw [hval] at hput
  obtain ⟨s', hwrite, hfilled', -⟩ := write_spec hput hfilled (by
    rw [List.length_nil, List.length_append, List.length_cons, length_wire, hn]
    omega)
  rw [List.nil_append] at hfilled'
  refine ⟨s', ?_, hfilled'⟩
  rw [notify, hp]
  simp only [hc, hup, if_true, ← hlen, hfive, hnew]
  show (write (writeUpdate env.host heap p.id r (UInt32.ofNat n)) s >>= _) = _
  rw [hwrite]
  rfl

/-- A process that is still there, and whose connection is up, is told of its request. -/
theorem notify_spec {env : Env} (hhost : env.host = .little) {heap : Heap} (hheap : heap.Ample)
    {d : Daemon} {r : LockRequest} (hpath : (joinPath r.path).length ≤ maxPathLength)
    {p : Process} {c : Conn} (hp : d.requester r = some p) (hc : d.tcpConn p.object = some c)
    (hup : env.up c = true) :
    ∃ s, d.notify env heap r = .ok [(c, s)] ∧ Sends s (update p.id r) := by
  have hsmall : (joinPath r.path).length ≤ 65535 := hpath
  have hlen := length_updateBody env.host p.id r
  have hone : (if r.createMissing then 0 else 1) ≤ 1 := by
    split
    · exact Nat.zero_le 1
    · exact Nat.le_refl 1
  obtain ⟨s, hrun, hfilled⟩ := notify_run hheap hp hc hup (by omega)
  refine ⟨s, hrun, sends_of_filled ?_⟩
  have hfield : lengthBytes env.host (joinPath r.path).length =
      beBytes 2 (joinPath r.path).length := by
    rw [lengthBytes, hhost, wire_little, UInt16.toNat_ofNat', Nat.mod_eq_of_lt (by omega)]
  have hbody : updateBody env.host p.id r = (update p.id r).message.2 := by
    rw [updateBody, hfield, hhost, wire_little, update, updateTail]
    split
    · rw [wire_little, Reply.message, lockFields, List.append_assoc, List.append_assoc]
    · rw [wire_little, Reply.message, lockFields, List.append_assoc, List.append_assoc]
      rfl
  have hid : (if r.createMissing then MsgId.createLockUpdate else MsgId.acquireLockUpdate) =
      (update p.id r).message.1 := by
    rw [update]
    split
    · rfl
    · rfl
  rw [hbody, hid, hhost, wire_little] at hfilled
  exact hfilled

end Tclm.Server.Daemon
