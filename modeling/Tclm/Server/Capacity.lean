/-
  Tclm.Server.Capacity

  The messages that the daemon sends: they are written in the room that was reserved for
  them, and their headers tell their lengths.

  The functions that write to a stream do not look at its capacity.  Every handler reserves
  room by a formula of its own, some write the length before the rest, some afterwards.
  `Started` is a stream with a header and some bytes behind it; every write of a handler
  is a step from one such stream to a longer one.  A message is `WellFramed` when its
  length field, read as the other side reads it, is the number of bytes behind the header.
-/

import Tclm.Server.Listing
import Tclm.Server.Replies

open Tclm.Comm
open Tclm.Comm.Stream

namespace Tclm.Server

-- ============================================================================
-- Messages under construction
-- ============================================================================

/-- The message ends inside of its block, and is five bytes longer than its header says. -/
structure WellFramed (host : ByteOrder) (s : Stream) : Prop where
  inside : s.length ≤ s.capacity
  framed : ∃ n : UInt32, readUInt32 host { s with pos := 1 } = .ok (n, { s with pos := 5 }) ∧
    s.length = 5 + n.toNat

theorem wellFramed_of_bytes {host : ByteOrder} {s : Stream} {id : UInt8} {n : UInt32}
    {body : List UInt8} (hbytes : s.bytes = id :: wire host 4 n.toNat ++ body)
    (hinside : s.length ≤ s.capacity) (hlen : s.length = 5 + n.toNat) : WellFramed host s := by
  refine ⟨hinside, n, ?_, hlen⟩
  have hroom : Stream.pos { s with pos := 1 } + 4 ≤ Stream.length { s with pos := 1 } := by
    show 1 + 4 ≤ s.length
    omega
  have hfield : (s.bytes.drop 1).take 4 = wire host 4 n.toNat := by
    rw [hbytes, List.cons_append, List.drop_one, List.tail_cons]
    exact List.take_left' (length_wire host 4 _)
  have hread := run_map UInt32.ofNat
    (run_readUInt host (s := { s with pos := 1 }) hinside hroom)
  have hval : UInt32.ofNat (host.letoh 4 (beVal ((s.bytes.drop 1).take 4))) = n := by
    have hlt : n.toNat < 256 ^ 4 := n.toNat_lt
    rw [hfield, letoh_wire, Nat.mod_eq_of_lt hlt, UInt32.ofNat_toNat]
  rw [← hval]
  exact hread

/-- A stream with a header that says `len`, `n` bytes behind it, and room for `size` bytes. -/
def Started (host : ByteOrder) (len : UInt32) (n size : Nat) (s : Stream) : Prop :=
  ∃ (id : UInt8) (body : List UInt8), body.length = n ∧
    s.Filled (id :: wire host 4 len.toNat ++ body) ∧ size ≤ s.capacity

/-- A computation that appends `n` bytes. -/
def Writes (act : StreamM Unit) (n : Nat) : Prop := ∃ bs : List UInt8, bs.length = n ∧ Puts act bs

theorem Writes.bind {act next : StreamM Unit} {m n : Nat} (h : Writes act m)
    (hnext : Writes next n) : Writes (act >>= fun _ => next) (m + n) := by
  obtain ⟨bs, hlen, hput⟩ := h
  obtain ⟨cs, hlen', hput'⟩ := hnext
  exact ⟨bs ++ cs, by rw [List.length_append, hlen, hlen'], hput.bind hput'⟩

theorem writes_uint16 (host : ByteOrder) (d : UInt16) : Writes (writeUInt16 host d) 2 :=
  ⟨_, length_wire host 2 _, puts_wire host 2 d.toNat⟩

theorem writes_uint32 (host : ByteOrder) (d : UInt32) : Writes (writeUInt32 host d) 4 :=
  ⟨_, length_wire host 4 _, puts_wire host 4 d.toNat⟩

namespace Started

variable {host : ByteOrder} {len : UInt32} {n size : Nat} {s : Stream}

/-- The next bytes of a reply. -/
theorem write (h : Started host len n size s) {act : StreamM Unit} {m : Nat} (hact : Writes act m)
    (hsize : 5 + n + m ≤ size) :
    ∃ s', Daemon.write act s = .ok s' ∧ Started host len (n + m) size s' := by
  obtain ⟨id, body, hlen, hfilled, hcap⟩ := h
  obtain ⟨bs, hlen', hput⟩ := hact
  obtain ⟨s', hrun, hfilled', hcap'⟩ := hput hfilled (by
    rw [List.length_append, List.length_cons, length_wire, hlen, hlen']
    omega)
  rw [List.append_assoc] at hfilled'
  refine ⟨s', ?_, id, body ++ bs, ?_, hfilled', by rw [hcap']; exact hcap⟩
  · rw [Daemon.write, hrun]
    rfl
  · rw [List.length_append, hlen, hlen']

/-- The header says how many bytes follow. -/
theorem wellFramed (h : Started host len n size s) (hn : len.toNat = n) :
    WellFramed host s ∧ s.length = 5 + n := by
  obtain ⟨id, body, hlen, hfilled, -⟩ := h
  have hlength : s.length = 5 + n := by
    rw [hfilled.length, List.length_append, List.length_cons, length_wire, hlen]
  refine ⟨wellFramed_of_bytes hfilled.bytes_eq ?_ (by rw [hn]; exact hlength), hlength⟩
  rw [hfilled.length]
  exact hfilled.length_le

/-- The header is corrected when all bytes are there. -/
theorem update (h : Started host len n size s) (hn : 5 + n < 2 ^ 32) :
    ∃ s', updateMessageLength host (5 + n) s = .ok ((), s') ∧ WellFramed host s' ∧
      s'.length = 5 + n := by
  obtain ⟨id, body, hlen, hfilled, -⟩ := h
  obtain ⟨s', hrun, hbytes, hlength, hinside⟩ :=
    hfilled.run_updateMessageLength (length_wire host 4 _) host (5 + n)
  refine ⟨s', hrun, wellFramed_of_bytes hbytes hinside ?_, by rw [hlength, hlen]⟩
  rw [Daemon.toNat_total_sub hn, hlength, hlen]

/-- A request is copied behind the header. -/
theorem echo (h : Started host len 0 size s) (body : List UInt8) (hsize : 5 + body.length ≤ size) :
    ∃ s', Daemon.write (Daemon.echo body (5 + body.length)) s = .ok s' ∧
      Started host len body.length size s' := by
  obtain ⟨id, start, hlen, hfilled, hcap⟩ := h
  rw [List.eq_nil_of_length_eq_zero hlen, List.append_nil] at hfilled
  have hfive : (id :: wire host 4 len.toNat).length = 5 := by rw [List.length_cons, length_wire]
  have hroom : (id :: wire host 4 len.toNat).length + body.length ≤ s.capacity := by
    rw [hfive]
    omega
  obtain ⟨s', hrun, hfilled', hcap'⟩ := Daemon.echo_spec hfilled hroom
  rw [hfive] at hrun
  exact ⟨s', hrun, id, body, rfl, hfilled', by rw [hcap']; exact hcap⟩

end Started

namespace Daemon

-- ============================================================================
-- The handlers
-- ============================================================================

/-- The handler sends well-framed messages of the given size, unless the backend fails. -/
def SendsFramed (host : ByteOrder) (size : Nat) : Except DaemonFault Handled → Prop
  | .ok (sent, _, _) => ∀ p ∈ sent, WellFramed host p.2 ∧ p.2.length = size
  | .error (.backend _) => True
  | .error (.stream _) => False

theorem sendsFramed_one {host : ByteOrder} {size : Nat} {c : Conn} {s : Stream}
    {answered : Finset LockRequest} {d : Daemon} (h : WellFramed host s ∧ s.length = size) :
    SendsFramed host size (.ok ([(c, s)], answered, d)) := by
  intro p hp
  rw [List.mem_singleton] at hp
  rw [hp]
  exact h

/-- A call of the backend leaves the messages alone. -/
theorem sendsFramed_onBackend {host : ByteOrder} {size : Nat} {α : Type} {act : Except Fault α}
    {f : α → Except DaemonFault Handled} (h : ∀ a, SendsFramed host size (f a)) :
    SendsFramed host size (onBackend act >>= f) := by
  cases act with
  | error fault => exact trivial
  | ok a => exact h a

theorem write_bind (act next : StreamM Unit) (s : Stream) :
    write (act >>= fun _ => next) s = write act s >>= write next := by
  show (onStream (act s >>= fun p => next p.2) >>= _) = _
  rw [write]
  cases act s with
  | error fault => rfl
  | ok p => rfl

/-- A new stream with a header. -/
theorem newStream_started {heap : Heap} (hheap : heap.Ample) (host : ByteOrder) (id : UInt8)
    (len : UInt32) (size : Nat) (hsize : 5 ≤ size) (hbound : size ≤ 2 ^ 63) :
    ∃ s s', newStream heap size = .ok (some s) ∧
      write (writeMessageHeader host heap id len) s = .ok s' ∧ Started host len 0 size s' := by
  obtain ⟨s, hnew, hfilled, hcap⟩ := newStream_ample hheap hbound
  obtain ⟨s', hrun, hfilled', hcap'⟩ := puts_messageHeader host heap id len hfilled (by
    rw [List.length_nil, List.length_cons, length_wire]
    omega)
  refine ⟨s, s', hnew, ?_, id, [], rfl, ?_, by rw [hcap']; exact hcap⟩
  · rw [write, hrun]
    rfl
  · rw [List.append_nil]
    exact hfilled'

/-- The bytes behind the header of the list of a process' locks. -/
def heldSize : Option Process → Nat
  | none => 6
  | some p => 6 + (p.heldLocks.entries.map fun x => x.1.length + 1 + 2).sum

theorem length_heldBytes (host : ByteOrder) (pid : UInt32) (p : Option Process) :
    (heldBytes host pid p).length = heldSize p := by
  cases p with
  | none => rw [heldBytes, List.length_append, length_wire, length_wire, heldSize]
  | some p =>
      simp only [heldBytes, List.length_append, length_wire, List.length_flatMap,
        length_heldRecord, heldSize]

section Handlers

variable {env : Env} (hheap : env.heap.Ample) (c : Conn) (d : Daemon)

include hheap

/-- A handler that sends a list. -/
theorem sendsFramed_listing {id : UInt8} {act : StreamM Unit} {bs : List UInt8} {n : Nat}
    (hact : Appends act bs) (hlen : bs.length = n) (hn : 5 + n < 2 ^ 32) :
    SendsFramed env.host (5 + n) (newListing env id >>= fun s =>
      finishListing env act s >>= fun s => pure ([(c, s)], ∅, d)) := by
  subst hlen
  obtain ⟨s, s', hnew, hfinish, hbytes, hlength, hinside⟩ :=
    listing_spec hheap id hact (by omega)
  rw [hnew]
  show SendsFramed _ _ (finishListing env act s >>= _)
  rw [hfinish]
  refine sendsFramed_one ⟨wellFramed_of_bytes hbytes hinside ?_, hlength⟩
  rw [toNat_total_sub hn, hlength]

theorem sendsFramed_registerProcess (nonce : UInt32) :
    SendsFramed env.host (if d.backend.registerProcess.1.isSome then 15 else 11)
      (d.registerProcess env c nonce) := by
  obtain ⟨s, s₁, hnew, hheader, hstarted⟩ := newStream_started hheap env.host
    MsgId.regProcResponse 10 15 (by decide) (by decide)
  obtain ⟨s₂, hnonce, hstarted₂⟩ := hstarted.write (writes_uint32 env.host nonce) (by omega)
  rw [registerProcess, hnew]
  show SendsFramed _ _ (write _ s >>= _)
  rw [write_bind, hheader]
  show SendsFramed _ _ (write (writeUInt32 env.host nonce) s₁ >>= _)
  rw [hnonce]
  rcases d.backend.registerProcess with ⟨id, b⟩
  cases id with
  | some id =>
      obtain ⟨s₃, hlast, hstarted₃⟩ := hstarted₂.write ((writes_uint16 env.host
        ResponseStatus.success).bind (writes_uint32 env.host id)) (by omega)
      show SendsFramed _ 15 (write (writeRegistered env.host (some id)) s₂ >>= _)
      rw [writeRegistered, hlast]
      exact sendsFramed_one (hstarted₃.wellFramed rfl)
  | none =>
      -- the answer is shorter than announced, and its length is corrected
      obtain ⟨s₃, hstatus, hstarted₃⟩ := hstarted₂.write (writes_uint16 env.host
        ResponseStatus.tooManyProcesses) (by omega)
      obtain ⟨s₄, hupdate, hframed⟩ := hstarted₃.update (by omega)
      show SendsFramed _ 11 (write (writeRegistered env.host none) s₂ >>= _)
      rw [writeRegistered, write_bind, hstatus]
      show SendsFramed _ 11 (write (updateMessageLength env.host 11) s₃ >>= _)
      rw [write, hupdate]
      exact sendsFramed_one hframed

theorem sendsFramed_unregisterProcess (id : UInt32) :
    SendsFramed env.host 11 (d.unregisterProcess env c id) := by
  obtain ⟨s, s₁, hnew, hheader, hstarted⟩ := newStream_started hheap env.host
    MsgId.unregProcResponse 6 11 (by decide) (by decide)
  obtain ⟨s₂, hid, hstarted₂⟩ := hstarted.write (writes_uint32 env.host id) (by omega)
  rw [unregisterProcess, hnew]
  show SendsFramed _ _ (write _ s >>= _)
  rw [write_bind, hheader]
  show SendsFramed _ _ (write (writeUInt32 env.host id) s₁ >>= _)
  rw [hid]
  refine sendsFramed_onBackend fun x => ?_
  obtain ⟨s₃, hlast, hstarted₃⟩ := hstarted₂.write (writes_uint16 env.host x.1.status) (by omega)
  show SendsFramed _ _ (write (writeUInt16 env.host x.1.status) s₂ >>= _)
  rw [hlast]
  exact sendsFramed_one (hstarted₃.wellFramed rfl)

theorem sendsFramed_createLock (pid : UInt32) {pathLength : UInt16} {path : PathString}
    (hpath : path.length = pathLength.toNat) (acquireX : Bool) :
    SendsFramed env.host (13 + pathLength.toNat)
      (d.createLock env c pid pathLength path acquireX) := by
  have hshort : pathLength.toNat < 65536 := pathLength.toNat_lt
  obtain ⟨s, s₁, hnew, hheader, hstarted⟩ := newStream_started hheap env.host
    MsgId.createLockUpdate (UInt32.ofNat (4 + 2 + pathLength.toNat + 2))
    (5 + 4 + 2 + pathLength.toNat + 2) (by omega) (by omega)
  rw [createLock, hnew]
  show SendsFramed _ _ (write _ s >>= _)
  rw [hheader]
  refine sendsFramed_onBackend fun x => ?_
  have hcopy : Writes (copyLengthSeek path) pathLength.toNat := ⟨path, hpath, puts_copyLengthSeek path⟩
  obtain ⟨s₂, hlast, hstarted₂⟩ := hstarted.write ((writes_uint32 env.host pid).bind
    ((writes_uint16 env.host pathLength).bind (hcopy.bind (writes_uint16 env.host x.1.status))))
    (by omega)
  have hlen : (UInt32.ofNat (4 + 2 + pathLength.toNat + 2)).toNat =
      0 + (4 + (2 + (pathLength.toNat + 2))) := by
    rw [UInt32.toNat_ofNat', Nat.mod_eq_of_lt (by omega)]
    omega
  have hframed := hstarted₂.wellFramed hlen
  have hsize : 5 + (0 + (4 + (2 + (pathLength.toNat + 2)))) = 13 + pathLength.toNat := by omega
  rw [hsize] at hframed
  show SendsFramed _ _ (write _ s₁ >>= _)
  rw [hlast]
  exact sendsFramed_one hframed

section Echo

variable {input : Stream} (hcap : input.length ≤ input.capacity) (hfive : 5 ≤ input.length)
  (hbound : input.capacity + 2 ≤ 2 ^ 63) (hshort : input.length + 2 < 2 ^ 32)

include hcap hfive hbound hshort

/-- A reply that starts with a copy of the request behind its header. -/
theorem echo_started (id : UInt8) :
    ∃ s s₁ s₂, newStream env.heap (input.capacity + 2) = .ok (some s) ∧
      write (writeMessageHeader env.host env.heap id (UInt32.ofNat (input.length + 2 - 5))) s =
        .ok s₁ ∧
      readBody input = .ok (input.bytes.drop 5, { input with pos := 5 }) ∧
      write (echo (input.bytes.drop 5) input.length) s₁ = .ok s₂ ∧
      ∀ status : UInt16, ∃ s₃, write (writeUInt16 env.host status) s₂ = .ok s₃ ∧
        WellFramed env.host s₃ ∧ s₃.length = input.length + 2 := by
  obtain ⟨s, s₁, hnew, hheader, hstarted⟩ := newStream_started hheap env.host id
    (UInt32.ofNat (input.length + 2 - 5)) (input.capacity + 2) (by omega) hbound
  have hbody : (input.bytes.drop 5).length = input.length - 5 := by
    rw [List.length_drop, bytes, List.length_take]
    rw [capacity] at hcap
    omega
  obtain ⟨s₂, hcopy, hstarted₂⟩ := hstarted.echo (input.bytes.drop 5) (by omega)
  have hend : 5 + (input.bytes.drop 5).length = input.length := by omega
  rw [hend] at hcopy
  refine ⟨s, s₁, s₂, hnew, hheader, run_readBody hcap, hcopy, fun status => ?_⟩
  obtain ⟨s₃, hlast, hstarted₃⟩ := hstarted₂.write (writes_uint16 env.host status) (by omega)
  have hlen : (UInt32.ofNat (input.length + 2 - 5)).toNat =
      (input.bytes.drop 5).length + 2 := by
    rw [UInt32.toNat_ofNat', Nat.mod_eq_of_lt (by omega)]
    omega
  have hframed := hstarted₃.wellFramed hlen
  have hsize : 5 + ((input.bytes.drop 5).length + 2) = input.length + 2 := by omega
  rw [hsize] at hframed
  exact ⟨s₃, hlast, hframed⟩

theorem sendsFramed_sendBack (id : UInt8)
    (act : Except Fault (UInt16 × Finset LockRequest × Daemon)) :
    SendsFramed env.host (input.length + 2) (sendBack env c input id d act) := by
  obtain ⟨s, s₁, s₂, hnew, hheader, hbody, hecho, hlast⟩ :=
    echo_started hheap hcap hfive hbound hshort id
  rw [sendBack, hnew]
  show SendsFramed _ _ (write _ s >>= _)
  rw [hheader]
  show SendsFramed _ _ (onStream (readBody input) >>= _)
  rw [hbody]
  show SendsFramed _ _ (write _ s₁ >>= _)
  rw [hecho]
  refine sendsFramed_onBackend fun x => ?_
  obtain ⟨s₃, hstatus, hframed⟩ := hlast x.1
  show SendsFramed _ _ (write _ s₂ >>= _)
  rw [hstatus]
  exact sendsFramed_one hframed

theorem sendsFramed_releaseLock (pid : UInt32) (path : PathString) (mode : UInt8) :
    SendsFramed env.host (input.length + 2) (d.releaseLock env c input pid path mode) := by
  rw [releaseLock_eq_sendBack]
  exact sendsFramed_sendBack hheap c _ hcap hfive hbound hshort _ _

theorem sendsFramed_acquireLock (pid : UInt32) (path : PathString) (mode : UInt8) :
    SendsFramed env.host (input.length + 2) (d.acquireLock env c input pid path mode) := by
  rw [acquireLock_eq_sendBack]
  exact sendsFramed_sendBack hheap c _ hcap hfive hbound hshort _ _

end Echo

end Handlers

-- ============================================================================
-- What is read of a request
-- ============================================================================

/-- A message whose path lies inside of it is read, and the path is as long as it says. -/
theorem readLockRequest_ok {host : ByteOrder} {s : Stream} (hpos : s.pos = 5)
    (hlen : 5 ≤ s.length) (hcap : s.length ≤ s.capacity)
    (hinside : pathEnd host s.bytes ≤ s.bytes.length) :
    ∃ pid pathLength path last s',
      readLockRequest host s = .ok ((pid, pathLength, path, last), s') ∧
      path.length = pathLength.toNat ∧ s'.buffer = s.buffer ∧ s'.length = s.length := by
  have hread := (readLockRequest_inside_iff host hpos hlen hcap).mpr hinside
  obtain ⟨v, p₁, hpid, -⟩ := readUInt_moves host 4 hcap
  obtain ⟨w, p₂, hpathLength, -⟩ := readUInt_moves host 2 (s := { s with pos := p₁ }) hcap
  have hstart : ∀ f : UInt32 → UInt16 → StreamM (UInt32 × UInt16 × PathString × UInt8),
      (readUInt32 host >>= fun pid => readUInt16 host >>= fun l => f pid l) s =
        f (UInt32.ofNat v) (UInt16.ofNat w) { s with pos := p₂ } := by
    intro f
    rw [readUInt32, run_bind (run_map UInt32.ofNat hpid), readUInt16,
      run_bind (run_map UInt16.ofNat hpathLength)]
  rw [readLockRequest, hstart] at hread ⊢
  have hpointer := run_pointerBytes (n := (UInt16.ofNat w).toNat) (s := { s with pos := p₂ }) hcap
  by_cases hroom : (UInt16.ofNat w).toNat = 0 ∨ p₂ + (UInt16.ofNat w).toNat ≤ s.length
  · rw [if_pos hroom] at hpointer
    rw [run_bind hpointer]
    obtain ⟨b, p₃, hlast, -⟩ :=
      readUInt8_moves (s := { s with pos := p₂ + (UInt16.ofNat w).toNat }) hcap
    refine ⟨_, _, _, b, _, run_map (fun last => (_, _, _, last)) hlast, ?_, rfl, rfl⟩
    show ((s.bytes.drop p₂).take (UInt16.ofNat w).toNat).length = _
    rw [List.length_take, List.length_drop, bytes, List.length_take]
    rw [capacity] at hcap
    omega
  · rw [if_neg hroom] at hpointer
    refine absurd ?_ hread
    show (pointerBytes (UInt16.ofNat w).toNat { s with pos := p₂ } >>= _) = _
    rw [hpointer]
    rfl

-- ============================================================================
-- The daemon
-- ============================================================================

/-- The number of bytes of the reply to a message with the given id. -/
def replySizeFor (env : Env) (id : UInt8) (input : Stream) (d : Daemon) : Nat :=
  if id = MsgId.listConns then 5 + (env.peers.map fun _ => 7).sum
  else if id = MsgId.listProcs then
    5 + ((d.backend.processes.entries.map Prod.snd).map fun _ => 8).sum
  else if id = MsgId.listLocks then
    5 + (d.backend.forest.forEachLock.map fun x => x.2.name.length + 4 + 2 + 1).sum
  else if id = MsgId.listLocksProcess then
    match readUInt32 env.host { input with pos := 5 } with
    | .ok (pid, _) => 5 + heldSize (d.backend.processes.lookup pid)
    | .error _ => 0
  else if id = MsgId.regProc then if d.backend.registerProcess.1.isSome then 15 else 11
  else if id = MsgId.unregProc then 11
  else if id = MsgId.createLock then
    match readLockRequest env.host { input with pos := 5 } with
    | .ok ((_, pathLength, _, _), _) => 13 + pathLength.toNat
    | .error _ => 0
  else if id = MsgId.releaseLock then input.length + 2
  else if id = MsgId.acquireLock then input.length + 2
  else 0

/-- The number of bytes of the reply to a message. -/
def replySize (env : Env) (input : Stream) (d : Daemon) : Nat :=
  d.replySizeFor env (input.bytes.headD 0) input

/-- What the handler of a message sends. -/
theorem sendsFramed_handleMessage {env : Env} (hheap : env.heap.Ample)
    (hheaps : ∀ i, (env.heaps i).Ample) (c : Conn) (d : Daemon) (id : UInt8) (length : UInt32)
    {input : Stream} (hfive : 5 ≤ input.length) (hcap : input.length ≤ input.capacity)
    (hbound : input.capacity + 2 ≤ 2 ^ 63)
    (hpath : id = MsgId.createLock ∨ id = MsgId.releaseLock ∨ id = MsgId.acquireLock →
      pathEnd env.host input.bytes ≤ input.bytes.length)
    (hsize : d.replySizeFor env id input < 2 ^ 32) :
    SendsFramed env.host (d.replySizeFor env id input)
      (d.handleMessage env c id length { input with pos := 5 }) := by
  have hcap₅ : Stream.length { input with pos := 5 } ≤ capacity { input with pos := 5 } := hcap
  obtain ⟨v, s', hread⟩ : ∃ v s', readUInt32 env.host { input with pos := 5 } = .ok (v, s') := by
    obtain ⟨v, p, hread, -⟩ := readUInt_moves env.host 4 hcap₅
    exact ⟨_, _, run_map UInt32.ofNat hread⟩
  -- releasing and acquiring send the request back
  have hecho : id = MsgId.releaseLock ∨ id = MsgId.acquireLock → ∃ pid pathLength path last s',
      readLockRequest env.host { input with pos := 5 } = .ok ((pid, pathLength, path, last), s') ∧
      s'.capacity = input.capacity ∧ s'.length = input.length := by
    intro hid
    obtain ⟨pid, pathLength, path, last, s', hread, -, hbuffer, hlength⟩ :=
      readLockRequest_ok (s := { input with pos := 5 }) rfl hfive hcap (hpath (.inr hid))
    exact ⟨pid, pathLength, path, last, s', hread, congrArg List.length hbuffer, hlength⟩
  rcases msgId_cases id with rfl | rfl | rfl | rfl | rfl | rfl | rfl | rfl | rfl | hid
  · exact sendsFramed_listing hheap c d (appends_writeRecords
      (fun heap x hheap => appends_writeConnection hheap env.host x) hheaps env.peers)
      (by simp only [List.length_flatMap, connectionRecord, List.length_append, length_wire]; rfl)
      hsize
  · exact sendsFramed_listing hheap c d (appends_writeRecords
      (fun heap x hheap => appends_writeProcess hheap env.host x) hheaps _)
      (by simp only [List.length_flatMap, processRecord, List.length_append, length_wire]) hsize
  · exact sendsFramed_listing hheap c d (appends_writeRecords
      (fun heap x hheap => appends_writeLock hheap env.host x) hheaps _)
      (by simp only [List.length_flatMap, length_lockRecord]) hsize
  · have hreply : d.replySizeFor env MsgId.listLocksProcess input =
        5 + heldSize (d.backend.processes.lookup v) := by
      show (match readUInt32 env.host { input with pos := 5 } with
        | .ok (pid, _) => 5 + heldSize (d.backend.processes.lookup pid)
        | .error _ => 0) = _
      rw [hread]
    rw [hreply] at hsize ⊢
    show SendsFramed env.host _ (d.receiveMessageListLocksOfProcess env c _ length)
    rw [receiveMessageListLocksOfProcess, hread]
    by_cases hfour : length ≠ 4
    · rw [if_pos hfour]
      intro p hp
      cases hp
    · rw [if_neg hfour]
      exact sendsFramed_listing hheap c d (appends_writeLocksOfProcess env.host hheaps v _)
        (length_heldBytes env.host v _) hsize
  · show SendsFramed env.host _ (d.receiveMessageRegisterProcess env c _)
    rw [receiveMessageRegisterProcess, hread]
    exact sendsFramed_registerProcess hheap c d v
  · show SendsFramed env.host _ (d.receiveMessageUnregisterProcess env c _)
    rw [receiveMessageUnregisterProcess, hread]
    exact sendsFramed_unregisterProcess hheap c d v
  · obtain ⟨pid, pathLength, path, last, s', hread, hlength, -, -⟩ :=
      readLockRequest_ok (s := { input with pos := 5 }) rfl hfive hcap (hpath (.inl rfl))
    have hreply : d.replySizeFor env MsgId.createLock input = 13 + pathLength.toNat := by
      show (match readLockRequest env.host { input with pos := 5 } with
        | .ok ((_, pathLength, _, _), _) => 13 + pathLength.toNat
        | .error _ => 0) = _
      rw [hread]
    rw [hreply]
    show SendsFramed env.host _ (d.receiveMessageCreateLock env c _)
    rw [receiveMessageCreateLock, hread]
    exact sendsFramed_createLock hheap c d pid hlength _
  · obtain ⟨pid, pathLength, path, last, s', hread, hcapacity, hlength⟩ := hecho (.inl rfl)
    have hreply : d.replySizeFor env MsgId.releaseLock input = s'.length + 2 := by
      rw [hlength]
      rfl
    rw [hreply] at hsize ⊢
    show SendsFramed env.host _ (d.receiveMessageReleaseLock env c _)
    rw [receiveMessageReleaseLock, hread]
    exact sendsFramed_releaseLock hheap c d (by omega) (by omega) (by omega) hsize pid path last
  · obtain ⟨pid, pathLength, path, last, s', hread, hcapacity, hlength⟩ := hecho (.inr rfl)
    have hreply : d.replySizeFor env MsgId.acquireLock input = s'.length + 2 := by
      rw [hlength]
      rfl
    rw [hreply] at hsize ⊢
    show SendsFramed env.host _ (d.receiveMessageAcquireLock env c _)
    rw [receiveMessageAcquireLock, hread]
    exact sendsFramed_acquireLock hheap c d (by omega) (by omega) (by omega) hsize pid path last
  · rw [handleMessage_of_notMem hid]
    intro p hp
    cases hp

/-- The number of bytes of the update for an answered request. -/
def updateSize (r : LockRequest) : Nat :=
  5 + (4 + 2 + (joinPath r.path).length + (if r.createMissing then 0 else 1) + 2)

/-- One turn of the loop over the answered requests. -/
theorem notify_framed (env : Env) {heap : Heap} (hheap : heap.Ample) (d : Daemon)
    {r : LockRequest} (hsize : updateSize r < 2 ^ 32) :
    ∃ sent, d.notify env heap r = .ok sent ∧
      ∀ p ∈ sent, WellFramed env.host p.2 ∧ p.2.length = updateSize r := by
  rw [updateSize] at hsize ⊢
  rw [notify]
  cases hp : d.requester r with
  | none => exact ⟨[], rfl, List.forall_mem_nil _⟩
  | some p =>
      cases hconn : d.tcpConn p.object with
      | none => exact ⟨[], by simp only [hconn]; rfl, List.forall_mem_nil _⟩
      | some c =>
          by_cases hup : env.up c = true
          · have hlen := length_updateBody env.host p.id r
            obtain ⟨s, hrun, hfilled⟩ := notify_run (d := d) (c := c) hheap hp hconn hup (by
              rw [hlen]
              exact hsize)
            have hlength : s.length = 5 + (updateBody env.host p.id r).length := by
              rw [hfilled.length, List.length_append, List.length_cons, length_wire]
            have hval : (UInt32.ofNat (updateBody env.host p.id r).length).toNat =
                (updateBody env.host p.id r).length := by
              rw [UInt32.toNat_ofNat', Nat.mod_eq_of_lt (by omega)]
            have hbytes := hfilled.bytes_eq
            rw [← hval] at hbytes
            rw [notify, hp] at hrun
            refine ⟨[(c, s)], hrun, fun q hq => ?_⟩
            rw [List.mem_singleton] at hq
            rw [hq]
            refine ⟨wellFramed_of_bytes hbytes ?_ (by rw [hval]; exact hlength), ?_⟩
            · rw [hfilled.length]
              exact hfilled.length_le
            · rw [hlength, hlen]
          · exact ⟨[], by simp only [hconn, hup]; rfl, List.forall_mem_nil _⟩

/-- The loop over the answered requests. -/
theorem notifyAnsweredRequests_framed (env : Env) (d : Daemon) {heaps : Nat → Heap}
    (hheaps : ∀ i, (heaps i).Ample) {requests : List LockRequest}
    (hsize : ∀ r ∈ requests, updateSize r < 2 ^ 32) :
    ∃ sent, d.notifyAnsweredRequests env heaps requests = .ok sent ∧
      ∀ p ∈ sent, WellFramed env.host p.2 := by
  induction requests generalizing heaps with
  | nil => exact ⟨[], rfl, nofun⟩
  | cons r requests ih =>
      obtain ⟨first, hfirst, hframed⟩ :=
        notify_framed env (hheaps 0) d (hsize r List.mem_cons_self)
      obtain ⟨more, hmore, hframed'⟩ := ih (fun i => hheaps (i + 1))
        fun q hq => hsize q (List.mem_cons_of_mem r hq)
      refine ⟨first ++ more, ?_, ?_⟩
      · rw [notifyAnsweredRequests, hfirst]
        show (notifyAnsweredRequests env d _ requests >>= _) = _
        rw [hmore]
        rfl
      · intro p hp
        rcases List.mem_append.mp hp with hp | hp
        · exact (hframed p hp).1
        · exact hframed' p hp

/-- Every message that the daemon sends is written inside of its block and says its own
    length, in whatever state the daemon is and whatever it is asked.  (A block of memory takes
    less than half of the address space.) -/
theorem messages_framed (env : Env) (hheap : env.heap.Ample) (hheaps : ∀ i, (env.heaps i).Ample)
    (c : Conn) (d : Daemon) :
    (∀ input : Stream, input.pos = 0 → 5 ≤ input.length → input.length ≤ input.capacity →
      input.capacity + 2 ≤ 2 ^ 63 → pathInside env.host input.bytes = true →
      d.replySize env input < 2 ^ 32 →
      SendsFramed env.host (d.replySize env input) (d.receiveMessageInternal env c input)) ∧
    (∀ requests : List LockRequest, (∀ r ∈ requests, updateSize r < 2 ^ 32) →
      ∃ sent, d.notifyAnsweredRequests env env.heaps requests = .ok sent ∧
        ∀ p ∈ sent, WellFramed env.host p.2) := by
  refine ⟨fun input hpos hfive hcap hbound hpath hsize => ?_, fun requests hsize => ?_⟩
  · obtain ⟨length, hrun⟩ := receiveMessageInternal_eq env c d hpos hfive hcap
    rw [hrun]
    refine sendsFramed_handleMessage hheap hheaps c d _ length hfive hcap hbound ?_ hsize
    intro hid
    rw [pathInside, if_pos hid] at hpath
    exact of_decide_eq_true hpath
  · exact notifyAnsweredRequests_framed env d hheaps hsize

/-- A lock is asked for, and fifteen bytes come back. -/
theorem messages_framed_borrowing :
    ∃ p answered d', lending.receiveMessageInternal .plain 0 (ofBytes borrowing) =
      .ok ([p], answered, d') ∧ WellFramed .little p.2 ∧ p.2.length = 15 := by
  have hsent : ((lending.receiveMessageInternal .plain 0 (ofBytes borrowing)).toOption.map
      (·.1.length)) = some 1 := by decide +kernel
  have hframed := (messages_framed .plain Heap.ample_zeros (fun _ => Heap.ample_zeros) 0 lending).1
    (ofBytes borrowing) rfl (by decide) (by decide) (by decide) (by decide) (by decide)
  obtain ⟨⟨sent, answered, d'⟩, hrun, hlen⟩ := Option.map_eq_some_iff.mp hsent
  obtain ⟨p, rfl⟩ := List.length_eq_one_iff.mp hlen
  have hok : lending.receiveMessageInternal .plain 0 (ofBytes borrowing) =
      .ok ([p], answered, d') := by
    cases hreceive : lending.receiveMessageInternal .plain 0 (ofBytes borrowing) with
    | ok x =>
        rw [hreceive] at hrun
        cases hrun
        rfl
    | error e =>
        rw [hreceive] at hrun
        cases hrun
  rw [hok] at hframed
  exact ⟨p, answered, d', hok, hframed p List.mem_cons_self⟩

end Daemon

end Tclm.Server
