/-
  Tclm.Server.Serving

  What one message does to the daemon.

  Whatever a message says, its handler makes at most one call of the backend, with a path
  that a 16-bit length field has room for, and notes the connection of the process that
  the message names (`Outcome`).  So runs of the daemon are runs of the backend, and in
  every state of a run all names and paths are short (`Reachable.short`).
-/

import Mathlib.Data.Finset.Basic
import Tclm.Server.Decoding
import Tclm.Server.Names
import Tclm.Server.Replies

open Tclm.Comm
open Tclm.Comm.Stream

namespace Tclm.Server

/-- The process that an operation is called for. -/
def Backend.Op.process : Backend.Op → Option UInt32
  | .registerProcess => none
  | .unregisterProcess id => some id
  | .createLock pid _ _ | .acquireLock pid _ _ | .releaseLock pid _ _ => some pid

namespace Daemon

open Backend (Op Result Event)

-- ============================================================================
-- One message
-- ============================================================================

/-- What a message that asks for an operation does to the daemon, with the call of the backend
    that was made for it. -/
inductive Outcome (env : Env) (c : Conn) (d : Daemon) : Option Op → Option Event → Daemon → Prop where
  | idle {op} : Outcome env c d op none d
  /-- There was no memory for the reply. -/
  | noted {op pid} (hpid : Op.process op = some pid) :
      Outcome env c d (some op) none (d.updatePidConnection pid c)
  | registered {id b} (h : d.backend.registerProcess = (some id, b)) :
      Outcome env c d (some .registerProcess) (some ⟨.registerProcess, .registered (some id), ∅⟩)
        ({ d with backend := b }.updatePidConnection id c)
  | refused {b} (h : d.backend.registerProcess = (none, b)) :
      Outcome env c d (some .registerProcess) (some ⟨.registerProcess, .registered none, ∅⟩)
        { d with backend := b }
  | called {op res answered b pid}
      (hstep : d.backend.step env.fuel op = .ok (res, answered, b))
      (hpid : Op.process op = some pid) (hpath : op.path.length ≤ maxPathLength) :
      Outcome env c d (some op) (some ⟨op, res, answered⟩)
        { d.updatePidConnection pid c with backend := b }

/-- The operation that a message with this id asks for. -/
def askedBy (host : ByteOrder) (id : UInt8) : StreamM (Option Op) :=
  if id = MsgId.regProc then do
    let _ ← readUInt32 host
    pure (some .registerProcess)
  else if id = MsgId.unregProc then do
    let pid ← readUInt32 host
    pure (some (.unregisterProcess pid))
  else if id = MsgId.createLock then do
    let (pid, _, path, last) ← readLockRequest host
    pure (some (.createLock pid path (decide (0 < last))))
  else if id = MsgId.releaseLock then do
    let (pid, _, path, mode) ← readLockRequest host
    pure (some (.releaseLock pid path mode))
  else if id = MsgId.acquireLock then do
    let (pid, _, path, mode) ← readLockRequest host
    pure (some (.acquireLock pid path mode))
  else pure none

/-- The operation that a message asks for. -/
def asked (host : ByteOrder) : StreamM (Option Op) := do
  let id ← readUInt8
  let _ ← readUInt32 host
  askedBy host id

@[simp] theorem backend_updatePidConnection (d : Daemon) (pid : UInt32) (c : Conn) :
    (d.updatePidConnection pid c).backend = d.backend := by
  rw [updatePidConnection]
  split <;> rfl

/-- The requests that were answered meanwhile. -/
def answeredBy : Option Event → Finset LockRequest
  | some e => e.answered
  | none => ∅

/-- A handler made no other call of the backend than the operation. -/
def Does (env : Env) (c : Conn) (d : Daemon) (op : Option Op) (answered : Finset LockRequest)
    (d' : Daemon) : Prop :=
  ∃ o, Outcome env c d op o d' ∧ answered = answeredBy o

theorem onBackend_eq_ok {α : Type} {act : Except Fault α} {a : α} (h : onBackend act = .ok a) :
    act = .ok a := by
  cases act with
  | error fault => cases h
  | ok x =>
      cases h
      rfl

theorem onStream_eq_ok {α : Type} {act : Except StreamFault α} {a : α} (h : onStream act = .ok a) :
    act = .ok a := by
  cases act with
  | error fault => cases h
  | ok x =>
      cases h
      rfl

/-- A path is not longer than its length field says. -/
theorem length_of_readLockRequest {host : ByteOrder} {s s' : Stream} {pid : UInt32}
    {pathLength : UInt16} {path : PathString} {last : UInt8}
    (h : readLockRequest host s = .ok ((pid, pathLength, path, last), s')) :
    path.length ≤ maxPathLength := by
  obtain ⟨⟨pid', s₁⟩, -, h⟩ := bind_eq_ok.mp h
  obtain ⟨⟨l, s₂⟩, -, h⟩ := bind_eq_ok.mp h
  obtain ⟨⟨bs, s₃⟩, hpointer, h⟩ := bind_eq_ok.mp h
  obtain ⟨⟨b, s₄⟩, -, h⟩ := bind_eq_ok.mp h
  cases h
  have hlt : pathLength.toNat < 65536 := pathLength.toNat_lt
  have hlen : path.length ≤ pathLength.toNat := by
    rw [pointerBytes] at hpointer
    split at hpointer
    · cases hpointer
      exact Nat.zero_le _
    · split at hpointer
      · cases hpointer
        exact List.length_take_le _ _
      · cases hpointer
  rw [maxPathLength]
  omega

section Handlers

variable {env : Env} {c : Conn} {d d' : Daemon} {input : Stream} {replies : List Packet}
  {answered : Finset LockRequest}

theorem outcome_registerProcess {nonce : UInt32}
    (h : d.registerProcess env c nonce = .ok (replies, answered, d')) :
    Does env c d (some .registerProcess) answered d' := by
  obtain ⟨o, -, h⟩ := bind_eq_ok.mp h
  cases o with
  | none => cases h
  | some s =>
      obtain ⟨s₁, -, h⟩ := bind_eq_ok.mp h
      rcases hreg : d.backend.registerProcess with ⟨id, b⟩
      simp only [hreg] at h
      obtain ⟨s₂, -, h⟩ := bind_eq_ok.mp h
      cases id with
      | some id =>
          cases h
          exact ⟨_, .registered hreg, rfl⟩
      | none =>
          cases h
          exact ⟨_, .refused hreg, rfl⟩

theorem outcome_unregisterProcess {id : UInt32}
    (h : d.unregisterProcess env c id = .ok (replies, answered, d')) :
    Does env c d (some (.unregisterProcess id)) answered d' := by
  obtain ⟨o, -, h⟩ := bind_eq_ok.mp h
  cases o with
  | none => cases h
  | some s =>
      obtain ⟨s₁, -, h⟩ := bind_eq_ok.mp h
      obtain ⟨⟨res, as, b⟩, hrun, h⟩ := bind_eq_ok.mp h
      obtain ⟨s₂, -, h⟩ := bind_eq_ok.mp h
      cases h
      have hcall := onBackend_eq_ok hrun
      rw [backend_updatePidConnection] at hcall
      have hstep : d.backend.step env.fuel (.unregisterProcess id) =
          .ok (.unregistered res, answered, b) := bind_eq_ok.mpr ⟨_, hcall, rfl⟩
      exact ⟨_, .called hstep rfl (Nat.zero_le _), rfl⟩

theorem outcome_createLock {pid : UInt32} {pathLength : UInt16} {path : PathString}
    {acquireX : Bool} (hpath : path.length ≤ maxPathLength)
    (h : d.createLock env c pid pathLength path acquireX = .ok (replies, answered, d')) :
    Does env c d (some (.createLock pid path acquireX)) answered d' := by
  obtain ⟨o, -, h⟩ := bind_eq_ok.mp h
  cases o with
  | none =>
      cases h
      exact ⟨_, .noted rfl, rfl⟩
  | some s =>
      obtain ⟨s₁, -, h⟩ := bind_eq_ok.mp h
      obtain ⟨⟨res, b⟩, hrun, h⟩ := bind_eq_ok.mp h
      obtain ⟨s₂, -, h⟩ := bind_eq_ok.mp h
      cases h
      have hcall := onBackend_eq_ok hrun
      rw [backend_updatePidConnection] at hcall
      have hstep : d.backend.step env.fuel (.createLock pid path acquireX) =
          .ok (.created res, ∅, b) := bind_eq_ok.mpr ⟨_, hcall, rfl⟩
      exact ⟨_, .called hstep rfl hpath, rfl⟩

/-- A handler that sends the request back does what its call of the backend does, unless there
    is no memory for the reply. -/
theorem sendBack_ok {id : UInt8} {act : Except Fault (UInt16 × Finset LockRequest × Daemon)}
    (h : sendBack env c input id d act = .ok (replies, answered, d')) :
    (answered = ∅ ∧ d' = d) ∨ ∃ status, act = .ok (status, answered, d') := by
  obtain ⟨o, -, h⟩ := bind_eq_ok.mp h
  cases o with
  | none =>
      cases h
      exact Or.inl ⟨rfl, rfl⟩
  | some s =>
      obtain ⟨s₁, -, h⟩ := bind_eq_ok.mp h
      obtain ⟨body, -, h⟩ := bind_eq_ok.mp h
      obtain ⟨s₂, -, h⟩ := bind_eq_ok.mp h
      obtain ⟨⟨status, as, d''⟩, hrun, h⟩ := bind_eq_ok.mp h
      obtain ⟨s₃, -, h⟩ := bind_eq_ok.mp h
      cases h
      exact Or.inr ⟨status, onBackend_eq_ok hrun⟩

theorem outcome_acquireLock {pid : UInt32} {path : PathString} {mode : UInt8}
    (hpath : path.length ≤ maxPathLength)
    (h : d.acquireLock env c input pid path mode = .ok (replies, answered, d')) :
    Does env c d (some (.acquireLock pid path mode)) answered d' := by
  rw [acquireLock_eq_sendBack] at h
  rcases sendBack_ok h with ⟨rfl, rfl⟩ | ⟨status, hcall⟩
  · exact ⟨_, .noted rfl, rfl⟩
  · obtain ⟨⟨res, b⟩, hrun, hpure⟩ := bind_eq_ok.mp hcall
    cases hpure
    rw [backend_updatePidConnection] at hrun
    have hstep : d.backend.step env.fuel (.acquireLock pid path mode) =
        .ok (.acquired res, ∅, b) := bind_eq_ok.mpr ⟨_, hrun, rfl⟩
    exact ⟨_, .called hstep rfl hpath, rfl⟩

theorem outcome_releaseLock {pid : UInt32} {path : PathString} {mode : UInt8}
    (hpath : path.length ≤ maxPathLength)
    (h : d.releaseLock env c input pid path mode = .ok (replies, answered, d')) :
    Does env c d (some (.releaseLock pid path mode)) answered d' := by
  rw [releaseLock_eq_sendBack] at h
  rcases sendBack_ok h with ⟨rfl, rfl⟩ | ⟨status, hcall⟩
  · exact ⟨_, .noted rfl, rfl⟩
  · obtain ⟨⟨res, as, b⟩, hrun, hpure⟩ := bind_eq_ok.mp hcall
    cases hpure
    rw [backend_updatePidConnection] at hrun
    have hstep : d.backend.step env.fuel (.releaseLock pid path mode) =
        .ok (.released res, answered, b) := bind_eq_ok.mpr ⟨_, hrun, rfl⟩
    exact ⟨_, .called hstep rfl hpath, rfl⟩

/-- A handler that sends a list. -/
theorem outcome_listing {id : UInt8} {act : StreamM Unit}
    (h : (newListing env id >>= fun s => finishListing env act s >>= fun s =>
      pure ([(c, s)], ∅, d) : Except DaemonFault Handled) = .ok (replies, answered, d')) :
    Does env c d none answered d' := by
  obtain ⟨s, -, h⟩ := bind_eq_ok.mp h
  obtain ⟨s', -, h⟩ := bind_eq_ok.mp h
  cases h
  exact ⟨none, .idle, rfl⟩

/-- Whatever the message says, one of these things happens. -/
theorem outcome_receiveMessageInternal
    (h : d.receiveMessageInternal env c input = .ok (replies, answered, d')) :
    ∃ op s, asked env.host input = .ok (op, s) ∧ Does env c d op answered d' := by
  obtain ⟨⟨id, s₁⟩, hid, h⟩ := bind_eq_ok.mp h
  obtain ⟨⟨length, s₂⟩, hlength, h⟩ := bind_eq_ok.mp h
  have hasked : asked env.host input = askedBy env.host id s₂ := by
    rw [asked, run_bind (onStream_eq_ok hid), run_bind (onStream_eq_ok hlength)]
  rw [hasked]
  rcases msgId_cases id with rfl | rfl | rfl | rfl | rfl | rfl | rfl | rfl | rfl | hid
  · exact ⟨none, s₂, rfl, outcome_listing h⟩
  · exact ⟨none, s₂, rfl, outcome_listing h⟩
  · exact ⟨none, s₂, rfl, outcome_listing h⟩
  · refine ⟨none, s₂, rfl, ?_⟩
    change d.receiveMessageListLocksOfProcess env c s₂ length = _ at h
    rw [receiveMessageListLocksOfProcess] at h
    split at h
    · cases h
      exact ⟨none, .idle, rfl⟩
    · obtain ⟨⟨pid, s₃⟩, -, h⟩ := bind_eq_ok.mp h
      exact outcome_listing h
  · obtain ⟨⟨nonce, s₃⟩, hread, h⟩ := bind_eq_ok.mp h
    exact ⟨_, s₃, run_bind (onStream_eq_ok hread), outcome_registerProcess h⟩
  · obtain ⟨⟨pid, s₃⟩, hread, h⟩ := bind_eq_ok.mp h
    exact ⟨_, s₃, run_bind (onStream_eq_ok hread), outcome_unregisterProcess h⟩
  · obtain ⟨⟨⟨pid, l, path, last⟩, s₃⟩, hread, h⟩ := bind_eq_ok.mp h
    exact ⟨_, s₃, run_bind (onStream_eq_ok hread),
      outcome_createLock (length_of_readLockRequest (onStream_eq_ok hread)) h⟩
  · obtain ⟨⟨⟨pid, l, path, last⟩, s₃⟩, hread, h⟩ := bind_eq_ok.mp h
    exact ⟨_, s₃, run_bind (onStream_eq_ok hread),
      outcome_releaseLock (length_of_readLockRequest (onStream_eq_ok hread)) h⟩
  · obtain ⟨⟨⟨pid, l, path, last⟩, s₃⟩, hread, h⟩ := bind_eq_ok.mp h
    exact ⟨_, s₃, run_bind (onStream_eq_ok hread),
      outcome_acquireLock (length_of_readLockRequest (onStream_eq_ok hread)) h⟩
  · change d.handleMessage env c id length s₂ = _ at h
    rw [handleMessage_of_notMem hid] at h
    cases h
    refine ⟨none, s₂, ?_, none, .idle, rfl⟩
    simp only [handledIds, List.mem_cons, List.not_mem_nil, or_false, not_or] at hid
    simp only [askedBy, hid, if_false]
    rfl

end Handlers

/-- The call of the backend is an operation with a short path. -/
theorem Outcome.step {env : Env} {c : Conn} {d d' : Daemon} {op : Option Op} {o : Option Event}
    (h : Outcome env c d op o d') :
    (o = none ∧ d'.backend = d.backend) ∨
    ∃ e, o = some e ∧ op = some e.op ∧ Backend.Step d.backend e d'.backend ∧
      e.op.path.length ≤ maxPathLength := by
  cases h with
  | idle => exact .inl ⟨rfl, rfl⟩
  | noted => exact .inl ⟨rfl, backend_updatePidConnection ..⟩
  | registered hreg =>
      refine .inr ⟨_, rfl, rfl, ⟨env.fuel, ?_⟩, Nat.zero_le _⟩
      rw [backend_updatePidConnection]
      show Except.ok (Result.registered d.backend.registerProcess.1, ∅, d.backend.registerProcess.2) = _
      rw [hreg]
  | refused hreg =>
      refine .inr ⟨_, rfl, rfl, ⟨env.fuel, ?_⟩, Nat.zero_le _⟩
      show Except.ok (Result.registered d.backend.registerProcess.1, ∅, d.backend.registerProcess.2) = _
      rw [hreg]
  | called hstep _ hpath => exact .inr ⟨_, rfl, rfl, ⟨env.fuel, hstep⟩, hpath⟩

-- ============================================================================
-- Runs
-- ============================================================================

/-- A message that was handled: where and when it came, and what was sent. -/
structure Delivery where
  env : Env
  conn : Conn
  input : Stream
  sent : List Packet

/-- The daemon handles a message. -/
def Step (d : Daemon) (x : Delivery) (d' : Daemon) : Prop :=
  Delivers x.env d x.conn x.input x.sent d'

/-- States the daemon can be in between two messages. -/
def Reachable (d : Daemon) : Prop := Lts.Reachable Step {} d

/-- Handling a message keeps everything short, also what is told to other clients. -/
theorem short_of_receive {env : Env} {c : Conn} {d d' : Daemon} {input : Stream}
    {replies : List Packet} {answered : Finset LockRequest}
    (h : d.receiveMessageInternal env c input = .ok (replies, answered, d'))
    (hd : d.backend.Short) : d'.backend.Short ∧ ∀ r ∈ answered, r.Short := by
  obtain ⟨_, _, -, o, hout, rfl⟩ := outcome_receiveMessageInternal h
  rcases hout.step with ⟨rfl, hbackend⟩ | ⟨e, rfl, -, hstep, hpath⟩
  · rw [hbackend]
    exact ⟨hd, fun r hr => by cases hr⟩
  · exact hstep.short hpath hd

/-- In every state of a run of the daemon, names and paths are short. -/
theorem Reachable.short {d : Daemon} (h : Reachable d) : d.backend.Short := by
  refine Lts.Reachable.invariant (fun d => d.backend.Short) h Backend.short_init ?_
  rintro d x d' hd ⟨replies, answered, requests, updates, hreceive, -⟩
  exact (short_of_receive hreceive hd).1

/-- Runs of the daemon are runs of its backend. -/
theorem Reachable.backend {d : Daemon} (h : Reachable d) : Backend.Reachable d.backend := by
  refine Lts.Reachable.invariant (fun d : Daemon => Backend.Reachable d.backend) h
    (Lts.Reachable.refl Backend.init) ?_
  rintro d x d' hd ⟨replies, answered, requests, updates, hreceive, -⟩
  obtain ⟨_, _, -, o, hout, -⟩ := outcome_receiveMessageInternal hreceive
  rcases hout.step with ⟨-, hbackend⟩ | ⟨e, -, -, hstep, -⟩
  · rw [hbackend]
    exact hd
  · exact hd.next hstep

-- ============================================================================
-- Requests of clients
-- ============================================================================

/-- The operation for a request. -/
def operation : Request → Op
  | .registerProcess _ => .registerProcess
  | .unregisterProcess id => .unregisterProcess id
  | .createLock pid path acquireX => .createLock pid path acquireX
  | .acquireLock pid path mode => .acquireLock pid path mode
  | .releaseLock pid path mode => .releaseLock pid path mode

theorem gets_asked {q : Request} (hpath : q.path.length ≤ maxPathLength) :
    Gets (asked .little) (frame q.message) (some (operation q)) := by
  show Gets (readUInt8 >>= fun id => readUInt32 .little >>= fun _ => askedBy .little id) _ _
  refine gets_frame ?_
  cases q with
  | registerProcess nonce =>
      exact (gets_readUInt32 nonce).bind_pure fun _ => some Op.registerProcess
  | unregisterProcess id =>
      exact (gets_readUInt32 id).bind_pure fun pid => some (Op.unregisterProcess pid)
  | createLock pid path acquireX =>
      have hread := (gets_readLockRequest pid (if acquireX then 1 else 0) hpath).bind_pure
        fun x => some (Op.createLock x.1 x.2.2.1 (decide (0 < x.2.2.2)))
      cases acquireX with
      | true | false => exact hread
  | acquireLock pid path mode =>
      exact (gets_readLockRequest pid mode hpath).bind_pure
        fun x => some (Op.acquireLock x.1 x.2.2.1 x.2.2.2)
  | releaseLock pid path mode =>
      exact (gets_readLockRequest pid mode hpath).bind_pure
        fun x => some (Op.releaseLock x.1 x.2.2.1 x.2.2.2)

/-- Connections stay up, and there is memory for the messages. -/
structure Calm (env : Env) : Prop where
  up : ∀ c, env.up c = true
  heap : env.heap.Ample
  heaps : ∀ i, (env.heaps i).Ample

theorem calm_plain : Calm .plain := ⟨fun _ => rfl, Heap.ample_zeros, fun _ => Heap.ample_zeros⟩

theorem length_updateBody_lt (host : ByteOrder) (pid : UInt32) {r : LockRequest} (hr : r.Short) :
    5 + (updateBody host pid r).length < 2 ^ 32 := by
  have hlen := length_updateBody host pid r
  have hjoined := hr.joined
  have hone : (if r.createMissing then 0 else 1) ≤ 1 := by
    split
    · exact Nat.zero_le 1
    · exact Nat.le_refl 1
  rw [maxPathLength] at hjoined
  omega

theorem notify_ok (env : Env) {heap : Heap} (hheap : heap.Ample) (d : Daemon) {r : LockRequest}
    (hr : r.Short) : ∃ ps, d.notify env heap r = .ok ps := by
  cases hp : d.requester r with
  | none => exact ⟨[], by rw [notify, hp]; rfl⟩
  | some p =>
      cases hc : d.tcpConn p.object with
      | none => exact ⟨[], by simp only [notify, hp, hc]; rfl⟩
      | some c =>
          by_cases hup : env.up c = true
          · obtain ⟨s, hrun, -⟩ := notify_run hheap hp hc hup (length_updateBody_lt _ _ hr)
            exact ⟨_, hrun⟩
          · exact ⟨[], by simp only [notify, hp, hc, if_neg hup]; rfl⟩

theorem notifyAnsweredRequests_ok (env : Env) (d : Daemon) {requests : List LockRequest}
    (hr : ∀ r ∈ requests, r.Short) : ∀ {heaps : Nat → Heap}, (∀ i, (heaps i).Ample) →
    ∃ updates, d.notifyAnsweredRequests env heaps requests = .ok updates := by
  induction requests with
  | nil => exact fun _ => ⟨[], rfl⟩
  | cons r requests ih =>
      intro heaps hheaps
      obtain ⟨first, hfirst⟩ := notify_ok env (hheaps 0) d (hr r List.mem_cons_self)
      obtain ⟨more, hmore⟩ := ih (fun x hx => hr x (List.mem_cons_of_mem r hx)) fun i => hheaps (i + 1)
      refine ⟨first ++ more, ?_⟩
      rw [notifyAnsweredRequests, hfirst]
      show (notifyAnsweredRequests env d _ requests >>= _) = _
      rw [hmore]
      rfl

/-- The message of a request can come in, and is handled as `respond` says. -/
theorem Reachable.step_of_respond {d d' : Daemon} (h : Reachable d) {c : Conn} {q : Request}
    {r : Reply} {answered : Finset LockRequest}
    (hrespond : d.respond .plain c q = .ok (r, answered, d'))
    (hpath : q.path.length ≤ maxPathLength) :
    ∃ s updates, Step d ⟨.plain, c, ofBytes (frame q.message), (c, s) :: updates⟩ d' ∧ Sends s r ∧
      (answered = ∅ → updates = []) := by
  have hinput := carries_ofBytes (Request.fits hpath)
  have hhost : Env.plain.host = .little := rfl
  have hanswers := receiveMessageInternal_spec hhost Heap.ample_zeros c d hpath hinput
  rw [hrespond] at hanswers
  obtain ⟨s, hreceive, hsends⟩ := hanswers
  obtain ⟨updates, hupdates⟩ := notifyAnsweredRequests_ok .plain d'
    (fun x hx => (short_of_receive hreceive h.short).2 x (Finset.mem_toList.mp hx))
    fun _ => Heap.ample_zeros
  refine ⟨s, updates, ⟨_, answered, answered.toList, updates, hreceive, answered.nodup_toList,
    answered.toList_toFinset, hupdates, rfl⟩, hsends, ?_⟩
  rintro rfl
  rw [Finset.toList_empty] at hupdates
  cases hupdates
  rfl

theorem Reachable.respond {d d' : Daemon} (h : Reachable d) {c : Conn} {q : Request} {r : Reply}
    {answered : Finset LockRequest} (hrespond : d.respond .plain c q = .ok (r, answered, d'))
    (hpath : q.path.length ≤ maxPathLength) : Reachable d' := by
  obtain ⟨s, updates, hstep, -, -⟩ := h.step_of_respond hrespond hpath
  exact h.next hstep

end Daemon

end Tclm.Server
