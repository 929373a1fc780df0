/-
  Tclm.Comm.Sending

  The sending side of a connection, `Connection::send` and `Connection::data_out`
  of `src/Connection.{h,cpp}`, and what the `Communications_Manager` does for it:
  the events of the file descriptor follow `out_enabled`.

  The socket is known by its answers to `write` and the epoll instance by whether
  `epoll_ctl` succeeds.  A run is a sequence of calls; its log keeps the streams
  that were sent and the bytes that the socket has accepted.
-/

import Tclm.Comm.Stream
import Tclm.Lib.Trace

open Tclm.Comm.Stream

namespace Tclm.Comm

/-- The `Communications_Manager` of a connection: it has no epoll instance yet (`epfd < 0`),
    or it has one, with or without `EPOLLOUT` in the events of the connection. -/
inductive CommunicationsManager where
  | idle
  | polling (out : Bool)
deriving DecidableEq, Repr

/-- The send state of a `Connection`. -/
structure Sending where
  sendQueue : List Stream := []
  outEnabled : Bool := false
  mgr : Option CommunicationsManager := none
deriving DecidableEq, Repr

/-- What `write (fd, ...)` returns. -/
inductive WriteResult where
  | accepted (count : Nat)
  | error (retry : Bool)
deriving DecidableEq, Repr

/-- `data_out` goes wrong: reading from a stream, or there is no manager to call. -/
inductive SendFault where
  | stream (fault : StreamFault)
  | noManager
deriving DecidableEq, Repr

/-- `epoll_ctl (epfd, EPOLL_CTL_MOD, ...)`, if there is an epoll instance.  The result says
    whether that went well. -/
def CommunicationsManager.modify (ctl out : Bool) :
    CommunicationsManager → Bool × CommunicationsManager
  | .idle => (true, .idle)
  | .polling old => (ctl, .polling (if ctl then out else old))

namespace Sending

-- ============================================================================
-- The manager
-- ============================================================================

/-- `Communications_Manager::add_polled_fd`, when the file descriptor could be added. -/
def addPolledFd (epfd : Bool) (c : Sending) : Sending :=
  { c with mgr := some (if epfd then .polling c.outEnabled else .idle) }

/-- The start of `Communications_Manager::main_loop`: without an epoll instance one is
    created, and the file descriptor is added to it. -/
def mainLoop (c : Sending) : Sending :=
  match c.mgr with
  | some .idle => { c with mgr := some (.polling c.outEnabled) }
  | _ => c

/-- The connection is told first, and then the epoll instance. -/
def fdSetOut (out ctl : Bool) (mgr : CommunicationsManager) (c : Sending) : Bool × Sending :=
  let (success, mgr) := mgr.modify ctl out
  (success, { c with outEnabled := out, mgr := some mgr })

/-- `Communications_Manager::fd_enable_out` -/
def fdEnableOut (ctl : Bool) (mgr : CommunicationsManager) (c : Sending) : Bool × Sending :=
  c.fdSetOut true ctl mgr

/-- `Communications_Manager::fd_disable_out` -/
def fdDisableOut (ctl : Bool) (mgr : CommunicationsManager) (c : Sending) : Bool × Sending :=
  c.fdSetOut false ctl mgr

-- ============================================================================
-- Sending
-- ============================================================================

/-- The first half of `Connection::send`: the stream gets into the queue. -/
def push (s : Stream) (c : Sending) : Sending :=
  { c with sendQueue := c.sendQueue ++ [{ s with pos := 0 }] }

/-- The second half of `Connection::send`: nobody looks at the manager's result. -/
def requestOut (ctl : Bool) (c : Sending) : Sending :=
  if c.outEnabled then c
  else
    match c.mgr with
    | some mgr => (c.fdEnableOut ctl mgr).2
    | none => { c with outEnabled := true }

/-- `Connection::send` -/
def send (ctl : Bool) (s : Stream) (c : Sending) : Sending := (c.push s).requestOut ctl

/-- `mgr->fd_disable_out (this)` in `data_out`, which does not test `mgr`. -/
def disableOut (ctl : Bool) (c : Sending) : Except SendFault Sending :=
  match c.mgr with
  | some mgr => .ok (c.fdDisableOut ctl mgr).2
  | none => .error .noManager

/-- `write (fd, stream_pointer (s), stream_remaining_length (s))`, of which the first `count`
    bytes are accepted, and the `stream_seek` behind them. -/
def writeOut (count : Nat) : StreamM (List UInt8) := do
  let bs ← pointerBytes (← get).remainingLength
  seek ((← tell) + count)
  pure (bs.take count)

/-- The front of the queue after a write: it is freed when nothing is left of it. -/
def advance (ctl : Bool) (s : Stream) (queue : List Stream) (c : Sending) :
    Except SendFault Sending :=
  if s.remainingLength = 0 then
    let c := { c with sendQueue := queue }
    if queue = [] then c.disableOut ctl else .ok c
  else .ok { c with sendQueue := s :: queue }

/-- `Connection::data_out`; the result says whether the connection stays open, and which
    bytes the socket has accepted. -/
def dataOut (ctl : Bool) (result : WriteResult) (c : Sending) :
    Except SendFault (Bool × List UInt8 × Sending) :=
  match c.sendQueue with
  | [] => do
      let c ← c.disableOut ctl
      pure (true, [], c)
  | s :: queue =>
      match result with
      | .accepted 0 => .ok (false, [], c)
      | .accepted count =>
          match writeOut count s with
          | .error fault => .error (.stream fault)
          | .ok (bs, s) => do
              let c ← c.advance ctl s queue
              pure (true, bs, c)
      | .error retry => .ok (retry, [], c)

-- ============================================================================
-- Runs
-- ============================================================================

/-- The bytes that the socket has not accepted yet. -/
def unsent (c : Sending) : List UInt8 := (c.sendQueue.map rest).flatten

/-- What `write` may return: where there is something to write, it accepts some of the bytes
    or asks to try again (`EAGAIN`, `EWOULDBLOCK`, `EINTR`). -/
def MayAnswer (c : Sending) : WriteResult → Prop
  | .accepted count => ∀ s ∈ c.sendQueue.head?, 1 ≤ count ∧ count ≤ s.remainingLength
  | .error retry => retry = true

/-- The calls, with the streams that are sent and the bytes that the socket accepts; `ctl` is
    the answer of `epoll_ctl`. -/
inductive SendEvent where
  | send (ctl : Bool) (s : Stream)
  | dataOut (ctl : Bool) (accepted : List UInt8)
  | mainLoop

/-- A call on a connection.  A stream holds a message of at least one byte. -/
inductive Step (c : Sending) : SendEvent → Sending → Prop where
  | send {ctl : Bool} {s : Stream} (hne : 0 < s.length) (hcap : s.length ≤ s.capacity) :
      Step c (.send ctl s) (c.send ctl s)
  | dataOut {ctl stays : Bool} {result : WriteResult} {bs : List UInt8} {c' : Sending}
      (hanswer : c.MayAnswer result) (h : c.dataOut ctl result = .ok (stays, bs, c')) :
      Step c (.dataOut ctl bs) c'
  | mainLoop : Step c .mainLoop c.mainLoop

/-- The message that a call sends. -/
def SendEvent.sent : SendEvent → List UInt8
  | .send _ s => s.bytes
  | _ => []

/-- What the socket accepts in a call. -/
def SendEvent.accepted : SendEvent → List UInt8
  | .dataOut _ bs => bs
  | _ => []

/-- Whether `epoll_ctl` succeeds where it is called. -/
def SendEvent.ctl : SendEvent → Bool
  | .send ctl _ => ctl
  | .dataOut ctl _ => ctl
  | .mainLoop => true

/-- A new connection that was given to a manager. -/
def attached (epfd : Bool) : Sending := addPolledFd epfd {}

-- ============================================================================
-- The flag and the epoll instance
-- ============================================================================

/-- The events of the file descriptor are those that the connection asks for. -/
def Synced (c : Sending) : Prop := ∀ out, c.mgr = some (.polling out) → out = c.outEnabled

/-- Polling for output was switched, and nothing else. -/
structure Switched (ctl out : Bool) (c c' : Sending) : Prop where
  queue : c'.sendQueue = c.sendQueue
  enabled : c'.outEnabled = out
  managed : c'.mgr ≠ none
  synced : ctl = true → c.Synced → c'.Synced

theorem switched_fdSetOut (out ctl : Bool) (mgr : CommunicationsManager) (c : Sending) :
    Switched ctl out c (c.fdSetOut out ctl mgr).2 := by
  refine ⟨rfl, rfl, nofun, fun hctl _ => ?_⟩
  intro out' hout
  cases mgr with
  | idle => cases hout
  | polling old =>
      rw [hctl] at hout
      cases hout
      rfl

theorem switched_requestOut (ctl : Bool) {c : Sending} (h : c.mgr ≠ none) :
    Switched ctl true c (c.requestOut ctl) := by
  rw [requestOut]
  by_cases hout : c.outEnabled = true
  · rw [if_pos hout]
    exact ⟨rfl, hout, h, fun _ hsynced => hsynced⟩
  · rw [if_neg hout]
    obtain ⟨mgr, hmgr⟩ := Option.ne_none_iff_exists'.mp h
    rw [hmgr]
    exact switched_fdSetOut true ctl mgr c

theorem switched_disableOut (ctl : Bool) {c : Sending} (h : c.mgr ≠ none) :
    ∃ c', c.disableOut ctl = .ok c' ∧ Switched ctl false c c' := by
  obtain ⟨mgr, hmgr⟩ := Option.ne_none_iff_exists'.mp h
  rw [disableOut, hmgr]
  exact ⟨_, rfl, switched_fdSetOut false ctl mgr c⟩

-- ============================================================================
-- What a call does
-- ============================================================================

/-- Something is left of every stream in the queue. -/
def Leftover (c : Sending) : Prop := ∀ s ∈ c.sendQueue, s.pos < s.length ∧ s.length ≤ s.capacity

theorem Leftover.push {c : Sending} (h : c.Leftover) {s : Stream} (hne : 0 < s.length)
    (hcap : s.length ≤ s.capacity) :
    (c.push s).Leftover ∧ (c.push s).unsent = c.unsent ++ s.bytes := by
  constructor
  · intro t ht
    rcases List.mem_append.mp ht with ht | ht
    · exact h t ht
    · rw [List.mem_singleton] at ht
      subst ht
      exact ⟨hne, hcap⟩
  · rw [unsent, Sending.push, List.map_append, List.flatten_append]
    simp [unsent, rest, bytes]

/-- The queue is empty when everything was accepted. -/
theorem Leftover.unsent_eq_nil {c : Sending} (h : c.Leftover) :
    c.unsent = [] ↔ c.sendQueue = [] := by
  constructor
  · intro hnil
    rw [unsent, List.flatten_eq_nil_iff] at hnil
    apply List.eq_nil_iff_forall_not_mem.mpr
    intro s hs
    obtain ⟨hpos, hcap⟩ := h s hs
    have hlen := congrArg List.length (hnil s.rest (List.mem_map_of_mem hs))
    rw [length_rest hcap, List.length_nil] at hlen
    omega
  · intro hnil
    rw [unsent, hnil]
    rfl

/-- Something is left of every stream in the queue, and the flag says whether there is one. -/
structure Ordered (c : Sending) : Prop where
  managed : c.mgr ≠ none
  queue : ∀ s ∈ c.sendQueue, s.pos < s.length ∧ s.length ≤ s.capacity
  enabled : c.outEnabled = true ↔ c.sendQueue ≠ []

theorem ordered_attached (epfd : Bool) : (attached epfd).Ordered :=
  ⟨nofun, nofun, by simp [attached, addPolledFd]⟩

theorem synced_attached (epfd : Bool) : (attached epfd).Synced := by
  intro out hout
  cases epfd with
  | false => cases hout
  | true =>
      cases hout
      rfl

/-- The socket gets the first bytes of what is left of the stream. -/
theorem run_writeOut {s : Stream} {count : Nat} (hpos : s.pos < s.length)
    (hcap : s.length ≤ s.capacity) :
    writeOut count s = .ok (s.rest.take count, { s with pos := s.pos + count }) := by
  have hpointer : pointerBytes s.remainingLength s = .ok (s.rest, s) := by
    have hend : s.pos + (s.length - s.pos) = s.length := by omega
    rw [pointerBytes, remainingLength, if_neg (by omega), if_pos (by rw [hend]; exact ⟨le_rfl, hcap⟩),
      rest, bytes, List.drop_take]
  have hget : (get : StreamM Stream) s = .ok (s, s) := rfl
  rw [writeOut, run_bind hget, run_bind hpointer]
  rfl

/-- What a write does to the bytes that are left: the socket has got the first ones. -/
theorem flatten_rest_advance {s : Stream} (hcap : s.length ≤ s.capacity) (queue : List Stream)
    (count : Nat) :
    s.rest.take count ++ ((if remainingLength { s with pos := s.pos + count } = 0 then queue
        else { s with pos := s.pos + count } :: queue).map rest).flatten =
      s.rest ++ (queue.map rest).flatten := by
  have hleft : remainingLength { s with pos := s.pos + count } = s.remainingLength - count :=
    Nat.sub_add_eq s.length s.pos count
  rw [hleft]
  by_cases hend : s.remainingLength - count = 0
  · -- the whole stream is out
    have htake : s.rest.take count = s.rest := by
      apply List.take_of_length_le
      rw [length_rest hcap, ← remainingLength]
      omega
    rw [if_pos hend, htake]
  · -- the stream goes on where the socket stopped
    have hdrop : rest { s with pos := s.pos + count } = s.rest.drop count := by
      rw [rest, rest, List.drop_drop]
      rfl
    rw [if_neg hend, List.map_cons, List.flatten_cons, hdrop, ← List.append_assoc,
      List.take_append_drop]

theorem Ordered.send {c : Sending} (h : c.Ordered) (ctl : Bool) {s : Stream}
    (hne : 0 < s.length) (hcap : s.length ≤ s.capacity) :
    (c.send ctl s).Ordered ∧ (c.send ctl s).unsent = c.unsent ++ s.bytes ∧
      (ctl = true → c.Synced → (c.send ctl s).Synced) := by
  have hpush : (c.push s).mgr ≠ none := h.managed
  obtain ⟨hleft, hunsent⟩ := Leftover.push h.queue hne hcap
  obtain ⟨hqueue, henabled, hmanaged, hsynced⟩ := switched_requestOut ctl hpush
  rw [← Sending.send] at hqueue henabled hmanaged hsynced
  refine ⟨⟨hmanaged, ?_, ?_⟩, ?_, fun hctl hs => hsynced hctl hs⟩
  · rw [hqueue]
    exact hleft
  · rw [henabled, hqueue, push]
    simp
  · rw [unsent, hqueue]
    exact hunsent

theorem Ordered.disableOut {c : Sending} (h : c.mgr ≠ none) (hnil : c.sendQueue = []) (ctl : Bool) :
    ∃ c', c.disableOut ctl = .ok c' ∧ c'.Ordered ∧ c'.unsent = [] ∧
      (ctl = true → c.Synced → c'.Synced) := by
  obtain ⟨c', hrun, hqueue, henabled, hmanaged, hsynced⟩ := switched_disableOut ctl h
  rw [hnil] at hqueue
  refine ⟨c', hrun, ⟨hmanaged, ?_, ?_⟩, ?_, hsynced⟩
  · rw [hqueue]
    exact nofun
  · rw [henabled, hqueue]
    simp
  · rw [unsent, hqueue]
    rfl

/-- After a write the front of the queue goes on behind what was accepted, or it is done. -/
theorem Ordered.advance {c : Sending} (h : c.Ordered) {s : Stream} {queue : List Stream}
    (hqueue : c.sendQueue = s :: queue) (ctl : Bool) (count : Nat) :
    ∃ c', c.advance ctl { s with pos := s.pos + count } queue = .ok c' ∧ c'.Ordered ∧
      s.rest.take count ++ c'.unsent = c.unsent ∧ (ctl = true → c.Synced → c'.Synced) := by
  obtain ⟨hs, hcap⟩ := h.queue s (by rw [hqueue]; exact List.mem_cons_self)
  have htail : ∀ t ∈ queue, t.pos < t.length ∧ t.length ≤ t.capacity := by
    intro t ht
    apply h.queue
    rw [hqueue]
    exact List.mem_cons_of_mem s ht
  have hflag : c.outEnabled = true := h.enabled.mpr (by rw [hqueue]; exact List.cons_ne_nil s queue)
  have hunsent : c.unsent = s.rest ++ (queue.map rest).flatten := by
    rw [unsent, hqueue]
    rfl
  have hrest := flatten_rest_advance hcap queue count
  rw [Sending.advance, hunsent, ← hrest]
  by_cases hend : remainingLength { s with pos := s.pos + count } = 0
  · -- the whole stream is out
    rw [if_pos hend, if_pos hend]
    by_cases hnil : queue = []
    · subst hnil
      obtain ⟨c', hrun, hordered, hempty, hsynced⟩ :=
        Ordered.disableOut (c := { c with sendQueue := [] }) h.managed rfl ctl
      exact ⟨c', hrun, hordered, by rw [hempty]; rfl, hsynced⟩
    · exact ⟨{ c with sendQueue := queue }, if_neg hnil,
        ⟨h.managed, htail, ⟨fun _ => hnil, fun _ => hflag⟩⟩, rfl, fun _ hs => hs⟩
  · -- the stream goes on where the socket stopped
    rw [if_neg hend, if_neg hend]
    refine ⟨{ c with sendQueue := { s with pos := s.pos + count } :: queue }, rfl,
      ⟨h.managed, ?_, ⟨fun _ => List.cons_ne_nil _ _, fun _ => hflag⟩⟩, rfl, fun _ hs => hs⟩
    intro t ht
    rcases List.mem_cons.mp ht with rfl | ht
    · have hpos : s.length - (s.pos + count) ≠ 0 := hend
      exact ⟨by show s.pos + count < s.length; omega, hcap⟩
    · exact htail t ht

/-- An event never asks to close the connection. -/
theorem Ordered.dataOut {c : Sending} (h : c.Ordered) (ctl : Bool) {result : WriteResult}
    (hanswer : c.MayAnswer result) :
    ∃ bs c', c.dataOut ctl result = .ok (true, bs, c') ∧ c'.Ordered ∧ bs ++ c'.unsent = c.unsent ∧
      (ctl = true → c.Synced → c'.Synced) := by
  cases hqueue : c.sendQueue with
  | nil =>
      obtain ⟨c', hrun, hordered, hempty, hsynced⟩ := Ordered.disableOut h.managed hqueue ctl
      refine ⟨[], c', ?_, hordered, ?_, hsynced⟩
      · rw [Sending.dataOut, hqueue]
        show (do let c ← c.disableOut ctl; pure (true, [], c)) = _
        rw [hrun]
        rfl
      · rw [hempty, Leftover.unsent_eq_nil h.queue |>.mpr hqueue]
        rfl
  | cons s queue =>
      cases result with
      | accepted count =>
          obtain ⟨hpos, -⟩ := hanswer s (by rw [hqueue]; rfl)
          obtain ⟨n, rfl⟩ : ∃ n, count = n + 1 := ⟨count - 1, by omega⟩
          obtain ⟨hs, hcap⟩ := h.queue s (by rw [hqueue]; exact List.mem_cons_self)
          obtain ⟨c', hrun, hrest⟩ := h.advance hqueue ctl (n + 1)
          refine ⟨s.rest.take (n + 1), c', ?_, hrest⟩
          simp only [Sending.dataOut, hqueue, run_writeOut hs hcap, hrun]
          rfl
      | error retry =>
          have hretry : retry = true := hanswer
          refine ⟨[], c, ?_, h, rfl, fun _ hs => hs⟩
          rw [Sending.dataOut, hqueue, hretry]

theorem Ordered.mainLoop {c : Sending} (h : c.Ordered) :
    c.mainLoop.Ordered ∧ c.mainLoop.unsent = c.unsent ∧ (c.Synced → c.mainLoop.Synced) := by
  rw [Sending.mainLoop]
  split
  · refine ⟨⟨nofun, h.queue, h.enabled⟩, rfl, fun _ out hout => ?_⟩
    cases hout
    rfl
  · exact ⟨h, rfl, fun hs => hs⟩

-- ============================================================================
-- Whole runs
-- ============================================================================

/-- What holds after every call, with what was sent and accepted until then. -/
structure Sound (es : List SendEvent) (c : Sending) : Prop where
  ordered : c.Ordered
  bytes : es.flatMap SendEvent.accepted ++ c.unsent = es.flatMap SendEvent.sent
  synced : (∀ e ∈ es, e.ctl = true) → c.Synced

theorem Sound.step {es : List SendEvent} {c c' : Sending} {e : SendEvent} (h : Sound es c)
    (he : Step c e c') : Sound (es ++ [e]) c' := by
  have hlog : ∀ f : SendEvent → List UInt8, (es ++ [e]).flatMap f = es.flatMap f ++ f e := by
    intro f
    rw [List.flatMap_append, List.flatMap_singleton]
  have hctl : (∀ e' ∈ es ++ [e], e'.ctl = true) → e.ctl = true ∧ c.Synced := fun hall =>
    ⟨hall e (by simp), h.synced fun e' he' => hall e' (List.mem_append_left _ he')⟩
  cases he with
  | @send ctl s hne hcap =>
      obtain ⟨hordered, hunsent, hsynced⟩ := h.ordered.send ctl hne hcap
      refine ⟨hordered, ?_, fun hall => hsynced (hctl hall).1 (hctl hall).2⟩
      rw [hlog, hlog, hunsent, ← h.bytes]
      simp [SendEvent.accepted, SendEvent.sent]
  | @dataOut ctl stays result bs c' hanswer hrun =>
      obtain ⟨bs', c'', hrun', hordered, hunsent, hsynced⟩ := h.ordered.dataOut ctl hanswer
      rw [hrun] at hrun'
      cases hrun'
      refine ⟨hordered, ?_, fun hall => hsynced (hctl hall).1 (hctl hall).2⟩
      rw [hlog, hlog, ← h.bytes, ← hunsent]
      simp [SendEvent.accepted, SendEvent.sent]
  | mainLoop =>
      obtain ⟨hordered, hunsent, hsynced⟩ := h.ordered.mainLoop
      refine ⟨hordered, ?_, fun hall => hsynced (hctl hall).2⟩
      rw [hlog, hlog, hunsent, ← h.bytes]
      simp [SendEvent.accepted, SendEvent.sent]

theorem Sound.of_trace {epfd : Bool} {es : List SendEvent} {c : Sending}
    (h : Lts.Trace Step (attached epfd) es c) : Sound es c := by
  refine h.invariant_log Sound ?_ fun hsound he => hsound.step he
  exact ⟨ordered_attached epfd, rfl, fun _ => synced_attached epfd⟩

/-- In every run the socket gets the messages whole and in the order in which they were sent,
    no call fails or asks to close the connection, and output is polled for as long as there is
    something to write. -/
theorem sent_in_order {epfd : Bool} {es : List SendEvent} {c : Sending}
    (h : Lts.Trace Step (attached epfd) es c) :
    es.flatMap SendEvent.accepted ++ c.unsent = es.flatMap SendEvent.sent ∧
      (c.outEnabled = true ↔ c.unsent ≠ []) ∧
      ((∀ e ∈ es, e.ctl = true) → ∀ out, c.mgr = some (.polling out) → (out = true ↔ c.unsent ≠ [])) ∧
      ∀ ctl result, c.MayAnswer result → ∃ bs c', c.dataOut ctl result = .ok (true, bs, c') := by
  have hsound := Sound.of_trace h
  have henabled : c.outEnabled = true ↔ c.unsent ≠ [] := by
    rw [hsound.ordered.enabled, ne_eq, ne_eq, Leftover.unsent_eq_nil hsound.ordered.queue]
  refine ⟨hsound.bytes, henabled, ?_, ?_⟩
  · intro hctl out hout
    rw [hsound.synced hctl out hout]
    exact henabled
  · intro ctl result hanswer
    obtain ⟨bs, c', hrun, -⟩ := hsound.ordered.dataOut ctl hanswer
    exact ⟨bs, c', hrun⟩

/-- A connection after a message of three bytes of which two went out. -/
def halfway : Sending := ⟨[⟨[1, 2, 3], 2, 3⟩], true, some (.polling true)⟩

/-- A message goes out in parts. -/
theorem sent_in_order_halfway :
    [1, 2] ++ halfway.unsent = [1, 2, 3] ∧ (halfway.outEnabled = true ↔ halfway.unsent ≠ []) ∧
      (∀ out, halfway.mgr = some (.polling out) → (out = true ↔ halfway.unsent ≠ [])) ∧
      ∀ ctl result, halfway.MayAnswer result →
        ∃ bs c', halfway.dataOut ctl result = .ok (true, bs, c') := by
  have hsend : Step (attached true) (.send true (.ofBytes [1, 2, 3]))
      ((attached true).send true (.ofBytes [1, 2, 3])) := .send (by decide) (by decide)
  have hanswer : ((attached true).send true (.ofBytes [1, 2, 3])).MayAnswer (.accepted 2) := by
    intro s hs
    cases hs
    decide
  have hwrite : Step ((attached true).send true (.ofBytes [1, 2, 3])) (.dataOut true [1, 2])
      halfway := .dataOut hanswer rfl
  have hrun := (Lts.Trace.nil.snoc hsend).snoc hwrite
  obtain ⟨hbytes, hflag, hpolled, hopen⟩ := sent_in_order hrun
  exact ⟨hbytes, hflag, hpolled (by decide), hopen⟩

end Sending

end Tclm.Comm
