/-
  Tclm.Server.Exchange

  A request and what the daemon says to it, as messages.

  `Exchange` is a request with all replies that it brings about, each with the connection
  that it goes out on.  For the processes of well-behaved clients, which wait for the end
  of a call before the next one, it says what becomes of each of them: the one whose
  request it is (`Exchange.acquireLock` and so on) and the others (`Exchange.other_idle`,
  `Exchange.other_waiting`).
-/

import Tclm.Server.Grants
import Tclm.Server.Shares

open Tclm.Comm
open Tclm.Comm.Stream

namespace Tclm.Comm

/-- The process that a request is made for. -/
def Request.process : Request → Option UInt32
  | .registerProcess _ => none
  | .unregisterProcess id => some id
  | .createLock pid _ _ | .acquireLock pid _ _ | .releaseLock pid _ _ => some pid

/-- The process that a reply is for, or that it announces. -/
def Reply.process : Reply → Option UInt32
  | .registered _ _ id => id
  | .unregistered _ _ => none
  | .createUpdate pid _ _ | .acquireUpdate pid _ _ _ | .released pid _ _ _ => some pid

/-- The process of a request for a lock. -/
def Request.lockProcess : Request → Option UInt32
  | .registerProcess _ | .unregisterProcess _ => none
  | .createLock pid _ _ | .acquireLock pid _ _ | .releaseLock pid _ _ => some pid

theorem Request.process_of_lockProcess {q : Request} {pid : UInt32}
    (h : q.lockProcess = some pid) : q.process = some pid := by
  cases q with
  | registerProcess | unregisterProcess => cases h
  | createLock | acquireLock | releaseLock => exact h

/-- The reply to a request for a lock. -/
def Request.reply : Request → UInt16 → Reply
  | .registerProcess nonce, status => .registered nonce status none
  | .unregisterProcess id, status => .unregistered id status
  | .createLock pid path _, status => .createUpdate pid path status
  | .acquireLock pid path mode, status => .acquireUpdate pid path mode status
  | .releaseLock pid path mode, status => .released pid path mode status

/-- The nonce of a registration. -/
def Request.nonce : Request → Option UInt32
  | .registerProcess nonce => some nonce
  | _ => none

def Reply.nonce : Reply → Option UInt32
  | .registered nonce _ _ => some nonce
  | _ => none

/-- The process that is unregistered. -/
def Request.leaver : Request → Option UInt32
  | .unregisterProcess id => some id
  | _ => none

def Reply.leaver : Reply → Option UInt32
  | .unregistered id _ => some id
  | _ => none

end Tclm.Comm

namespace Tclm.Server

-- ============================================================================
-- Requests for locks
-- ============================================================================

/-- A path and a mode. -/
abbrev HeldLock := LockPath × UInt8

/-- The lock that a request gives back. -/
def gives : Request → Multiset HeldLock
  | .releaseLock _ path mode => {(splitPath path, mode)}
  | _ => 0

/-- The lock that the process of a request has got when it is answered with the status. -/
def gains : Request → UInt16 → Multiset HeldLock
  | .createLock _ path true, status =>
      if status = ResponseStatus.success ∨ status = ResponseStatus.lockExists then
        {(splitPath path, Mode.X.toByte)}
      else 0
  | .acquireLock _ path mode, status =>
      if status = ResponseStatus.success then {(splitPath path, mode)} else 0
  | _, _ => 0

/-- A status that the last reply to a request of a registered process can have. -/
def Final : Request → UInt16 → Prop
  | .createLock _ _ true, status =>
      status = ResponseStatus.success ∨ status = ResponseStatus.lockExists
  | .createLock _ _ false, status => status = ResponseStatus.success ∨
      status = ResponseStatus.lockExists ∨ status = ResponseStatus.parentNotHeld
  | .acquireLock _ _ _, status =>
      status = ResponseStatus.success ∨ status = ResponseStatus.noSuchLock
  | .releaseLock _ _ _, status =>
      status = ResponseStatus.success ∨ status = ResponseStatus.lockNotHeld
  | _, _ => False

/-- The ticket of a request that waits. -/
def Queues : Request → Ticket → Prop
  | .createLock _ path true, t =>
      t.createMissing = true ∧ t.claim.path = splitPath path ∧ t.claim.mode = Mode.X.toByte
  | .acquireLock _ path mode, t =>
      t.createMissing = false ∧ t.claim.path = splitPath path ∧ t.claim.mode = mode
  | _, _ => False

-- ============================================================================
-- Tickets
-- ============================================================================

namespace Ticket

/-- The update for a request with the ticket. -/
def reply (pid : UInt32) (t : Ticket) (status : UInt16) : Reply :=
  if t.createMissing then .createUpdate pid (Daemon.joinPath t.claim.path) status
  else .acquireUpdate pid (Daemon.joinPath t.claim.path) t.claim.mode status

/-- A status that an update for a request with the ticket can have. -/
def Final (t : Ticket) (status : UInt16) : Prop :=
  if t.createMissing then status = ResponseStatus.success ∨ status = ResponseStatus.lockExists
  else status = ResponseStatus.success ∨ status = ResponseStatus.noSuchLock

/-- The lock that a process has got when its update has this status. -/
def gains (t : Ticket) (status : UInt16) : Multiset HeldLock :=
  if t.createMissing ∨ status = ResponseStatus.success then {(t.claim.path, t.claim.mode)} else 0

end Ticket

namespace Daemon

theorem update_eq_reply (pid : UInt32) (r : LockRequest) :
    update pid r = r.ticket.reply pid (updateStatus r) := rfl

theorem final_updateStatus {r : LockRequest} : r.ticket.Final (updateStatus r) := by
  rw [Ticket.Final, show r.ticket.createMissing = r.createMissing from rfl, updateStatus]
  by_cases hcreate : r.createMissing = true
  · rw [if_pos hcreate, if_pos hcreate]
    split
    · exact .inl rfl
    · exact .inr rfl
  · rw [if_neg hcreate, if_neg hcreate]
    split
    · exact .inl rfl
    · exact .inr rfl

theorem gains_updateStatus {r : LockRequest}
    (hcreate : r.createMissing = true → r.acquireStatus = .acquired) :
    r.ticket.gains (updateStatus r) =
      if r.acquireStatus = .acquired then {(r.path, r.mode)} else 0 := by
  have hgains : r.ticket.createMissing = true ∨ updateStatus r = ResponseStatus.success ↔
      r.acquireStatus = .acquired := by
    show r.createMissing = true ∨ _ ↔ _
    by_cases hc : r.createMissing = true
    · exact ⟨fun _ => hcreate hc, fun _ => .inl hc⟩
    · rw [updateStatus, if_neg hc]
      by_cases hacq : r.acquireStatus = .acquired
      · rw [if_pos hacq]
        exact ⟨fun _ => hacq, fun _ => .inr rfl⟩
      · rw [if_neg hacq]
        exact ⟨fun h => h.elim (fun h => absurd h hc) (fun h => absurd h (by decide)),
          fun h => absurd h hacq⟩
  by_cases hacq : r.acquireStatus = .acquired
  · rw [if_pos hacq, Ticket.gains, if_pos (hgains.mpr hacq)]
    rfl
  · rw [if_neg hacq, Ticket.gains, if_neg fun h => hacq (hgains.mp h)]

-- ============================================================================
-- Exchanges
-- ============================================================================

/-- The updates for answered requests, with the connections they go out on. -/
def updates (d : Daemon) (requests : List LockRequest) : List (Conn × Reply) :=
  requests.filterMap fun r =>
    (d.requester r).bind fun p => (d.tcpConn p.object).map fun c => (c, update p.id r)

/-- The daemon takes a request from a connection.  The requests that it answers are notified
    in any order. -/
inductive Exchange (d : Daemon) (c : Conn) (q : Request) : List (Conn × Reply) → Daemon → Prop where
  | mk {env : Env} {r : Reply} {answered : Finset LockRequest} {d' : Daemon}
      {requests : List LockRequest} (hrespond : d.respond env c q = .ok (r, answered, d'))
      (hnodup : requests.Nodup) (hrequests : requests.toFinset = answered) :
      Exchange d c q ((c, r) :: d'.updates requests) d'

/-- The packet is a message for the connection. -/
def Carries (p : Packet) (x : Conn × Reply) : Prop := p.1 = x.1 ∧ Sends p.2 x.2

theorem updates_of_notify {env : Env} (hhost : env.host = .little) (hup : ∀ c, env.up c = true)
    {d : Daemon} {requests : List LockRequest} (hshort : ∀ r ∈ requests, r.Short) :
    ∀ {heaps : Nat → Heap} {sent : List Packet}, (∀ i, (heaps i).Ample) →
      d.notifyAnsweredRequests env heaps requests = .ok sent →
      List.Forall₂ Carries sent (d.updates requests) := by
  induction requests with
  | nil =>
      intro heaps sent _ h
      cases h
      exact .nil
  | cons r requests ih =>
      intro heaps sent hheaps h
      obtain ⟨first, hfirst, h⟩ := bind_eq_ok.mp h
      obtain ⟨more, hmore, h⟩ := bind_eq_ok.mp h
      cases h
      have hrest := ih (fun x hx => hshort x (List.mem_cons_of_mem r hx)) (fun i => hheaps (i + 1))
        hmore
      cases hp : d.requester r with
      | none =>
          rw [notify, hp] at hfirst
          cases hfirst
          simpa [updates, hp] using hrest
      | some p =>
          cases hc : d.tcpConn p.object with
          | none =>
              simp only [notify, hp, hc] at hfirst
              cases hfirst
              simpa [updates, hp, hc] using hrest
          | some c =>
              obtain ⟨s, hrun, hsends⟩ :=
                notify_spec hhost (hheaps 0) (hshort r List.mem_cons_self).joined hp hc (hup c)
              rw [hrun] at hfirst
              cases hfirst
              have hone : d.updates (r :: requests) = (c, update p.id r) :: d.updates requests := by
                simp [updates, hp, hc]
              rw [hone]
              exact .cons ⟨rfl, hsends⟩ hrest

theorem wellFormed_updates {d : Daemon} {requests : List LockRequest}
    (hshort : ∀ r ∈ requests, r.Short) : ∀ x ∈ d.updates requests, x.2.WellFormed := by
  intro x hx
  obtain ⟨r, hr, hx⟩ := List.mem_filterMap.mp hx
  obtain ⟨p, -, hx⟩ := Option.bind_eq_some_iff.mp hx
  obtain ⟨c, -, rfl⟩ := Option.map_eq_some_iff.mp hx
  exact wellFormed_update p.id (hshort r hr).joined

/-- What the daemon does with the message of a request is an exchange. -/
theorem exchange_of_delivers {env : Env} (hcalm : Calm env) (hhost : env.host = .little) {c : Conn}
    {d d' : Daemon} (hd : Reachable d) {q : Request} (hpath : q.path.length ≤ maxPathLength)
    {input : Stream} (hinput : input.Carries q.message) {sent : List Packet}
    (h : Delivers env d c input sent d') :
    ∃ rs, Exchange d c q rs d' ∧ List.Forall₂ Carries sent rs ∧ ∀ x ∈ rs, x.2.WellFormed := by
  obtain ⟨replies, answered, requests, updates, hreceive, hnodup, hrequests, hnotify, rfl⟩ := h
  have hanswers := receiveMessageInternal_spec hhost hcalm.heap c d hpath hinput
  cases hrespond : d.respond env c q with
  | error fault =>
      rw [hrespond] at hanswers
      have heq : Except.ok (replies, answered, d') = Except.error _ := hreceive.symm.trans hanswers
      cases heq
  | ok x =>
      obtain ⟨r, answered', d''⟩ := x
      rw [hrespond] at hanswers
      obtain ⟨s, hreceive', hsends⟩ := hanswers
      obtain ⟨rfl, rfl, rfl⟩ : replies = [(c, s)] ∧ answered = answered' ∧ d' = d'' := by
        have heq := Except.ok.inj (hreceive.symm.trans hreceive')
        exact ⟨congrArg (·.1) heq, congrArg (·.2.1) heq, congrArg (·.2.2) heq⟩
      have hshort : ∀ x ∈ requests, x.Short := fun x hx =>
        (short_of_receive hreceive hd.short).2 x (hrequests ▸ List.mem_toFinset.mpr hx)
      refine ⟨_, .mk hrespond hnodup hrequests, ?_, ?_⟩
      · exact .cons ⟨rfl, hsends⟩ (updates_of_notify hhost hcalm.up hshort hcalm.heaps hnotify)
      · intro x hx
        rcases List.mem_cons.mp hx with rfl | hx
        · exact wellFormed_respond hpath hrespond
        · exact wellFormed_updates hshort x hx

/-- With enough memory every exchange is made. -/
theorem delivers_of_exchange {c : Conn} {d d' : Daemon} (hd : Reachable d) {q : Request}
    {rs : List (Conn × Reply)} (hpath : q.path.length ≤ maxPathLength) {input : Stream}
    (hinput : input.Carries q.message) (h : Exchange d c q rs d') :
    ∃ env sent, Calm env ∧ env.host = .little ∧ Delivers env d c input sent d' ∧
      List.Forall₂ Carries sent rs ∧ ∀ x ∈ rs, x.2.WellFormed := by
  obtain @⟨env, r, answered, _, requests, hrespond, hnodup, hrequests⟩ := h
  have hcalm : Calm { Env.plain with fuel := env.fuel } :=
    ⟨calm_plain.up, calm_plain.heap, calm_plain.heaps⟩
  have hanswers : Answers (d.receiveMessageInternal { Env.plain with fuel := env.fuel } c input) c
      (d.respond { Env.plain with fuel := env.fuel } c q) :=
    receiveMessageInternal_spec rfl hcalm.heap c d hpath hinput
  have hsame : d.respond { Env.plain with fuel := env.fuel } c q = d.respond env c q := by
    cases q with
    | registerProcess | unregisterProcess | createLock | acquireLock | releaseLock => rfl
  rw [hsame, hrespond] at hanswers
  obtain ⟨s, hreceive, hsends⟩ := hanswers
  have hshort : ∀ x ∈ requests, x.Short := fun x hx =>
    (short_of_receive hreceive hd.short).2 x (hrequests ▸ List.mem_toFinset.mpr hx)
  obtain ⟨updates, hnotify⟩ := notifyAnsweredRequests_ok { Env.plain with fuel := env.fuel } d'
    hshort hcalm.heaps
  refine ⟨_, (c, s) :: updates, hcalm, rfl,
    ⟨_, answered, requests, updates, hreceive, hnodup, hrequests, hnotify, rfl⟩,
    .cons ⟨rfl, hsends⟩ (updates_of_notify rfl hcalm.up hshort hcalm.heaps hnotify), ?_⟩
  intro x hx
  rcases List.mem_cons.mp hx with rfl | hx
  · exact wellFormed_respond hpath hrespond
  · exact wellFormed_updates hshort x hx

-- ============================================================================
-- The standing of a process
-- ============================================================================

/-- What the daemon knows of a process: its locks, its requests and its connection. -/
structure Standing where
  held : Multiset HeldLock
  waits : Multiset Ticket
  conn : Option Conn

def standing (d : Daemon) (pid : UInt32) : Option Standing :=
  (d.backend.processes.lookup pid).map fun p =>
    ⟨d.backend.forest.holdings p.object, d.backend.forest.waits p.object, d.tcpConn p.object⟩

theorem standing_eq_some {d : Daemon} {pid : UInt32} {st : Standing} :
    d.standing pid = some st ↔ ∃ p, d.backend.processes.lookup pid = some p ∧
      d.backend.forest.holdings p.object = st.held ∧ d.backend.forest.waits p.object = st.waits ∧
      d.tcpConn p.object = st.conn := by
  rw [standing, Option.map_eq_some_iff]
  refine exists_congr fun p => and_congr_right fun _ => ?_
  constructor
  · rintro rfl
    exact ⟨rfl, rfl, rfl⟩
  · rintro ⟨h₁, h₂, h₃⟩
    rw [h₁, h₂, h₃]

theorem standing_of_lookup {d : Daemon} {pid : UInt32} {p : Process}
    (hp : d.backend.processes.lookup pid = some p) :
    d.standing pid = some ⟨d.backend.forest.holdings p.object, d.backend.forest.waits p.object,
      d.tcpConn p.object⟩ := by
  rw [standing, hp]
  rfl

theorem standing_eq_none {d : Daemon} {pid : UInt32} :
    d.standing pid = none ↔ d.backend.processes.lookup pid = none := Option.map_eq_none_iff

/-- The replies about a process. -/
def about (pid : UInt32) (rs : List (Conn × Reply)) : List (Conn × Reply) :=
  rs.filter fun x => x.2.process = some pid

theorem about_cons (pid : UInt32) (x : Conn × Reply) (rs : List (Conn × Reply)) :
    about pid (x :: rs) = if x.2.process = some pid then x :: about pid rs else about pid rs := by
  rw [about, List.filter_cons]
  simp only [decide_eq_true_eq]
  rfl

-- ============================================================================
-- The connection of a process
-- ============================================================================

theorem issuer_operation (q : Request) : (operation q).issuer = q.process := by
  cases q with
  | registerProcess | unregisterProcess | createLock | acquireLock | releaseLock => rfl

section Respond

variable {env : Env} {c : Conn} {d d' : Daemon} {q : Request} {r : Reply}
  {answered : Finset LockRequest}

/-- A new process gets the next id, unless there is one with it. -/
theorem respond_registerProcess {nonce : UInt32}
    (h : d.respond env c (.registerProcess nonce) = .ok (r, answered, d')) :
    answered = ∅ ∧
      ((r = .registered nonce ResponseStatus.tooManyProcesses none ∧ d' = d) ∨
        (d.backend.processes.lookup d.backend.nextId = none ∧
          r = .registered nonce ResponseStatus.success (some d.backend.nextId) ∧
          d' = ⟨{ d.backend with
              processes := d.backend.processes.insert
                (d.backend.nextId, ⟨d.backend.nextProcess, d.backend.nextId, SortedList.empty⟩)
              nextId := d.backend.nextId + 1
              nextProcess := d.backend.nextProcess + 1 },
            Function.update d.tcpConn d.backend.nextProcess (some c)⟩)) := by
  rw [respond, Backend.registerProcess] at h
  cases hfree : d.backend.processes.lookup d.backend.nextId with
  | some p =>
      rw [hfree] at h
      cases h
      exact ⟨rfl, .inl ⟨rfl, rfl⟩⟩
  | none =>
      rw [hfree] at h
      cases h
      refine ⟨rfl, .inr ⟨rfl, rfl, ?_⟩⟩
      rw [updatePidConnection, SortedMap.lookup_insert_self hfree]

/-- The process of a request gets the connection that the request came on. -/
theorem tcpConn_respond (h : d.respond env c q = .ok (r, answered, d')) {pid : UInt32}
    (hq : q.process = some pid) : d'.tcpConn = (d.updatePidConnection pid c).tcpConn := by
  cases q with
  | registerProcess => cases hq
  | unregisterProcess | createLock | acquireLock | releaseLock =>
      cases hq
      obtain ⟨x, -, h⟩ := bind_eq_ok.mp h
      cases h
      rfl

theorem tcpConn_respond_self (h : d.respond env c q = .ok (r, answered, d')) {pid : UInt32}
    (hq : q.process = some pid) {p : Process} (hp : d.backend.processes.lookup pid = some p) :
    d'.tcpConn p.object = some c := by
  rw [tcpConn_respond h hq, tcpConn_updatePidConnection hp, Function.update_self]

/-- The connections of the other processes stay. -/
theorem tcpConn_respond_other (h : d.respond env c q = .ok (r, answered, d')) {x : ProcessRef}
    (hold : x < d.backend.nextProcess)
    (hne : ∀ pid p, q.process = some pid → d.backend.processes.lookup pid = some p →
      p.object ≠ x) : d'.tcpConn x = d.tcpConn x := by
  cases hq : q.process with
  | some pid =>
      rw [tcpConn_respond h hq]
      cases hp : d.backend.processes.lookup pid with
      | none => rw [updatePidConnection, hp]
      | some p =>
          rw [tcpConn_updatePidConnection hp, Function.update_of_ne (hne pid p hq hp).symm]
  | none =>
      cases q with
      | unregisterProcess | createLock | acquireLock | releaseLock => cases hq
      | registerProcess nonce =>
          obtain ⟨-, ⟨-, rfl⟩ | ⟨-, -, rfl⟩⟩ := respond_registerProcess h
          · rfl
          · exact Function.update_of_ne (Nat.ne_of_lt hold) _ _

/-- The direct reply is about the process of the request, or announces a new one. -/
theorem process_respond (h : d.respond env c q = .ok (r, answered, d')) {pid : UInt32}
    (hr : r.process = some pid) :
    q.process = some pid ∨ ((∃ nonce, q = .registerProcess nonce ∧
      r = .registered nonce ResponseStatus.success (some pid)) ∧
      d.backend.processes.lookup pid = none) := by
  cases q with
  | unregisterProcess =>
      obtain ⟨x, -, h⟩ := bind_eq_ok.mp h
      cases h
      cases hr
  | createLock | acquireLock | releaseLock =>
      obtain ⟨x, -, h⟩ := bind_eq_ok.mp h
      cases h
      exact .inl hr
  | registerProcess nonce =>
      obtain ⟨-, ⟨rfl, -⟩ | ⟨hfree, rfl, -⟩⟩ := respond_registerProcess h
      · cases hr
      · cases hr
        exact .inr ⟨⟨nonce, rfl, rfl⟩, hfree⟩

end Respond

-- ============================================================================
-- The updates about a process
-- ============================================================================

theorem process_update (pid : UInt32) (r : LockRequest) : (update pid r).process = some pid := by
  rw [update]
  split
  · rfl
  · rfl

/-- A process is told of its own requests. -/
theorem about_updates {d : Daemon} (hd : Reachable d) {pid : UInt32} {p : Process}
    (hp : d.backend.processes.lookup pid = some p) {c : Conn} (hc : d.tcpConn p.object = some c)
    (requests : List LockRequest) :
    about pid (d.updates requests) =
      (requests.filter fun r => r.requester = p.object).map fun r => (c, update pid r) := by
  have hid : p.id = pid := hd.backend.registry.id_eq pid p hp
  induction requests with
  | nil => rfl
  | cons r requests ih =>
      by_cases hr : r.requester = p.object
      · have hreq : d.requester r = some p := requester_eq hd hp hr.symm
        have hone : d.updates (r :: requests) = (c, update pid r) :: d.updates requests := by
          simp [updates, hreq, hc, hid]
        rw [hone, about_cons, if_pos (process_update pid r), ih, List.filter_cons_of_pos (by simpa)]
        rfl
      · rw [List.filter_cons_of_neg (by simpa), ← ih]
        cases hreq : d.requester r with
        | none => simp [updates, hreq]
        | some p' =>
            obtain ⟨hlookup, hobj⟩ := lookup_of_requester hd hreq
            have hne : p'.id ≠ pid := by
              intro heq
              rw [heq, hp] at hlookup
              cases hlookup
              exact hr hobj.symm
            cases hc' : d.tcpConn p'.object with
            | none => simp [updates, hreq, hc']
            | some c' =>
                have hone : d.updates (r :: requests) = (c', update p'.id r) :: d.updates requests := by
                  simp [updates, hreq, hc']
                rw [hone, about_cons, if_neg]
                rw [process_update]
                exact fun heq => hne (Option.some.inj heq)

/-- An id without a process is told nothing. -/
theorem about_updates_none {d : Daemon} (hd : Reachable d) {pid : UInt32}
    (hp : d.backend.processes.lookup pid = none) (requests : List LockRequest) :
    about pid (d.updates requests) = [] := by
  rw [about, List.filter_eq_nil_iff]
  intro x hx
  obtain ⟨r, -, hx⟩ := List.mem_filterMap.mp hx
  obtain ⟨p, hreq, hx⟩ := Option.bind_eq_some_iff.mp hx
  obtain ⟨c, -, rfl⟩ := Option.map_eq_some_iff.mp hx
  obtain ⟨hlookup, -⟩ := lookup_of_requester hd hreq
  rw [process_update, decide_eq_true_eq]
  intro heq
  rw [Option.some.inj heq, hp] at hlookup
  cases hlookup

-- ============================================================================
-- Exchanges and runs
-- ============================================================================

section Exchange

variable {d d' : Daemon} {c : Conn} {q : Request} {rs : List (Conn × Reply)}

/-- The message of the request can come in. -/
theorem Exchange.reachable (h : Exchange d c q rs d') (hd : Reachable d)
    (hpath : q.path.length ≤ maxPathLength) : Reachable d' := by
  obtain @⟨env, r, answered, _, requests, hrespond, -, -⟩ := h
  have hplain : d.respond { Env.plain with fuel := env.fuel } c q = .ok (r, answered, d') := by
    rw [← hrespond]
    cases q with
    | registerProcess | unregisterProcess | createLock | acquireLock | releaseLock => rfl
  have hinput := carries_ofBytes (Request.fits hpath)
  have hanswers : Answers (d.receiveMessageInternal { Env.plain with fuel := env.fuel } c _) c
      (d.respond { Env.plain with fuel := env.fuel } c q) :=
    receiveMessageInternal_spec rfl Heap.ample_zeros c d hpath hinput
  rw [hplain] at hanswers
  obtain ⟨s, hreceive, -⟩ := hanswers
  obtain ⟨sent, hsent⟩ := notifyAnsweredRequests_ok { Env.plain with fuel := env.fuel } d'
    (fun x hx => (short_of_receive hreceive hd.short).2 x (Finset.mem_toList.mp hx))
    fun _ => Heap.ample_zeros
  exact hd.next (e := ⟨_, c, _, _⟩) ⟨_, answered, answered.toList, sent, hreceive,
    answered.nodup_toList, answered.toList_toFinset, hsent, rfl⟩

/-- No process that is not there yet has anything. -/
def Unborn (d : Daemon) : Prop :=
  ∀ x, d.backend.nextProcess ≤ x → d.backend.forest.waits x = 0 ∧ d.backend.forest.holdings x = 0

/-- The process that a request is made for waits for nothing. -/
def Ready (d : Daemon) (q : Request) : Prop :=
  ∀ pid st, q.process = some pid → d.standing pid = some st → st.waits = 0

/-- What an exchange is for a process that is not in the request: it stays registered with its
    connection, and is told of its answered requests. -/
theorem Exchange.other (h : Exchange d c q rs d') (hd : Reachable d) (hd' : Reachable d')
    (hready : d.Ready q) {pid : UInt32} (hne : q.process ≠ some pid) {p : Process}
    (hp : d.backend.processes.lookup pid = some p) {k : Conn} (hk : d.tcpConn p.object = some k) :
    ∃ (p' : Process) (res : Backend.Result) (requests : List LockRequest),
      d'.backend.processes.lookup pid = some p' ∧ p'.object = p.object ∧
      d'.tcpConn p.object = some k ∧
      about pid rs =
        (requests.filter fun r => r.requester = p.object).map (fun r => (k, update pid r)) ∧
      requests.Nodup ∧ Backend.Step d.backend ⟨operation q, res, requests.toFinset⟩ d'.backend ∧
      Backend.Settles d.backend d'.backend requests.toFinset p.object := by
  have hdistinct := hd.backend.registry.distinct
  have hother : ∀ id p₁, q.process = some id → d.backend.processes.lookup id = some p₁ →
      p₁.object ≠ p.object := by
    intro id p₁ hq hp₁ heq
    obtain rfl : id = pid := hdistinct.unique hp₁ hp heq
    exact hne hq
  obtain @⟨env, r, answered, _, requests, hrespond, hnodup, rfl⟩ := h
  obtain ⟨res, hrun, -⟩ := step_of_respond hrespond
  have hstep : Backend.Step d.backend ⟨operation q, res, requests.toFinset⟩ d'.backend :=
    ⟨env.fuel, hrun⟩
  obtain ⟨p', hp', hobj⟩ := hstep.registered hp fun hop => hne (by
    rw [← issuer_operation, show operation q = .unregisterProcess pid from hop]
    rfl)
  have htcp : d'.tcpConn p.object = some k := by
    rw [tcpConn_respond_other hrespond (hdistinct.issued hp) hother, hk]
  refine ⟨p', res, requests, hp', hobj, htcp, ?_, hnodup, hstep, ?_⟩
  · rw [about_cons, if_neg, about_updates hd' hp' (by rw [hobj]; exact htcp), hobj]
    -- the direct reply is about another process
    intro hr
    rcases process_respond hrespond hr with hq | ⟨-, hnone⟩
    · exact hne hq
    · rw [hp] at hnone
      cases hnone
  · refine hstep.settles hd.backend.forest_sound hd.backend.ticketed fun id p₁ hissuer hp₁ => ?_
    rw [issuer_operation] at hissuer
    exact ⟨hother id p₁ hissuer hp₁, hready id _ hissuer (standing_of_lookup hp₁)⟩

/-- A process that waits for nothing and is not in the request is left alone. -/
theorem Exchange.other_idle (h : Exchange d c q rs d') (hd : Reachable d) (hd' : Reachable d')
    (hready : d.Ready q) {pid : UInt32} (hne : q.process ≠ some pid)
    {held : Multiset HeldLock} {k : Conn} (hst : d.standing pid = some ⟨held, 0, some k⟩) :
    d'.standing pid = some ⟨held, 0, some k⟩ ∧ about pid rs = [] := by
  obtain ⟨p, hp, hheld, hwaits, hk⟩ := standing_eq_some.mp hst
  obtain ⟨p', res, requests, hp', hobj, hk', habout, -, -, hsettles⟩ :=
    h.other hd hd' hready hne hp hk
  obtain ⟨hleft, hkept, hnone⟩ := hsettles.of_none hwaits
  refine ⟨standing_eq_some.mpr ⟨p', hp', ?_, ?_, ?_⟩, ?_⟩
  · rw [hobj, hkept, hheld]
  · rw [hobj, hleft]
  · rw [hobj, hk']
  · rw [habout, List.filter_eq_nil_iff.mpr, List.map_nil]
    intro r hr
    rw [decide_eq_true_eq]
    exact hnone r (List.mem_toFinset.mpr hr)

/-- A process that waits and is not in the request waits on, or it is told that its request was
    answered, and has got what the update says. -/
theorem Exchange.other_waiting (h : Exchange d c q rs d') (hd : Reachable d) (hd' : Reachable d')
    (hready : d.Ready q) {pid : UInt32} (hne : q.process ≠ some pid)
    {held : Multiset HeldLock} {t : Ticket} {k : Conn}
    (hst : d.standing pid = some ⟨held, {t}, some k⟩) :
    (d'.standing pid = some ⟨held, {t}, some k⟩ ∧ about pid rs = []) ∨
    ∃ status, t.Final status ∧ d'.standing pid = some ⟨held + t.gains status, 0, some k⟩ ∧
      about pid rs = [(k, t.reply pid status)] := by
  obtain ⟨p, hp, hheld, hwaits, hk⟩ := standing_eq_some.mp hst
  obtain ⟨p', res, requests, hp', hobj, hk', habout, hnodup, hstep, hsettles⟩ :=
    h.other hd hd' hready hne hp hk
  rcases hsettles.of_one hwaits with ⟨hleft, hkept, hnone⟩ | ⟨r, hr, hreq, rfl, honly, hleft, hgot⟩
  · refine .inl ⟨standing_eq_some.mpr ⟨p', hp', ?_, ?_, ?_⟩, ?_⟩
    · rw [hobj, hkept, hheld]
    · rw [hobj, hleft]
    · rw [hobj, hk']
    · rw [habout, List.filter_eq_nil_iff.mpr, List.map_nil]
      intro r hr
      rw [decide_eq_true_eq]
      exact hnone r (List.mem_toFinset.mpr hr)
  · have hcreate := fun hc => hstep.acquired_of_create hd.backend.forest_sound hr hc
    refine .inr ⟨updateStatus r, final_updateStatus, ?_, ?_⟩
    · refine standing_eq_some.mpr ⟨p', hp', ?_, ?_, ?_⟩
      · rw [hobj, hgot, hheld, gains_updateStatus hcreate]
      · rw [hobj, hleft]
      · rw [hobj, hk']
    · have hfilter : requests.filter (fun r => r.requester = p.object) = [r] := by
        have hone : ∀ r', r' ∈ requests.filter (fun r => r.requester = p.object) ↔ r' = r := by
          intro r'
          rw [List.mem_filter, decide_eq_true_eq]
          constructor
          · exact fun ⟨hr', hreq'⟩ => honly r' (List.mem_toFinset.mpr hr') hreq'
          · rintro rfl
            exact ⟨List.mem_toFinset.mp hr, hreq⟩
        exact List.perm_singleton.mp
          ((List.perm_ext_iff_of_nodup (hnodup.filter _) (List.nodup_singleton r)).mpr fun r' => by
            rw [hone, List.mem_singleton])
      rw [habout, hfilter, List.map_singleton, update_eq_reply]

-- ============================================================================
-- The process of the request
-- ============================================================================

/-- The standing of a process after a request that was granted, queued or refused. -/
theorem standing_of_entry {b : Backend} {p p' : Process} {ret : AcquireStatus} {r : LockRequest}
    (hreq : r.requester = p.object) (hobj : p'.object = p.object)
    (hwaits : d.backend.forest.waits p.object = 0)
    (hweigh : ∀ {M : Type} [AddCancelCommMonoid M] (w : Weights M),
      b.forest.weigh w = Lock.entry w ret r + d.backend.forest.weigh w) :
    b.forest.holdings p'.object =
        d.backend.forest.holdings p.object + (if ret = .acquired then {(r.path, r.mode)} else 0) ∧
      b.forest.waits p'.object = if ret = .queued then {r.ticket} else 0 := by
  have hheld : (Weights.heldBy p.object).held r.claim = {(r.path, r.mode)} := if_pos hreq
  have hqueued : (Weights.waitsOf p.object).queued r.ticket = {r.ticket} := if_pos hreq
  have hholdings := hweigh (.heldBy p.object)
  have hqueue := hweigh (.waitsOf p.object)
  change b.forest.holdings p.object = _ + d.backend.forest.holdings p.object at hholdings
  change b.forest.waits p.object = _ + d.backend.forest.waits p.object at hqueue
  rw [hobj, hholdings, hqueue, hwaits, add_zero, add_comm]
  cases ret with
  | acquired => exact ⟨by rw [Lock.entry, hheld, if_pos rfl], rfl⟩
  | queued => exact ⟨rfl, by rw [Lock.entry, hqueued, if_pos rfl]⟩
  | nonExistent => exact ⟨rfl, rfl⟩

/-- The status code for the result of an operation. -/
def statusFor : Backend.Result → UInt16
  | .registered id =>
      if id.isSome then ResponseStatus.success else ResponseStatus.tooManyProcesses
  | .unregistered res => res.status
  | .created res => res.status
  | .acquired res => res.status
  | .released res => res.status

/-- What an exchange is for the process of a request for a lock: it gets the reply, on the
    connection of the request. -/
theorem Exchange.issuer (h : Exchange d c q rs d') (hd' : Reachable d') {pid : UInt32}
    (hlock : q.lockProcess = some pid) {p : Process} (hp : d.backend.processes.lookup pid = some p) :
    ∃ (fuel : Nat) (res : Backend.Result) (answered : Finset LockRequest) (p' : Process),
      d.backend.step fuel (operation q) = .ok (res, answered, d'.backend) ∧
      d'.backend.processes.lookup pid = some p' ∧ p'.object = p.object ∧
      d'.tcpConn p.object = some c ∧
      ((∀ r ∈ answered, r.requester ≠ p.object) → about pid rs = [(c, q.reply (statusFor res))]) := by
  obtain @⟨env, r, answered, _, requests, hrespond, hnodup, hrequests⟩ := h
  have htcp := tcpConn_respond_self hrespond (Request.process_of_lockProcess hlock) hp
  have hres : ∃ res, d.backend.step env.fuel (operation q) = .ok (res, answered, d'.backend) ∧
      r = q.reply (statusFor res) := by
    cases q with
    | registerProcess | unregisterProcess => cases hlock
    | createLock | acquireLock | releaseLock =>
        obtain ⟨x, hrun, h⟩ := bind_eq_ok.mp hrespond
        rw [backend_updatePidConnection] at hrun
        cases h
        exact ⟨_, bind_eq_ok.mpr ⟨x, hrun, rfl⟩, rfl⟩
  obtain ⟨res, hrun, rfl⟩ := hres
  have hstep : Backend.Step d.backend ⟨operation q, res, answered⟩ d'.backend := ⟨_, hrun⟩
  obtain ⟨p', hp', hobj⟩ := hstep.registered hp fun hop => by
    cases q with
    | registerProcess | unregisterProcess => cases hlock
    | createLock | acquireLock | releaseLock => cases hop
  refine ⟨env.fuel, res, answered, p', hrun, hp', hobj, htcp, fun hnone => ?_⟩
  have hreply : (q.reply (statusFor res)).process = some pid := by
    cases q with
    | registerProcess | unregisterProcess => cases hlock
    | createLock | acquireLock | releaseLock => exact hlock
  rw [about_cons, if_pos hreply, about_updates hd' hp' (by rw [hobj]; exact htcp), hobj,
    List.filter_eq_nil_iff.mpr, List.map_nil]
  intro r hr
  rw [decide_eq_true_eq]
  exact hnone r (hrequests ▸ List.mem_toFinset.mpr hr)

/-- A process that waits for nothing makes a request for a lock.  It waits for the lock then,
    or it is told what it has got. -/
theorem Exchange.own (h : Exchange d c q rs d') (hd : Reachable d) (hd' : Reachable d')
    {pid : UInt32} (hlock : q.lockProcess = some pid) {held : Multiset HeldLock}
    {conn : Option Conn} (hst : d.standing pid = some ⟨held, 0, conn⟩) :
    ∃ status, about pid rs = [(c, q.reply status)] ∧
      ((status = ResponseStatus.queued ∧
          ∃ t, Queues q t ∧ d'.standing pid = some ⟨held, {t}, some c⟩) ∨
        (Final q status ∧
          d'.standing pid = some ⟨held - gives q + gains q status, 0, some c⟩)) := by
  obtain ⟨p, hp, rfl, hwaits, -⟩ := standing_eq_some.mp hst
  change d.backend.forest.waits p.object = 0 at hwaits
  obtain ⟨fuel, res, answered, p', hrun, hp', hobj, hconn, habout⟩ := h.issuer hd' hlock hp
  rw [← hobj] at hconn
  have hstanding : ∀ {held waits}, d'.backend.forest.holdings p'.object = held →
      d'.backend.forest.waits p'.object = waits → d'.standing pid = some ⟨held, waits, some c⟩ :=
    fun hheld hwaits => standing_eq_some.mpr ⟨p', hp', hheld, hwaits, hconn⟩
  cases q with
  | registerProcess | unregisterProcess => cases hlock
  | acquireLock pid' path mode =>
      cases hlock
      obtain ⟨⟨res, b⟩, hacquire, hpure⟩ := bind_eq_ok.mp hrun
      cases hpure
      obtain ⟨r, ret, hsame, rfl, hweigh⟩ := Backend.acquireLock_weigh hacquire hp
      obtain ⟨hheld, hqueue⟩ := standing_of_entry hsame.requester hobj hwaits hweigh
      refine ⟨_, habout fun r hr => absurd hr (Finset.notMem_empty r), ?_⟩
      rw [show gives (.acquireLock pid path mode) = 0 from rfl, tsub_zero]
      cases ret with
      | acquired =>
          refine .inr ⟨.inl rfl, hstanding ?_ hqueue⟩
          rw [hheld, hsame.path, hsame.mode]
          rfl
      | nonExistent =>
          exact .inr ⟨.inr rfl, hstanding hheld hqueue⟩
      | queued =>
          refine .inl ⟨rfl, r.ticket, ⟨hsame.createMissing, hsame.path, hsame.mode⟩, hstanding ?_ hqueue⟩
          rw [hheld]
          exact add_zero _
  | createLock pid' path acquireX =>
      cases hlock
      obtain ⟨⟨res, b⟩, hcreate, hpure⟩ := bind_eq_ok.mp hrun
      cases hpure
      refine ⟨_, habout fun r hr => absurd hr (Finset.notMem_empty r), ?_⟩
      rw [show gives (.createLock pid path acquireX) = 0 from rfl, tsub_zero]
      cases acquireX with
      | true =>
          obtain ⟨r, ret, hsame, hres, hweigh⟩ := Backend.createLock_weigh hcreate hp
          obtain ⟨hheld, hqueue⟩ := standing_of_entry hsame.requester hobj hwaits hweigh
          rcases hres with ⟨rfl, rfl⟩ | ⟨rfl, hres⟩
          · refine .inl ⟨rfl, r.ticket, ⟨hsame.createMissing, hsame.path, hsame.mode⟩,
              hstanding ?_ hqueue⟩
            rw [hheld]
            exact add_zero _
          · rw [if_pos rfl, hsame.path, hsame.mode] at hheld
            rcases hres with rfl | rfl
            · exact .inr ⟨.inl rfl, hstanding hheld hqueue⟩
            · exact .inr ⟨.inr rfl, hstanding hheld hqueue⟩
      | false =>
          obtain ⟨hqueued, hprocess, hweigh⟩ := Backend.createLock_notHeld_weigh hcreate hp
          have hheld := hweigh (.heldBy p'.object)
          have hqueue := hweigh (.waitsOf p'.object)
          change d'.backend.forest.holdings p'.object = d.backend.forest.holdings p'.object at hheld
          change d'.backend.forest.waits p'.object = d.backend.forest.waits p'.object at hqueue
          rw [hobj] at hheld hqueue
          refine .inr ⟨?_, hstanding (by rw [hobj, hheld]; exact (add_zero _).symm)
            (by rw [hobj, hqueue, hwaits])⟩
          cases res with
          | created => exact .inl rfl
          | «exists» => exact .inr (.inl rfl)
          | parentNotHeld => exact .inr (.inr rfl)
          | queued => exact absurd rfl hqueued
          | noSuchProcess => exact absurd rfl hprocess
  | releaseLock pid' path mode =>
      cases hlock
      obtain ⟨⟨res, answered', b⟩, hrelease, hpure⟩ := bind_eq_ok.mp hrun
      cases hpure
      rw [show gives (.releaseLock pid path mode) = {(splitPath path, mode)} from rfl]
      rcases Backend.releaseLock_weigh hd.backend.forest_sound hd.backend.ticketed hrelease hp
        hwaits with ⟨rfl, hweigh⟩ | ⟨rfl, rfl, hsame, hclaim⟩
      · have hheld := hweigh (.heldBy p.object)
        have hqueue := hweigh (.waitsOf p.object)
        have hone : (Weights.heldBy p.object).held ⟨p.object, mode, splitPath path⟩ =
          {(splitPath path, mode)} := if_pos rfl
        rw [show d.backend.forest.weigh (.waitsOf p.object) = 0 from hwaits, Weights.waitsOf_gained,
          add_zero] at hqueue
        obtain ⟨hleft, hspent⟩ := add_eq_zero.mp hqueue.symm
        have hnone := Weights.requester_ne_of_spent hspent
        rw [Weights.gained_heldBy_of_notMem hnone, Weights.heldBy_spent, add_zero, add_zero, hone]
          at hheld
        change d.backend.forest.holdings p.object = _ + d'.backend.forest.holdings p.object at hheld
        refine ⟨_, habout hnone, .inr ⟨.inl rfl, hstanding ?_ ?_⟩⟩
        · rw [hheld, add_tsub_cancel_left, hobj]
          exact (add_zero _).symm
        · rw [hobj]
          exact (add_eq_zero.mp hleft).2
      · refine ⟨_, habout fun r hr => absurd hr (Finset.notMem_empty r), .inr ⟨.inr rfl, ?_⟩⟩
        have hmem : (splitPath path, mode) ∉ d.backend.forest.holdings p.object := fun hmem =>
          hclaim (LockForest.mem_claims_of_mem_holdings hmem)
        refine hstanding ?_ (by rw [hobj, hsame, hwaits])
        rw [hobj, hsame, Multiset.sub_singleton, Multiset.erase_of_notMem hmem]
        exact (add_zero _).symm

-- ============================================================================
-- Processes come and go
-- ============================================================================

/-- A process that is unregistered is gone. -/
theorem Exchange.unregister {pid : UInt32} (h : Exchange d c (.unregisterProcess pid) rs d')
    (hd' : Reachable d') : d'.standing pid = none ∧ about pid rs = [] := by
  obtain @⟨env, r, answered, _, requests, hrespond, -, -⟩ := h
  obtain ⟨⟨res, as, b⟩, hrun, hpure⟩ := bind_eq_ok.mp hrespond
  cases hpure
  have hgone : b.processes.lookup pid = none := by
    rcases Backend.unregisterProcess_spec hrun with ⟨hnone, -, -, rfl⟩ | ⟨b₁, p, -, -, -, -, rfl⟩
    · exact hnone
    · exact SortedMap.lookup_erase_self
  refine ⟨standing_eq_none.mpr hgone, ?_⟩
  rw [about_cons, if_neg fun heq => by cases heq]
  exact about_updates_none hd' hgone requests

/-- An id that the request does not name stays free, or a new process gets it. -/
theorem Exchange.absent (h : Exchange d c q rs d') (hd' : Reachable d') (hunborn : d.Unborn)
    {pid : UInt32} (hne : q.process ≠ some pid) (hst : d.standing pid = none) :
    (d'.standing pid = none ∧ about pid rs = []) ∨
    ∃ nonce, q = .registerProcess nonce ∧ d'.standing pid = some ⟨0, 0, some c⟩ ∧
      about pid rs = [(c, .registered nonce ResponseStatus.success (some pid))] := by
  rw [standing_eq_none] at hst
  obtain @⟨env, r, answered, _, requests, hrespond, hnodup, hrequests⟩ := h
  have hgone : d'.backend.processes.lookup pid = none → r.process ≠ some pid →
      d'.standing pid = none ∧ about pid ((c, r) :: d'.updates requests) = [] := by
    intro hnone hr
    refine ⟨standing_eq_none.mpr hnone, ?_⟩
    rw [about_cons, if_neg hr]
    exact about_updates_none hd' hnone requests
  cases hq : q.process with
  | some id =>
      refine .inl (hgone ?_ fun hr => ?_)
      · obtain ⟨res, hrun, -⟩ := step_of_respond hrespond
        have hstep : Backend.Step d.backend ⟨operation q, res, answered⟩ d'.backend := ⟨_, hrun⟩
        by_contra hsome
        obtain ⟨p', hp'⟩ := Option.ne_none_iff_exists'.mp hsome
        obtain ⟨p, hp, -⟩ := hstep.registered_before (fun hop => by
          rw [← issuer_operation, show operation q = .registerProcess from hop] at hq
          cases hq) hp'
        rw [hst] at hp
        cases hp
      · rcases process_respond hrespond hr with hq' | ⟨⟨nonce, rfl, -⟩, -⟩
        · exact hne hq'
        · cases hq
  | none =>
      cases q with
      | unregisterProcess | createLock | acquireLock | releaseLock => cases hq
      | registerProcess nonce =>
          obtain ⟨rfl, ⟨rfl, rfl⟩ | ⟨hfree, rfl, rfl⟩⟩ := respond_registerProcess hrespond
          · exact .inl (hgone hst fun hr => by cases hr)
          · obtain rfl := List.toFinset_eq_empty_iff _ |>.mp hrequests
            by_cases hid : pid = d.backend.nextId
            · subst hid
              obtain ⟨hwaits, hheld⟩ := hunborn _ le_rfl
              refine .inr ⟨nonce, rfl, ?_, ?_⟩
              · exact standing_eq_some.mpr ⟨_, SortedMap.lookup_insert_self hfree, hheld, hwaits,
                  Function.update_self ..⟩
              · have hself : (Reply.registered nonce ResponseStatus.success
                    (some d.backend.nextId)).process = some d.backend.nextId := rfl
                rw [about_cons, if_pos hself]
                rfl
            · exact .inl (hgone ((SortedMap.lookup_insert_ne hfree hid).trans hst) fun hr =>
                hid (Option.some.inj hr).symm)

/-- Nobody has anything before he is there. -/
theorem Exchange.unborn (h : Exchange d c q rs d') (hd : Reachable d) (hready : d.Ready q)
    (hunborn : d.Unborn) : d'.Unborn := by
  obtain @⟨env, r, answered, _, requests, hrespond, -, -⟩ := h
  obtain ⟨res, hrun, -⟩ := step_of_respond hrespond
  have hstep : Backend.Step d.backend ⟨operation q, res, answered⟩ d'.backend := ⟨_, hrun⟩
  have hnext : d.backend.nextProcess ≤ d'.backend.nextProcess := by
    refine Backend.Step.invariant (fun b => d.backend.nextProcess ≤ b.nextProcess) hstep le_rfl ?_ ?_
    · intro b₁ op res answered b₂ _ hle hmove
      cases hmove with
      | register => exact Nat.le_succ_of_le hle
      | idle | tick | enter | add | release => exact hle
    · intro b₁ id p _ _ _ hle
      exact hle
  intro x hx
  have hold : d.backend.nextProcess ≤ x := Nat.le_trans hnext hx
  have hsettles : Backend.Settles d.backend d'.backend answered x :=
    hstep.settles hd.backend.forest_sound hd.backend.ticketed fun pid p hissuer hp => by
      rw [issuer_operation] at hissuer
      have hissued := hd.backend.registry.distinct.issued hp
      exact ⟨Nat.ne_of_lt (Nat.lt_of_lt_of_le hissued hold),
        hready pid _ hissuer (standing_of_lookup hp)⟩
  obtain ⟨hwaits, hheld⟩ := hunborn x hold
  obtain ⟨hwaits', hheld', -⟩ := hsettles.of_none hwaits
  exact ⟨hwaits', hheld'.trans hheld⟩

-- ============================================================================
-- The replies on a connection
-- ============================================================================

/-- The replies that go out on a connection. -/
def repliesOn (k : Conn) (rs : List (Conn × Reply)) : List Reply :=
  (rs.filter fun x => x.1 = k).map Prod.snd

theorem repliesOn_cons (k : Conn) (x : Conn × Reply) (rs : List (Conn × Reply)) :
    repliesOn k (x :: rs) = if x.1 = k then x.2 :: repliesOn k rs else repliesOn k rs := by
  rw [repliesOn, List.filter_cons]
  simp only [decide_eq_true_eq]
  split
  · rfl
  · rfl

theorem mem_repliesOn {k : Conn} {rs : List (Conn × Reply)} {r : Reply} :
    r ∈ repliesOn k rs ↔ (k, r) ∈ rs := by
  simp [repliesOn]

theorem filter_repliesOn (pid : UInt32) (k : Conn) (rs : List (Conn × Reply)) :
    (repliesOn k rs).filter (fun r => r.process = some pid) = repliesOn k (about pid rs) := by
  induction rs with
  | nil => rfl
  | cons x rs ih =>
      rw [repliesOn_cons, about_cons]
      by_cases hk : x.1 = k
      · rw [if_pos hk, List.filter_cons, ih]
        by_cases hpid : x.2.process = some pid
        · rw [if_pos (by simpa using hpid), if_pos hpid, repliesOn_cons, if_pos hk]
        · rw [if_neg (by simpa using hpid), if_neg hpid]
      · rw [if_neg hk, ih]
        split
        · rw [repliesOn_cons, if_neg hk]
        · rfl

/-- What only the direct reply says is said on the connection of the request. -/
theorem Exchange.filterMap_repliesOn (h : Exchange d c q rs d') {β : Type} {f : Request → Option β}
    {g : Reply → Option β} (hupdate : ∀ pid r, g (update pid r) = none)
    (hreply : ∀ {env r answered}, d.respond env c q = .ok (r, answered, d') → g r = f q)
    (k : Conn) : (repliesOn k rs).filterMap g = if c = k then (f q).toList else [] := by
  obtain @⟨env, r, answered, _, requests, hrespond, -, -⟩ := h
  have hnone : (repliesOn k (d'.updates requests)).filterMap g = [] := by
    rw [List.filterMap_eq_nil_iff]
    intro r hr
    obtain ⟨x, hx, rfl⟩ := List.mem_map.mp hr
    obtain ⟨r', -, hx⟩ := List.mem_filterMap.mp (List.mem_of_mem_filter hx)
    obtain ⟨p, -, hx⟩ := Option.bind_eq_some_iff.mp hx
    obtain ⟨c', -, rfl⟩ := Option.map_eq_some_iff.mp hx
    exact hupdate p.id r'
  rw [repliesOn_cons]
  by_cases hk : c = k
  · rw [if_pos hk, if_pos hk, List.filterMap_cons, hnone, hreply hrespond]
    cases f q with
    | none | some => rfl
  · rw [if_neg hk, if_neg hk, hnone]

/-- A registration is answered under its nonce. -/
theorem Exchange.nonces (h : Exchange d c q rs d') (k : Conn) :
    (repliesOn k rs).filterMap Reply.nonce = if c = k then q.nonce.toList else [] := by
  refine h.filterMap_repliesOn (fun pid r => ?_) (fun hrespond => ?_) k
  · rw [update]
    split
    · rfl
    · rfl
  · cases q with
    | registerProcess nonce =>
        obtain ⟨-, ⟨rfl, -⟩ | ⟨-, rfl, -⟩⟩ := respond_registerProcess hrespond
        · rfl
        · rfl
    | unregisterProcess | createLock | acquireLock | releaseLock =>
        obtain ⟨x, -, hpure⟩ := bind_eq_ok.mp hrespond
        cases hpure
        rfl

/-- A process that is unregistered is told so. -/
theorem Exchange.leavers (h : Exchange d c q rs d') (k : Conn) :
    (repliesOn k rs).filterMap Reply.leaver = if c = k then q.leaver.toList else [] := by
  refine h.filterMap_repliesOn (fun pid r => ?_) (fun hrespond => ?_) k
  · rw [update]
    split
    · rfl
    · rfl
  · cases q with
    | registerProcess nonce =>
        obtain ⟨-, ⟨rfl, -⟩ | ⟨-, rfl, -⟩⟩ := respond_registerProcess hrespond
        · rfl
        · rfl
    | unregisterProcess | createLock | acquireLock | releaseLock =>
        obtain ⟨x, -, hpure⟩ := bind_eq_ok.mp hrespond
        cases hpure
        rfl

end Exchange

end Daemon

end Tclm.Server
