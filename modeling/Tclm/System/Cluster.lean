/-
  Tclm.System.Cluster

  The daemon and any number of clients, with a channel each way.

  A channel keeps the order of its messages; everything else happens in any order, except
  that a process is used for one call at a time, by one thread or by several that take
  turns: with two calls open at once the second one may find its key taken, and a release
  may withdraw the request of the other call.  For every process the messages about it that are on their way, what its user knows and what
  the daemon knows of it fit together: the process is in one of a few situations (`Seat`),
  at one client only (`Sound.seats`).
-/

import Tclm.Client.Library

open Tclm.Comm
open Tclm.Client
open Tclm.Server

namespace Tclm.System

-- ============================================================================
-- Runs
-- ============================================================================

/-- The clients with their connections, the daemon, and the messages on their way. -/
structure Cluster where
  clients : Conn → Tclmc := fun _ => {}
  daemon : Daemon := {}
  toServer : Conn → List Request := fun _ => []
  toClient : Conn → List Reply := fun _ => []

/-- What happens, and where. -/
inductive ClusterEvent where
  | asked (c : Conn) (pid : UInt32) (q : Request)
  | registering (c : Conn)
  | leaving (c : Conn) (pid : UInt32)
  | served (c : Conn) (q : Request) (rs : List (Conn × Reply))
  | received (c : Conn) (r : Reply)

namespace Cluster

/-- A client does something and sends a request. -/
def sends (s : Cluster) (c : Conn) (client : Tclmc) (q : Request) : Cluster :=
  { s with
    clients := Function.update s.clients c client
    toServer := Function.update s.toServer c (s.toServer c ++ [q]) }

/-- The request of the next registration. -/
def nextRegistration (client : Tclmc) : Request :=
  .registerProcess client.session.ac.registerProcessNextNonce

/-- Users make calls, the daemon takes requests from the channels, and replies come in.  A process
    is used for one call at a time. -/
inductive Step (s : Cluster) : ClusterEvent → Cluster → Prop where
  /-- A call for a process with no other call open. -/
  | ask {c : Conn} {pid : UInt32} {p : ProcessImpl} {q : Request}
      (hp : (s.clients c).processes pid = some p) (hidle : p.call = none)
      (hq : q.lockProcess = some pid) (hoffered : Offered q)
      (hpath : q.path.length ≤ maxPathLength) :
      Step s (.asked c pid q) (s.sends c ((s.clients c).ask pid p q) q)
  | register {c : Conn} :
      Step s (.registering c) (s.sends c (s.clients c).register (nextRegistration (s.clients c)))
  | leave {c : Conn} {pid : UInt32} {p : ProcessImpl} (hp : (s.clients c).processes pid = some p)
      (hidle : p.call = none) :
      Step s (.leaving c pid) (s.sends c ((s.clients c).leave pid) (.unregisterProcess pid))
  | serve {c : Conn} {q : Request} {rest : List Request} {rs : List (Conn × Reply)} {d' : Daemon}
      (hq : s.toServer c = q :: rest) (hserve : s.daemon.Exchange c q rs d') :
      Step s (.served c q rs)
        { s with
          daemon := d'
          toServer := Function.update s.toServer c rest
          toClient := fun k => s.toClient k ++ Daemon.repliesOn k rs }
  | receive {c : Conn} {r : Reply} {rest : List Reply} (hr : s.toClient c = r :: rest) :
      Step s (.received c r)
        { s with
          clients := Function.update s.clients c ((s.clients c).accept r)
          toClient := Function.update s.toClient c rest }

/-- States between two events of a run. -/
def Reachable (s : Cluster) : Prop := Lts.Reachable Step {} s

/-- No message is on its way. -/
structure Silent (s : Cluster) : Prop where
  toServer : ∀ k, s.toServer k = []
  toClient : ∀ k, s.toClient k = []

/-- A step that changes what the clients have in a certain way. -/
def StepWith (P : Daemon → (Conn → Tclmc) → (Conn → Tclmc) → Prop) (s : Cluster)
    (e : ClusterEvent) (s' : Cluster) : Prop :=
  Step s e s' ∧ P s.daemon s.clients s'.clients

end Cluster

-- ============================================================================
-- The situation of a process
-- ============================================================================

/-- The path of the request is written the way the daemon writes it. -/
def Canonical (q : Request) : Prop := Daemon.joinPath (splitPath q.path) = q.path

/-- The replies that say that the request waits. -/
def Early (q : Request) (rs : List Reply) : Prop :=
  rs = [] ∨ (rs = [q.reply ResponseStatus.queued] ∧ ∃ t, Queues q t)

/-- A process with a user: what the user knows, what the process has and waits for, and the
    messages about it. -/
inductive Phase (pid : UInt32) (p : ProcessImpl) (held : Multiset HeldLock)
    (waits : Multiset Ticket) : List Request → List Reply → Prop where
  | idle (hcall : p.call = none) (hheld : held = p.locks) (hwaits : waits = 0) :
      Phase pid p held waits [] []
  /-- The request is on its way. -/
  | asked {h : Handle} {q : Request} (hcall : p.call = some (h, q)) (hlock : q.lockProcess = some pid)
      (hheld : p.locks = held - gives q) (hwaits : waits = 0) : Phase pid p held waits [q] []
  /-- The last reply is on its way. -/
  | told {h : Handle} {q : Request} {status : UInt16} {early : List Reply}
      (hcall : p.call = some (h, q)) (hearly : Early q early) (hfinal : Final q status)
      (hheld : held = p.locks + gains q status) (hwaits : waits = 0) :
      Phase pid p held waits [] (early ++ [q.reply status])
  | waiting {h : Handle} {q : Request} {t : Ticket} {early : List Reply}
      (hcall : p.call = some (h, q)) (hearly : Early q early) (hqueues : Queues q t)
      (hheld : held = p.locks) (hwaits : waits = {t}) : Phase pid p held waits [] early
  /-- The request was answered under another path, and the user waits for ever. -/
  | stuck {h : Handle} {q : Request} {t : Ticket} {status : UInt16} {early late : List Reply}
      (hcall : p.call = some (h, q)) (hearly : Early q early) (hqueues : Queues q t)
      (hodd : ¬ Canonical q) (hheld : held = p.locks + t.gains status) (hwaits : waits = 0)
      (hlate : late = [] ∨ late = [t.reply pid status]) :
      Phase pid p held waits [] (early ++ late)

/-- What one client has of a process: the process itself, and the messages about it. -/
structure View where
  process : Option ProcessImpl
  requests : List Request
  replies : List Reply

/-- A client that has nothing to do with the process. -/
def View.blank : View := ⟨none, [], []⟩

/-- The situations of an id: it is free, its new process is on its way to the user, it has a
    user, or the user has destroyed the process. -/
inductive Seat (pid : UInt32) (k : Conn) : Option Daemon.Standing → View → Prop where
  | free : Seat pid k none .blank
  | coming {nonce : UInt32} : Seat pid k (some ⟨0, 0, some k⟩)
      ⟨none, [], [.registered nonce ResponseStatus.success (some pid)]⟩
  | live {p : ProcessImpl} {held : Multiset HeldLock} {waits : Multiset Ticket}
      {qs : List Request} {rs : List Reply} (hphase : Phase pid p held waits qs rs) :
      Seat pid k (some ⟨held, waits, some k⟩) ⟨some p, qs, rs⟩
  | leaving {held : Multiset HeldLock} :
      Seat pid k (some ⟨held, 0, some k⟩) ⟨none, [.unregisterProcess pid], []⟩

/-- A user never counts on more than his process has. -/
theorem Phase.locks_le {pid : UInt32} {p : ProcessImpl} {held : Multiset HeldLock}
    {waits : Multiset Ticket} {qs : List Request} {rs : List Reply}
    (h : Phase pid p held waits qs rs) : p.locks ≤ held := by
  cases h with
  | idle _ hheld => exact hheld.ge
  | asked _ _ hheld =>
      rw [hheld]
      exact tsub_le_self
  | told _ _ _ hheld => exact hheld ▸ le_self_add
  | waiting _ _ _ hheld => exact hheld.ge
  | stuck _ _ _ _ hheld => exact hheld ▸ le_self_add

-- ============================================================================
-- Requests and their tickets
-- ============================================================================

section Queues

variable {q : Request} {t : Ticket} {status : UInt16}

theorem final_of_queues (hq : Queues q t) (hfinal : t.Final status) : Final q status := by
  cases q with
  | registerProcess | unregisterProcess | releaseLock => cases hq
  | createLock pid path acquireX =>
      cases acquireX with
      | false => cases hq
      | true =>
          rw [Ticket.Final, if_pos hq.1] at hfinal
          exact hfinal
  | acquireLock =>
      rw [Ticket.Final, if_neg (by rw [hq.1]; exact Bool.false_ne_true)] at hfinal
      exact hfinal

theorem gains_of_queues (hq : Queues q t) (hfinal : t.Final status) :
    t.gains status = gains q status := by
  cases q with
  | registerProcess | unregisterProcess | releaseLock => cases hq
  | createLock pid path acquireX =>
      cases acquireX with
      | false => cases hq
      | true =>
          rw [Ticket.Final, if_pos hq.1] at hfinal
          rw [Ticket.gains, if_pos (.inl hq.1), gains, if_pos hfinal, hq.2.1, hq.2.2]
  | acquireLock pid path mode =>
      have hcreate : ¬ t.createMissing = true := by
        rw [hq.1]
        exact Bool.false_ne_true
      have hgains : t.createMissing = true ∨ status = ResponseStatus.success ↔
          status = ResponseStatus.success := or_iff_right hcreate
      simp only [Ticket.gains, gains, hgains, hq.2.1, hq.2.2]

theorem gives_of_queues (hq : Queues q t) : gives q = 0 := by
  cases q with
  | registerProcess | unregisterProcess | createLock | acquireLock => rfl
  | releaseLock => cases hq

theorem path_of_queues (hq : Queues q t) : t.claim.path = splitPath q.path := by
  cases q with
  | registerProcess | unregisterProcess | releaseLock => cases hq
  | createLock pid path acquireX =>
      cases acquireX with
      | false => cases hq
      | true => exact hq.2.1
  | acquireLock => exact hq.2.1

theorem reply_of_queues (hq : Queues q t) {pid : UInt32} (hlock : q.lockProcess = some pid)
    (hcanonical : Canonical q) (status : UInt16) : t.reply pid status = q.reply status := by
  cases q with
  | registerProcess | unregisterProcess | releaseLock => cases hq
  | createLock pid' path acquireX =>
      cases acquireX with
      | false => cases hq
      | true =>
          cases hlock
          rw [Ticket.reply, if_pos hq.1, hq.2.1]
          exact congrArg (Reply.createUpdate pid · status) hcanonical
  | acquireLock pid' path mode =>
      cases hlock
      rw [Ticket.reply, if_neg (by rw [hq.1]; exact Bool.false_ne_true), hq.2.1, hq.2.2]
      exact congrArg (Reply.acquireUpdate pid · mode status) hcanonical

end Queues

/-- A user has one request at a time. -/
theorem Phase.waits_cases {pid : UInt32} {p : ProcessImpl} {held : Multiset HeldLock}
    {waits : Multiset Ticket} {qs : List Request} {rs : List Reply}
    (h : Phase pid p held waits qs rs) : waits = 0 ∨ ∃ t, waits = {t} := by
  cases h with
  | idle _ _ hwaits | asked _ _ _ hwaits | told _ _ _ _ hwaits | stuck _ _ _ _ _ hwaits =>
      exact .inl hwaits
  | waiting _ _ _ _ hwaits => exact .inr ⟨_, hwaits⟩

/-- A request that waits is answered. -/
theorem Phase.update {pid : UInt32} {p : ProcessImpl} {held : Multiset HeldLock} {t : Ticket}
    {qs : List Request} {rs : List Reply} (h : Phase pid p held {t} qs rs)
    (hown : ∀ h q, p.call = some (h, q) → q.lockProcess = some pid) {status : UInt16}
    (hfinal : t.Final status) :
    Phase pid p (held + t.gains status) 0 qs (rs ++ [t.reply pid status]) := by
  have hne : ({t} : Multiset Ticket) ≠ 0 := Multiset.singleton_ne_zero t
  cases h with
  | idle _ _ hwaits | asked _ _ _ hwaits | told _ _ _ _ hwaits | stuck _ _ _ _ _ hwaits =>
      exact absurd hwaits hne
  | @waiting h q t' _ hcall hearly hqueues hheld hwaits =>
      obtain rfl := Multiset.singleton_inj.mp hwaits
      by_cases hcanonical : Canonical q
      · rw [reply_of_queues hqueues (hown h q hcall) hcanonical, hheld]
        exact .told hcall hearly (final_of_queues hqueues hfinal)
          (by rw [gains_of_queues hqueues hfinal]) rfl
      · exact .stuck hcall hearly hqueues hcanonical (by rw [hheld]) rfl (.inr rfl)

namespace Cluster

/-- What a client has of a process. -/
def view (s : Cluster) (pid : UInt32) (c : Conn) : View where
  process := (s.clients c).processes pid
  requests := (s.toServer c).filter fun q => q.process = some pid
  replies := (s.toClient c).filter fun r => r.process = some pid

/-- One client has to do with the process, and the situation there is as it should be. -/
def Seated (s : Cluster) (pid : UInt32) : Prop :=
  ∃ k, Seat pid k (s.daemon.standing pid) (s.view pid k) ∧ ∀ c, c ≠ k → s.view pid c = .blank

/-- What holds in every run. -/
structure Sound (s : Cluster) : Prop where
  daemon : s.daemon.Reachable
  unborn : s.daemon.Unborn
  paths : ∀ c, ∀ q ∈ s.toServer c, q.path.length ≤ maxPathLength
  tidy : ∀ c, (s.clients c).Tidy
  nonces : ∀ c, (s.clients c).session.ac.registerProcessRequests.map Prod.fst =
    (s.toClient c).filterMap Reply.nonce ++ (s.toServer c).filterMap Request.nonce
  leavers : ∀ c, (s.clients c).session.ac.unregisterProcessRequests.map Prod.fst =
    (s.toClient c).filterMap Reply.leaver ++ (s.toServer c).filterMap Request.leaver
  seats : ∀ pid, s.Seated pid

theorem sound_init : Sound {} where
  daemon := ⟨[], .nil⟩
  unborn := fun _ _ => ⟨rfl, rfl⟩
  paths := nofun
  tidy := fun _ => Tclmc.tidy_init
  nonces := fun _ => rfl
  leavers := fun _ => rfl
  seats := fun _ => ⟨0, .free, fun _ _ => rfl⟩

end Cluster

end Tclm.System
