/-
  Tclm.System.Beliefs

  One client, the daemon, and the bytes on their way between them.

  Threads of the client issue requests, the daemon handles the next message, and the
  client handles the next message, in any order.  Every grant of the server is told at
  most once, so the client never believes in more locks than it was granted
  (`believed_le_granted`).  Reads may cut the bytes anywhere, a connection still hands
  over one message after the other, so the channels are cut into messages here.
-/

import Tclm.Client.Beliefs
import Tclm.Server.Grants

open Tclm.Comm
open Tclm.Comm.Stream
open Tclm.Client
open Tclm.Client.Session (believed delivered grants)
open Tclm.Server
open Tclm.Server.Daemon

namespace Tclm.System

/-- The client, the daemon, and the bytes that neither has read yet. -/
structure Network where
  session : Session := {}
  daemon : Daemon := {}
  toServer : List UInt8 := []
  toClient : List UInt8 := []

/-- What happens: an event of the client, or the daemon in its state handles a message. -/
inductive Label where
  | client (e : Client.Event)
  | server (d : Daemon) (env : Env) (input : Stream)

/-- The events of the client. -/
def clientEvents (ls : List Label) : List Client.Event :=
  ls.filterMap fun
    | .client e => some e
    | .server _ _ _ => none

/-- How many acquire requests of the process the forest has granted the lock to. -/
noncomputable def granted (pid : UInt32) (path : LockPath) (mode : UInt8) (ls : List Label) : Nat :=
  (ls.map fun
    | .client _ => 0
    | .server d env input => d.granted env input pid path mode).sum

/-- The keys of the acquire requests of the process for the lock, with all spellings of the
    path. -/
def spellings (pid : UInt32) (path : LockPath) (mode : UInt8) : Key → Bool
  | .acquire pid' s mode' => decide (pid' = pid ∧ splitPath s = path ∧ mode' = mode)
  | _ => false

namespace Network

/-- The client has the connection 0. -/
inductive Step : Network → Label → Network → Prop where
  /-- A thread issues a request. -/
  | issue {n : Network} {heap : Heap} {call : Call} {out : Stream} {ac : AccessConcentrator}
      (hheap : heap.Ample) (hpath : (n.session.ac.request call).path.length ≤ maxPathLength)
      (hissue : n.session.ac.issue .little heap n.session.nextHandle call = .ok (some out, ac)) :
      Step n (.client (.issued n.session.nextHandle call))
        { n with
          session := ⟨ac, n.session.nextHandle + 1⟩
          toServer := n.toServer ++ out.bytes }
  /-- The daemon handles the next message. -/
  | serve {n : Network} {env : Env} {input : Stream} {rest : List UInt8} {sent : List Packet}
      {d' : Daemon} (hcalm : Calm env) (hhost : env.host = .little)
      (hinput : HandsOver n.toServer input rest)
      (hserve : Delivers env n.daemon 0 input sent d') :
      Step n (.server n.daemon env input)
        { n with
          daemon := d'
          toServer := rest
          toClient := n.toClient ++ sentOn 0 sent }
  /-- The client handles the next message. -/
  | receive {n : Network} {input input' : Stream} {rest : List UInt8} {reply : Option Reply}
      {answer : Option Answer} {ac : AccessConcentrator}
      (hinput : HandsOver n.toClient input rest)
      (hdecode : (decode .little).run' input = .ok reply)
      (hreceive : receiveMessageTcpInternal .little n.session.ac input = .ok ((answer, ac), input')) :
      Step n (.client (.received reply answer))
        { n with
          session := ⟨ac, n.session.nextHandle⟩
          toClient := rest }

/-- What holds in every run: the channels carry messages that both sides understand, and
    every grant that was told or is on its way was made. -/
structure Accounted (ls : List Label) (n : Network) : Prop where
  client : Lts.Trace (Session.Step .little) {} (clientEvents ls) n.session
  server : Daemon.Reachable n.daemon
  requests : ∃ qs : List Request, n.toServer = frames (qs.map Request.message) ∧
    ∀ q ∈ qs, q.path.length ≤ maxPathLength
  replies : ∃ rs : List Reply, n.toClient = frames (rs.map Reply.message) ∧
    (∀ r ∈ rs, r.WellFormed) ∧
    ∀ pid path mode, delivered (spellings pid path mode) (clientEvents ls) +
      rs.countP (tellsGrant pid path mode) ≤ granted pid path mode ls

theorem accounted_init : Accounted [] {} where
  client := .nil
  server := ⟨[], .nil⟩
  requests := ⟨[], rfl, nofun⟩
  replies := ⟨[], rfl, nofun, fun _ _ _ => Nat.le_refl 0⟩

variable {n n' : Network} {ls : List Label}

theorem clientEvents_client (ls : List Label) (e : Client.Event) :
    clientEvents (ls ++ [.client e]) = clientEvents ls ++ [e] := by
  simp [clientEvents]

theorem clientEvents_server (ls : List Label) (d : Daemon) (env : Env) (input : Stream) :
    clientEvents (ls ++ [.server d env input]) = clientEvents ls := by
  simp [clientEvents]

theorem granted_client (ls : List Label) (e : Client.Event) (pid : UInt32) (path : LockPath)
    (mode : UInt8) : granted pid path mode (ls ++ [.client e]) = granted pid path mode ls := by
  simp [granted]

theorem granted_server (ls : List Label) (d : Daemon) (env : Env) (input : Stream) (pid : UInt32)
    (path : LockPath) (mode : UInt8) : granted pid path mode (ls ++ [.server d env input]) =
      granted pid path mode ls + d.granted env input pid path mode := by
  simp [granted]

/-- Both sides mean the same by a reply that grants a lock. -/
theorem grants_spellings (pid : UInt32) (path : LockPath) (mode : UInt8) (r : Reply) :
    grants (spellings pid path mode) r = tellsGrant pid path mode r := by
  cases r with
  | registered | unregistered | createUpdate | released => rfl
  | acquireUpdate pid' s mode' status =>
      simp only [grants, Key.ofReply, Option.any_some, spellings, statusOf, tellsGrant,
        Bool.decide_and, Bool.and_assoc]
      rfl

/-- A request joins the channel. -/
theorem Accounted.issue {heap : Heap} {call : Call} {out : Stream} {ac : AccessConcentrator}
    (h : Accounted ls n) (hheap : heap.Ample)
    (hpath : (n.session.ac.request call).path.length ≤ maxPathLength)
    (hissue : n.session.ac.issue .little heap n.session.nextHandle call = .ok (some out, ac)) :
    Accounted (ls ++ [.client (.issued n.session.nextHandle call)])
      { n with
        session := ⟨ac, n.session.nextHandle + 1⟩
        toServer := n.toServer ++ out.bytes } := by
  obtain ⟨qs, hqs, hshort⟩ := h.requests
  obtain ⟨rs, hrs, hwf, hle⟩ := h.replies
  have hbytes : out.bytes = frame (n.session.ac.request call).message := by
    obtain ⟨out', hissue', hfilled⟩ :=
      n.session.ac.issue_spec hheap n.session.nextHandle call hpath
    rw [hissue] at hissue'
    cases hissue'
    exact hfilled.bytes_eq
  refine ⟨?_, h.server, ⟨qs ++ [n.session.ac.request call], ?_, ?_⟩, rs, hrs, hwf, ?_⟩
  · rw [clientEvents_client]
    exact h.client.snoc (.issue hissue)
  · rw [hqs, hbytes, List.map_append, frames_append, List.map_singleton, frames_cons, frames_nil,
      List.append_nil]
  · intro q hq
    rcases List.mem_append.mp hq with hq | hq
    · exact hshort q hq
    · rw [List.mem_singleton.mp hq]
      exact hpath
  · intro pid path mode
    rw [clientEvents_client, granted_client, Session.delivered_append]
    exact hle pid path mode

/-- The daemon takes a request from its channel, and the replies join the other one. -/
theorem Accounted.serve {env : Env} {input : Stream} {rest : List UInt8} {sent : List Packet}
    {d' : Daemon} (h : Accounted ls n) (hcalm : Calm env) (hhost : env.host = .little)
    (hinput : HandsOver n.toServer input rest) (hserve : Delivers env n.daemon 0 input sent d') :
    Accounted (ls ++ [.server n.daemon env input])
      { n with
        daemon := d'
        toServer := rest
        toClient := n.toClient ++ sentOn 0 sent } := by
  obtain ⟨qs, hqs, hshort⟩ := h.requests
  obtain ⟨rs, hrs, hwf, hle⟩ := h.replies
  rw [hqs] at hinput
  obtain ⟨m, ms, hms, hcarries, hrest⟩ := hinput.first fun m hm => by
    obtain ⟨q, hq, rfl⟩ := List.mem_map.mp hm
    exact Request.fits (hshort q hq)
  obtain ⟨q, qs', rfl, rfl, rfl⟩ := List.map_eq_cons_iff.mp hms
  obtain ⟨new, hnew, hwf', hle'⟩ :=
    grants_sent hcalm hhost h.server (hshort q List.mem_cons_self) hcarries hserve
  refine ⟨?_, h.server.next (e := ⟨env, 0, input, sent⟩) hserve, ⟨qs', hrest, ?_⟩, rs ++ new, ?_, ?_, ?_⟩
  · rw [clientEvents_server]
    exact h.client
  · exact fun q' hq' => hshort q' (List.mem_cons_of_mem q hq')
  · rw [hrs, hnew, List.map_append, frames_append]
  · intro r hr
    rcases List.mem_append.mp hr with hr | hr
    · exact hwf r hr
    · exact hwf' r hr
  · intro pid path mode
    rw [clientEvents_server, granted_server, List.countP_append, ← Nat.add_assoc]
    exact Nat.add_le_add (hle pid path mode) (hle' pid path mode)

/-- The client takes a reply from its channel. -/
theorem Accounted.receive {input input' : Stream} {rest : List UInt8} {reply : Option Reply}
    {answer : Option Answer} {ac : AccessConcentrator} (h : Accounted ls n)
    (hinput : HandsOver n.toClient input rest)
    (hdecode : (decode .little).run' input = .ok reply)
    (hreceive : receiveMessageTcpInternal .little n.session.ac input = .ok ((answer, ac), input')) :
    Accounted (ls ++ [.client (.received reply answer)])
      { n with
        session := ⟨ac, n.session.nextHandle⟩
        toClient := rest } := by
  obtain ⟨rs, hrs, hwf, hle⟩ := h.replies
  rw [hrs] at hinput
  obtain ⟨m, ms, hms, hcarries, hrest⟩ := hinput.first fun m hm => by
    obtain ⟨r, hr, rfl⟩ := List.mem_map.mp hm
    exact Reply.fits (hwf r hr)
  obtain ⟨r, rs', rfl, rfl, rfl⟩ := List.map_eq_cons_iff.mp hms
  have hreply : reply = some r := by
    have hrun := hcarries.run (gets_decode (hwf r List.mem_cons_self))
    have hread : (decode .little).run' input = .ok (some r) := by
      show ((fun x => x.1) <$> decode .little input) = _
      rw [hrun]
      rfl
    rw [hread] at hdecode
    cases hdecode
    rfl
  refine ⟨?_, h.server, h.requests, rs', hrest, ?_, ?_⟩
  · rw [clientEvents_client]
    exact h.client.snoc (.receive hdecode hreceive)
  · exact fun r' hr' => hwf r' (List.mem_cons_of_mem r hr')
  · intro pid path mode
    have hall := hle pid path mode
    have hone : delivered (spellings pid path mode) [.received reply answer] =
        if tellsGrant pid path mode r then 1 else 0 := by
      rw [hreply, ← grants_spellings, delivered, List.countP_singleton]
    rw [List.countP_cons] at hall
    rw [clientEvents_client, granted_client, Session.delivered_append, hone]
    omega

theorem Accounted.step {l : Label} (h : Accounted ls n) (hstep : Step n l n') :
    Accounted (ls ++ [l]) n' := by
  cases hstep with
  | issue hheap hpath hissue => exact h.issue hheap hpath hissue
  | serve hcalm hhost hinput hserve => exact h.serve hcalm hhost hinput hserve
  | receive hinput hdecode hreceive => exact h.receive hinput hdecode hreceive

/-- A message answers at most one of the requests that wait. -/
theorem Step.waiting {reply : Option Reply} {answer : Option Answer}
    (h : Step n (.client (.received reply answer)) n') :
    (answer = none ∧ n'.session.ac.waiting = n.session.ac.waiting) ∨
    ∃ a, answer = some a ∧ n.session.ac.waiting = a.request ::ₘ n'.session.ac.waiting := by
  cases h with
  | receive hinput hdecode hreceive =>
      have hstep : Session.Step .little n.session (.received reply answer) _ := .receive hdecode hreceive
      rcases hstep.cases with ⟨call, hcall, -⟩ | ⟨reply', hevent, hafter⟩
      · cases hcall
      · cases hevent
        rw [hafter]
        exact (n.session.ac.accept_cases reply).imp_left fun ⟨hnone, hsame⟩ => ⟨hnone, by rw [hsame]⟩

/-- The network after a request and its reply, when nothing else is on its way. -/
def exchanged (n : Network) (call : Call) (r : Reply) : Network where
  session := ⟨((n.session.ac.remember n.session.nextHandle call).answer r).2, n.session.nextHandle + 1⟩
  daemon := n.daemon.next 0 (n.session.ac.request call)

/-- A request goes to the daemon and its reply comes back. -/
theorem trace_exchanged {es : List Client.Event} (call : Call) {r : Reply}
    (h : ∃ ls, Lts.Trace Step {} ls n ∧ clientEvents ls = es) (hserver : n.toServer = [])
    (hclient : n.toClient = []) (hpath : (n.session.ac.request call).path.length ≤ maxPathLength)
    (hanswer : n.daemon.answerTo 0 (n.session.ac.request call) = some (r, ∅)) :
    ∃ ls, Lts.Trace Step {} ls (n.exchanged call r) ∧
      clientEvents ls = es ++ [.issued n.session.nextHandle call,
        .received (some r) ((n.session.ac.remember n.session.nextHandle call).answer r).1] := by
  obtain ⟨ls, hrun, hes⟩ := h
  have hreachable := (hrun.invariant_log Accounted accounted_init fun h hstep => h.step hstep).server
  obtain ⟨out, hissue, hfilled⟩ :=
    n.session.ac.issue_spec Heap.ample_zeros n.session.nextHandle call hpath
  obtain ⟨s, updates, hserve, hsends, hnone⟩ :=
    hreachable.step_of_respond (respond_of_answerTo hanswer) hpath
  obtain rfl := hnone rfl
  have hwf : r.WellFormed := wellFormed_respond hpath (respond_of_answerTo hanswer)
  have hrun₁ := hrun.snoc (.issue Heap.ample_zeros hpath hissue)
  rw [hserver, hfilled.bytes_eq, List.nil_append] at hrun₁
  have hrequest : HandsOver (frame (n.session.ac.request call).message)
      (ofBytes (frame (n.session.ac.request call).message)) [] :=
    ⟨_, Request.fits hpath, carries_ofBytes (Request.fits hpath), (List.append_nil _).symm⟩
  have hrun₂ := hrun₁.snoc (.serve calm_plain rfl hrequest hserve)
  have hbytes : n.toClient ++ sentOn 0 [(0, s)] = frame r.message := by
    rw [hclient, sentOn_self, hsends.1, List.nil_append]
  have hreply : HandsOver (n.toClient ++ sentOn 0 [(0, s)]) (ofBytes (frame r.message)) [] :=
    ⟨_, Reply.fits hwf, carries_ofBytes (Reply.fits hwf), by rw [hbytes, List.append_nil]⟩
  have hdecode : (decode .little).run' (ofBytes (frame r.message)) = .ok (some r) := by
    show ((fun x => x.1) <$> decode .little (ofBytes (frame r.message))) = _
    rw [(carries_ofBytes (Reply.fits hwf)).run (gets_decode hwf)]
    rfl
  have hrun₃ := hrun₂.snoc (.receive hreply hdecode
    ((carries_ofBytes (Reply.fits hwf)).run (AccessConcentrator.gets_reply _ hwf)))
  refine ⟨_, hrun₃, ?_⟩
  rw [clientEvents_client, clientEvents_server, clientEvents_client, hes, List.append_assoc]
  rfl

/-- A process registers and creates the lock `a` for itself. -/
def owning : Network :=
  (exchanged {} .registerProcess (.registered 0 ResponseStatus.success (some 0))).exchanged
    (.createLock 0 [0x61] true) (.createUpdate 0 [0x61] ResponseStatus.success)

/-- The client never believes in a lock that it was not granted, and every message of the
    server answers at most one request. -/
theorem believed_le_granted (hrun : Lts.Trace Step {} ls n) :
    (∀ pid path mode,
      believed (spellings pid path mode) (clientEvents ls) ≤ granted pid path mode ls) ∧
    ∀ reply answer n', Step n (.client (.received reply answer)) n' →
      (answer = none ∧ n'.session.ac.waiting = n.session.ac.waiting) ∨
      ∃ a, answer = some a ∧ n.session.ac.waiting = a.request ::ₘ n'.session.ac.waiting := by
  have hall := hrun.invariant_log Accounted accounted_init fun h hstep => h.step hstep
  refine ⟨fun pid path mode => ?_, fun reply answer n' hstep => hstep.waiting⟩
  obtain ⟨rs, -, -, hle⟩ := hall.replies
  obtain ⟨-, -, hbelieved⟩ := Session.believed_le_delivered hall.client (spellings pid path mode)
  have hgranted := hle pid path mode
  omega

/-- The process then acquires the lock in mode S+ as well, which its X lock does not prevent. -/
theorem believed_le_granted_owner :
    ∃ ls n, Lts.Trace Step {} ls n ∧ believed (spellings 0 [[0x61]] 1) (clientEvents ls) = 1 ∧
      1 ≤ granted 0 [[0x61]] 1 ls := by
  have h₁ := trace_exchanged (n := {}) .registerProcess
    (r := .registered 0 ResponseStatus.success (some 0)) ⟨[], .nil, rfl⟩ rfl rfl (by decide)
    (by decide +kernel)
  have h₂ := trace_exchanged (.createLock 0 [0x61] true)
    (r := .createUpdate 0 [0x61] ResponseStatus.success) h₁ rfl rfl (by decide) (by decide +kernel)
  have h₃ := trace_exchanged (n := owning) (.acquireLock 0 [0x61] 1)
    (r := .acquireUpdate 0 [0x61] 1 ResponseStatus.success) h₂ rfl rfl (by decide) (by decide +kernel)
  obtain ⟨ls, hrun, hes⟩ := h₃
  have hbelieved : believed (spellings 0 [[0x61]] 1) (clientEvents ls) = 1 := by
    rw [hes]
    decide +kernel
  refine ⟨ls, _, hrun, hbelieved, ?_⟩
  rw [← hbelieved]
  exact (believed_le_granted hrun).1 0 [[0x61]] 1

end Network

end Tclm.System
