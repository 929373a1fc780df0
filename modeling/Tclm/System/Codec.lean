/-
  Tclm.System.Codec

  Client and daemon understand each other.

  The functions of `Access_Concentrator` and of `daemon` that write and read messages were
  written apart.  They agree on a little-endian host: the daemon reads from a request what
  the client put there, and the client reads from a reply what the daemon put there.
-/

import Tclm.Client.AccessConcentrator
import Tclm.Server.Paths
import Tclm.Server.Replies

open Tclm.Comm
open Tclm.Client
open Tclm.Client.AccessConcentrator
open Tclm.Server
open Tclm.Server.Daemon

namespace Tclm.System

/-- The client decodes the message of a reply, whatever its tables are. -/
theorem receive_sends {s output : Stream} {r : Reply} (hs : Sends s r) (hr : r.WellFormed)
    (houtput : s.Delivered output) (ac : AccessConcentrator) :
    receiveMessageTcpInternal .little ac output =
      .ok (ac.answer r, { output with pos := output.length }) :=
  (houtput.carries hs.1).run (ac.gets_reply hr)

/-- Requests, immediate replies and updates are decoded to exactly the fields that were
    written.  `serve` calls the handlers with the fields of the request, `answer` looks up the
    request of a reply in the tables; `respond` and `update` are the replies as values. -/
theorem codecs_agree (env : Env) (hhost : env.host = .little) (hheap : env.heap.Ample)
    (hheaps : ∀ i, (env.heaps i).Ample) {heap : Heap} (hclient : heap.Ample) :
    (∀ (ac : AccessConcentrator) (h : Handle) (call : Call),
      (ac.request call).path.length ≤ maxPathLength →
      ∃ s, ac.issue .little heap h call = .ok (some s, ac.remember h call) ∧
        ∀ input, s.Delivered input → ∀ (c : Conn) (d : Daemon),
          d.receiveMessageInternal env c input = d.serve env c input (ac.request call)) ∧
    (∀ (q : Request) (input : Stream), q.path.length ≤ maxPathLength → input.Carries q.message →
      ∀ (c : Conn) (d d' : Daemon) (r : Reply) (answered : Finset LockRequest),
        d.respond env c q = .ok (r, answered, d') →
        ∃ s, d.receiveMessageInternal env c input = .ok ([(c, s)], answered, d') ∧
          ∀ output, s.Delivered output → ∀ ac : AccessConcentrator,
            receiveMessageTcpInternal .little ac output =
              .ok (ac.answer r, { output with pos := output.length })) ∧
    (∀ (d : Daemon) (path : PathString) (r : LockRequest) (p : Process) (c : Conn) (i : Nat),
      path.length ≤ maxPathLength → r.path = splitPath path → d.requester r = some p →
      d.tcpConn p.object = some c → env.up c = true →
      ∃ s, d.notify env (env.heaps i) r = .ok [(c, s)] ∧
        ∀ output, s.Delivered output → ∀ ac : AccessConcentrator,
          receiveMessageTcpInternal .little ac output =
            .ok (ac.answer (update p.id r), { output with pos := output.length })) := by
  refine ⟨?_, ?_, ?_⟩
  · intro ac h call hpath
    obtain ⟨s, hissue, hfilled⟩ := ac.issue_spec hclient h call hpath
    refine ⟨s, hissue, fun input hinput c d => ?_⟩
    exact receiveMessageInternal_eq_serve hhost c d hpath (hinput.carries hfilled.bytes_eq)
  · intro q input hpath hinput c d d' r answered hrespond
    have hanswers := receiveMessageInternal_spec hhost hheap c d hpath hinput
    rw [hrespond] at hanswers
    obtain ⟨s, hrun, hsends⟩ := hanswers
    exact ⟨s, hrun, fun output houtput ac =>
      receive_sends hsends (wellFormed_respond hpath hrespond) houtput ac⟩
  · intro d path r p c i hlen hpath hp hc hup
    have hjoin : (joinPath r.path).length ≤ maxPathLength := by
      rw [hpath]
      exact (length_joinPath_splitPath path).trans hlen
    obtain ⟨s, hrun, hsends⟩ := notify_spec hhost (hheaps i) hjoin hp hc hup
    exact ⟨s, hrun, fun output houtput ac =>
      receive_sends hsends (wellFormed_update p.id hjoin) houtput ac⟩

/-- A client acquires the lock `a` in mode S. -/
theorem codecs_agree_acquire :
    ∃ s, issue .little .zeros 0 {} (.acquireLock 1 [0x61] 0) =
        .ok (some s, remember 0 {} (.acquireLock 1 [0x61] 0)) ∧
      ∀ input, s.Delivered input → receiveMessageInternal .plain 0 input {} =
        serve .plain 0 input {} (.acquireLock 1 [0x61] 0) := by
  obtain ⟨s, hissue, hserve⟩ := (codecs_agree .plain rfl Heap.ample_zeros
    (fun _ => Heap.ample_zeros) Heap.ample_zeros).1 {} 0 (.acquireLock 1 [0x61] 0) (by decide)
  exact ⟨s, hissue, fun input hinput => hserve input hinput 0 {}⟩

end Tclm.System
