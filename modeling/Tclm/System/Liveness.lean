/-
  Tclm.System.Liveness

  What calls of users wait for.

  - The daemon never leaves a request in the queue that could go on.
  - If users are considerate, the deployment can always come to rest: all messages arrive.
  - Then a call that has not returned waits for a lock that a user has.
-/

import Tclm.System.Guarantees

open Tclm.Comm
open Tclm.Client
open Tclm.Server

namespace Tclm.System

-- ============================================================================
-- Wake-ups
-- ============================================================================

namespace Cluster

variable {s s' : Cluster}

/-- The daemon takes a request from a process that waits for nothing. -/
theorem Sound.settled_serve (h : s.Sound) {c : Conn} {q : Request} {rest : List Request}
    (hq : s.toServer c = q :: rest) {rs : List (Conn × Reply)} {d' : Daemon}
    (hserve : s.daemon.Exchange c q rs d')
    (hseats : s.daemon.backend.forest.All (LockState.Seats fun _ => True))
    (hsettled : s.daemon.backend.forest.All fun _ s => s.Settled) :
    d'.backend.forest.All (LockState.Seats fun _ => True) ∧
      d'.backend.forest.All fun _ s => s.Settled := by
  obtain @⟨env, _, answered, _, _, hrespond, -, -⟩ := hserve
  obtain ⟨res, hrun, -⟩ := Daemon.step_of_respond hrespond
  have hstep : Backend.Step s.daemon.backend ⟨Daemon.operation q, res, answered⟩ d'.backend :=
    ⟨env.fuel, hrun⟩
  exact hstep.settled h.daemon.backend.forest_sound h.daemon.backend.ticketed (h.backend_ready hq)
    hseats hsettled

/-- The first request of every queue is blocked. -/
theorem Reachable.heads_blocked (h : s.Reachable) : Backend.HeadsBlocked s.daemon.backend.forest := by
  obtain ⟨-, -, hsettled⟩ := h.invariant (fun s => s.Sound ∧
    s.daemon.backend.forest.All (LockState.Seats fun _ => True) ∧
    s.daemon.backend.forest.All fun _ s => s.Settled)
    ⟨sound_init, LockForest.all_empty, LockForest.all_empty⟩
    fun ⟨hsound, hseats, hsettled⟩ hstep => by
      refine ⟨hsound.step hstep, ?_⟩
      cases hstep with
      | ask | register | leave | receive => exact ⟨hseats, hsettled⟩
      | serve hq hserve => exact hsound.settled_serve hq hserve hseats hsettled
  intro x hx r queue hq
  exact ⟨_, _, Lock.acquire_of_blocks (LockForest.all_iff.mp hsettled x hx r queue hq), rfl⟩

/-- The first process has the lock `a` in mode X, the second one waits for it. -/
def contended : Cluster :=
  (furnished.call 0 (.acquireLock 0 [0x61] 2) (.acquireUpdate 0 [0x61] 2 ResponseStatus.success)).call
    1 (.acquireLock 1 [0x61] 0) (.acquireUpdate 1 [0x61] 0 ResponseStatus.queued)

theorem quiet_contended : contended.Quiet := by
  have h := quiet_furnished.call 0 (.acquireLock 0 [0x61] 2)
    (.acquireUpdate 0 [0x61] 2 ResponseStatus.success) (by decide +kernel) ⟨.X, rfl⟩
    (by decide +kernel)
  exact h.call _ _ _ (by decide +kernel) ⟨.S, rfl⟩ (by decide +kernel)

end Cluster

-- ============================================================================
-- Deployments
-- ============================================================================

namespace Deployment

variable {s s' : Deployment} {t : Cluster} {c : Conn} {pid : UInt32} {p : ProcessImpl}

/-- Something happens, and users take care. -/
abbrev CarefulStep : Deployment → Motion → Deployment → Prop := StepWith Considerate

/-- Something happens that no user does. -/
abbrev PassiveStep : Deployment → Motion → Deployment → Prop := StepWith fun _ => Passive

/-- In a run with considerate users everything is in order. -/
theorem orderly_of_careful (h : Lts.Reachable CarefulStep {} s) :
    ∃ t : Cluster, Refines s t ∧ t.Orderly ∧ t.Supported := by
  obtain ⟨t, ht, hrefines⟩ := simulates_with.reachable refines_init h
  refine ⟨t, hrefines, ?_⟩
  exact ht.invariant (fun t => t.Orderly ∧ t.Supported)
    ⟨Cluster.orderly_init, Cluster.supported_init⟩
    fun ⟨ht, hs⟩ ⟨_, hstep⟩ => ⟨ht.step hstep, hs.step hstep.1⟩

theorem realised_careful (h : Lts.Reachable Cluster.CarefulStep {} t) :
    ∃ s : Deployment, Lts.Reachable CarefulStep {} s ∧ Refines s t := by
  obtain ⟨es, hrun⟩ := h
  obtain ⟨ms, s, hrun', hrefines⟩ := refines_init.realise_trace Considerate.refl hrun
  exact ⟨s, ⟨ms, hrun'⟩, hrefines⟩

theorem reachable_of_careful (h : Lts.Reachable CarefulStep {} s) : s.Reachable := by
  obtain ⟨ms, hrun⟩ := h
  exact ⟨ms, hrun.mono And.left⟩

/-- No wake-up is missed: re-running `Lock::acquire` for the first request of a queue would get
    it nowhere. -/
theorem no_wakeup_missed (h : s.Reachable) : Backend.HeadsBlocked s.daemon.backend.forest := by
  obtain ⟨t, ht, hrefines⟩ := h.refines
  rw [hrefines.daemon]
  exact ht.heads_blocked

theorem no_wakeup_missed_contended : ∃ s : Deployment, s.Reachable ∧
    (∃ x ∈ s.daemon.backend.forest.nodes, x.2.val.lockRequests ≠ []) ∧
    Backend.HeadsBlocked s.daemon.backend.forest := by
  obtain ⟨s, hs, hrefines⟩ := realised_careful Cluster.quiet_contended.reachable
  have hs := reachable_of_careful hs
  have hqueue : (Cluster.contended.daemon.backend.forest.nodes.any fun x =>
      !x.2.val.lockRequests.isEmpty) = true := by decide +kernel
  obtain ⟨x, hx, hne⟩ := List.any_eq_true.mp hqueue
  refine ⟨s, hs, ⟨x, hrefines.daemon ▸ hx, fun hnil => ?_⟩, no_wakeup_missed hs⟩
  simp [hnil] at hne

/-- When no byte is on its way, a call of a considerate user that has not returned stands in a
    queue of the daemon, and some user has the lock at which it waits, or a lock below. -/
theorem call_waits_for_user (h : Lts.Reachable CarefulStep {} s) (hsilent : s.Silent) {hd : Handle}
    {q : Request} (hp : (s.clients c).processes pid = some p) (hcall : p.call = some (hd, q)) :
    WaitsForUser s.daemon s.clients c pid p q := by
  obtain ⟨t, hrefines, ht, -⟩ := orderly_of_careful h
  rw [hrefines.clients] at hp ⊢
  rw [hrefines.daemon]
  exact ht.waits_for_lock (hrefines.silent_iff.mp hsilent) hp hcall

/-- The second process waits in the queue of the lock `a`, which the first one has. -/
theorem call_waits_for_user_contended : ∃ (s : Deployment) (o : Process) (x : Ticket),
    Lts.Reachable CarefulStep {} s ∧ s.daemon.backend.processes.lookup 1 = some o ∧
      s.daemon.backend.forest.QueuedAt [[0x61]] o.object x ∧ InTheWay s.clients [[0x61]] := by
  obtain ⟨s, hs, hrefines⟩ := realised_careful Cluster.quiet_contended.reachable
  have hsilent := hrefines.silent_iff.mpr Cluster.quiet_contended.toSilent
  have hp := congrFun (congrArg Tclmc.processes (congrFun hrefines.clients 0)) 1
  obtain ⟨x, π, -, -, hne, hprefix, ⟨o, ho, hqueued⟩, hway⟩ :=
    call_waits_for_user hs hsilent (hp.trans rfl) rfl
  have hπ : π = [[0x61]] := by
    have hsplit : splitPath [0x61] = [[0x61]] := by decide
    obtain ⟨ρ, hρ⟩ := hprefix
    exact (List.append_eq_singleton_iff.mp (hρ.trans hsplit)).elim (absurd ·.1 hne) (·.1)
  subst hπ
  exact ⟨s, o, x, hs, ho, hqueued, hway⟩

/-- A deployment with considerate users can always come to rest, without any of them doing
    anything: then no byte is on its way, and every call has returned or stands in a queue, at
    a lock that some user has or below which he has one. -/
theorem comes_to_rest (h : Lts.Reachable CarefulStep {} s) :
    ∃ ms s', Lts.Trace PassiveStep s ms s' ∧ s'.Silent ∧
      ∀ c pid p hd q, (s'.clients c).processes pid = some p → p.call = some (hd, q) →
        WaitsForUser s'.daemon s'.clients c pid p q := by
  obtain ⟨t, hrefines, ht, hsupported⟩ := orderly_of_careful h
  obtain ⟨es, t', hrun, ht', hsilent⟩ := ht.runs_dry hsupported
  obtain ⟨ms, s', hrun', hrefines'⟩ := hrefines.realise_trace (fun _ => Passive.refl) hrun
  refine ⟨ms, s', hrun', hrefines'.silent_iff.mpr hsilent, ?_⟩
  intro c pid p hd q hp hcall
  rw [hrefines'.clients] at hp ⊢
  rw [hrefines'.daemon]
  exact ht'.waits_for_lock hsilent hp hcall

/-- The request of the first process is on its way. -/
theorem comes_to_rest_furnished : ∃ (s s' : Deployment) (ms : List Motion),
    ¬ s.Silent ∧ Lts.Trace PassiveStep s ms s' ∧ s'.Silent ∧
      ∀ c pid p hd q, (s'.clients c).processes pid = some p → p.call = some (hd, q) →
        WaitsForUser s'.daemon s'.clients c pid p q := by
  have hidle : Cluster.furnished.Idle 0 (.acquireLock 0 [0x61] 0) := by decide +kernel
  obtain ⟨s, hs, hrefines⟩ := realised_careful
    (Cluster.quiet_furnished.reachable.next (hidle.step ⟨.S, rfl⟩))
  obtain ⟨ms, s', hrun, hsilent, hwaits⟩ := comes_to_rest hs
  refine ⟨s, s', ms, fun hempty => ?_, hrun, hsilent, hwaits⟩
  have hnone := (hrefines.silent_iff.mp hempty).toServer 0
  rw [Cluster.toServer_sends_self] at hnone
  exact absurd hnone (by simp)

end Deployment

end Tclm.System
