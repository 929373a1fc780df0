/-
  Tclm.System.Considerate

  Runs with considerate users.

  Users can take care of three things (`Considerate`): they write paths as the daemon writes
  them, they acquire locks that exist, and they give their locks back before they destroy a
  process.  Then every message can arrive (`Orderly.runs_dry`), and when no message is on its
  way, a call that has not returned waits for a lock that a user has (`Orderly.waits_for_lock`).
-/

import Tclm.Lib.Descent
import Tclm.Server.Leaving
import Tclm.System.Seats

open Tclm.Comm
open Tclm.Client
open Tclm.Server

namespace Tclm.System

-- ============================================================================
-- What users do
-- ============================================================================

/-- The lock that a request acquires exists, or the request may create it. -/
def namesLock (d : Daemon) : Request → Bool
  | .acquireLock _ path _ => (d.backend.forest.node? (splitPath path)).isSome
  | _ => true

/-- A call with a path as the daemon writes it, for a lock that exists if it acquires one. -/
def Sensible (d : Daemon) (q : Request) : Prop := Canonical q ∧ namesLock d q = true

instance (d : Daemon) (q : Request) : Decidable (Sensible d q) :=
  inferInstanceAs (Decidable (Daemon.joinPath (splitPath q.path) = q.path ∧ namesLock d q = true))

/-- Locks that exist go on existing. -/
theorem Sensible.mono {d d' : Daemon} {q : Request} (h : Sensible d q)
    (hkeeps : d.backend.forest.Keeps d'.backend.forest) : Sensible d' q := by
  refine ⟨h.1, ?_⟩
  cases q with
  | registerProcess | unregisterProcess | createLock | releaseLock => rfl
  | acquireLock =>
      exact Option.isSome_iff_ne_none.mpr (hkeeps.node?_ne_none (Option.isSome_iff_ne_none.mp h.2))

/-- What users take care of when something happens. -/
structure Considerate (d : Daemon) (clients clients' : Conn → Tclmc) : Prop where
  /-- New calls are sensible. -/
  asks : ∀ {c pid p h q}, (clients' c).processes pid = some p → p.call = some (h, q) →
    (∃ p₀, (clients c).processes pid = some p₀ ∧ p₀.call = some (h, q)) ∨ Sensible d q
  /-- A process that is destroyed has no locks. -/
  leaves : ∀ {c pid p}, (clients c).processes pid = some p → (clients' c).processes pid = none →
    p.locks = 0

/-- Users do nothing. -/
structure Passive (clients clients' : Conn → Tclmc) : Prop where
  asks : ∀ {c pid p h q}, (clients' c).processes pid = some p → p.call = some (h, q) →
    ∃ p₀, (clients c).processes pid = some p₀ ∧ p₀.call = some (h, q)
  leaves : ∀ {c pid}, (clients' c).processes pid = none → (clients c).processes pid = none

theorem Passive.refl (clients : Conn → Tclmc) : Passive clients clients :=
  ⟨fun hp hcall => ⟨_, hp, hcall⟩, id⟩

theorem Passive.considerate {clients clients' : Conn → Tclmc} (h : Passive clients clients')
    (d : Daemon) : Considerate d clients clients' where
  asks hp hcall := .inl (h.asks hp hcall)
  leaves hp hgone := by
    rw [h.leaves hgone] at hp
    cases hp

theorem Considerate.refl (d : Daemon) (clients : Conn → Tclmc) : Considerate d clients clients :=
  (Passive.refl clients).considerate d

/-- A call that returns leaves the process idle, and the others go on. -/
theorem call_of_returns {a : Answer} {p : ProcessImpl} {x : Handle × Request}
    (h : (Tclmc.returns a p).call = some x) : p.call = some x := by
  rw [Tclmc.returns] at h
  split at h
  · split at h
    · cases h
    · exact h
  · exact h

/-- A message changes nothing for a process, or brings it, or lets a call return. -/
theorem processes_accept (client : Tclmc) (r : Reply) (pid : UInt32) :
    (client.accept r).processes pid = client.processes pid ∨
      (client.accept r).processes pid = some {} ∨
      ∃ a, (client.accept r).processes pid = (client.processes pid).map (Tclmc.returns a) := by
  show client.heard (client.session.ac.answer r).1 pid = _ ∨
    client.heard (client.session.ac.answer r).1 pid = _ ∨
    ∃ a, client.heard (client.session.ac.answer r).1 pid = _
  cases (client.session.ac.answer r).1 with
  | none => exact .inl rfl
  | some a =>
      obtain ⟨hd, status, id⟩ := a
      cases id with
      | none => exact .inr (.inr ⟨_, rfl⟩)
      | some id =>
          simp only [Tclmc.heard, Tclmc.answered, registerProcess]
          by_cases hpid : pid = id
          · subst hpid
            split_ifs
            · exact .inr (.inl (Function.update_self ..))
            · exact .inl rfl
            · exact .inl rfl
          · left
            split_ifs
            · exact Function.update_of_ne hpid ..
            · rfl
            · rfl

/-- It starts no call. -/
theorem call_of_accept {client : Tclmc} {r : Reply} {pid : UInt32} {p' : ProcessImpl}
    {x : Handle × Request} (hp' : (client.accept r).processes pid = some p')
    (hcall : p'.call = some x) : ∃ p, client.processes pid = some p ∧ p.call = some x := by
  rcases processes_accept client r pid with heq | heq | ⟨a, heq⟩
  · exact ⟨p', heq.symm.trans hp', hcall⟩
  · rw [heq] at hp'
    cases hp'
    cases hcall
  · rw [heq] at hp'
    obtain ⟨p, hp, rfl⟩ := Option.map_eq_some_iff.mp hp'
    exact ⟨p, hp, call_of_returns hcall⟩

/-- It ends no process. -/
theorem process_of_accept {client : Tclmc} {r : Reply} {pid : UInt32}
    (h : (client.accept r).processes pid = none) : client.processes pid = none := by
  rcases processes_accept client r pid with heq | heq | ⟨a, heq⟩
  · exact heq.symm.trans h
  · rw [heq] at h
    cases h
  · exact Option.map_eq_none_iff.mp (heq.symm.trans h)

/-- Some user has the lock at the path, or one below it. -/
def InTheWay (clients : Conn → Tclmc) (π : LockPath) : Prop :=
  ∃ k pid p ρ m, (clients k).processes pid = some p ∧ (π ++ ρ, m) ∈ p.locks

/-- The request of a call stands in the queue of a lock on its path, which is its only request,
    and some user has this lock or one below it. -/
def WaitsForUser (d : Daemon) (clients : Conn → Tclmc) (c : Conn) (pid : UInt32) (p : ProcessImpl)
    (q : Request) : Prop :=
  ∃ t π, d.standing pid = some ⟨p.locks, {t}, some c⟩ ∧ Queues q t ∧ π ≠ [] ∧
    π <+: splitPath q.path ∧
    (∃ o, d.backend.processes.lookup pid = some o ∧ d.backend.forest.QueuedAt π o.object t) ∧
    InTheWay clients π

namespace Cluster

variable {s s' : Cluster} {c : Conn} {q : Request} {rest : List Request}

theorem passive_receives {r : Reply} {replies : List Reply} :
    Passive s.clients (s.receives c r replies).clients where
  asks {k _ _ _ _} hp hcall := by
    by_cases hk : k = c
    · subst hk
      rw [clients_receives_self] at hp
      exact call_of_accept hp hcall
    · rw [clients_receives_ne hk] at hp
      exact ⟨_, hp, hcall⟩
  leaves {k _} hgone := by
    by_cases hk : k = c
    · subst hk
      rw [clients_receives_self] at hgone
      exact process_of_accept hgone
    · rw [clients_receives_ne hk] at hgone
      exact hgone

/-- Something happens, and users take care. -/
abbrev CarefulStep : Cluster → ClusterEvent → Cluster → Prop := StepWith Considerate

/-- Something happens that no user does. -/
abbrev PassiveStep : Cluster → ClusterEvent → Cluster → Prop := StepWith fun _ => Passive

theorem reachable_of_careful (h : Lts.Reachable CarefulStep {} s) : s.Reachable := by
  obtain ⟨es, hrun⟩ := h
  exact ⟨es, hrun.mono And.left⟩

/-- A client sends a request, and its users take care. -/
theorem considerate_sends {client : Tclmc}
    (hasks : ∀ {pid p h q'}, client.processes pid = some p → p.call = some (h, q') →
      (∃ p₀, (s.clients c).processes pid = some p₀ ∧ p₀.call = some (h, q')) ∨ Sensible s.daemon q')
    (hleaves : ∀ {pid p}, (s.clients c).processes pid = some p → client.processes pid = none →
      p.locks = 0) : Considerate s.daemon s.clients (s.sends c client q).clients where
  asks {k _ _ _ _} hp hcall := by
    by_cases hk : k = c
    · subst hk
      rw [clients_sends_self] at hp
      exact hasks hp hcall
    · rw [clients_sends_ne _ _ _ _ hk] at hp
      exact .inl ⟨_, hp, hcall⟩
  leaves {k _ _} hp hgone := by
    by_cases hk : k = c
    · subst hk
      rw [clients_sends_self] at hgone
      exact hleaves hp hgone
    · rw [clients_sends_ne _ _ _ _ hk, hp] at hgone
      cases hgone

/-- A sensible call. -/
theorem considerate_ask {pid : UInt32} {p : ProcessImpl} (hq : Sensible s.daemon q) :
    Considerate s.daemon s.clients (s.sends c ((s.clients c).ask pid p q) q).clients := by
  refine considerate_sends (fun {pid'} _ _ _ hp' hcall => ?_) fun {pid'} _ hp' hgone => ?_
  · by_cases hpid : pid' = pid
    · subst hpid
      simp only [Tclmc.ask, Function.update_self] at hp'
      cases hp'
      cases hcall
      exact .inr hq
    · simp only [Tclmc.ask, Function.update_of_ne hpid] at hp'
      exact .inl ⟨_, hp', hcall⟩
  · by_cases hpid : pid' = pid
    · subst hpid
      simp only [Tclmc.ask, Function.update_self] at hgone
      cases hgone
    · simp only [Tclmc.ask, Function.update_of_ne hpid, hp'] at hgone
      cases hgone

theorem considerate_register :
    Considerate s.daemon s.clients (s.sends c (s.clients c).register q).clients :=
  considerate_sends (fun hp hcall => .inl ⟨_, hp, hcall⟩) fun hp hgone => by
    rw [show (s.clients c).register.processes = (s.clients c).processes from rfl, hp] at hgone
    cases hgone

-- ============================================================================
-- Messages on their way
-- ============================================================================

/-- A request for a lock that is on its way is a call of its process. -/
theorem Sound.asked_of_mem (h : s.Sound) (hq : q ∈ s.toServer c) {pid : UInt32}
    (hlock : q.lockProcess = some pid) :
    ∃ p hd, (s.clients c).processes pid = some p ∧ p.call = some (hd, q) := by
  have hmem : q ∈ (s.view pid c).requests :=
    List.mem_filter.mpr ⟨hq, decide_eq_true (Request.process_of_lockProcess hlock)⟩
  obtain ⟨hseat, -⟩ := (h.seats pid).at fun hblank => by
    rw [hblank] at hmem
    cases hmem
  have hprocess : (s.view pid c).process = (s.clients c).processes pid := rfl
  generalize s.daemon.standing pid = st at hseat
  generalize s.view pid c = v at hseat hmem hprocess
  cases hseat with
  | free | coming => cases hmem
  | leaving =>
      obtain rfl := List.mem_singleton.mp hmem
      cases hlock
  | @live p _ _ _ _ hphase =>
      cases hphase with
      | idle | told | waiting | stuck => cases hmem
      | asked hcall =>
          obtain rfl := List.mem_singleton.mp hmem
          exact ⟨p, _, hprocess.symm, hcall⟩

/-- A process that is being destroyed has sent its last request. -/
theorem Sound.leaving_of_mem (h : s.Sound) {pid : UInt32}
    (hq : .unregisterProcess pid ∈ s.toServer c) :
    ∃ held, s.daemon.standing pid = some ⟨held, 0, some c⟩ ∧
      s.view pid c = ⟨none, [.unregisterProcess pid], []⟩ ∧ ∀ k, k ≠ c → s.view pid k = .blank := by
  have hmem : .unregisterProcess pid ∈ (s.view pid c).requests :=
    List.mem_filter.mpr ⟨hq, decide_eq_true rfl⟩
  obtain ⟨hseat, hothers⟩ := (h.seats pid).at fun hblank => by
    rw [hblank] at hmem
    cases hmem
  generalize s.daemon.standing pid = st at hseat
  generalize s.view pid c = v at hseat hmem
  cases hseat with
  | free | coming => cases hmem
  | @leaving held => exact ⟨held, rfl, rfl, hothers⟩
  | live hphase =>
      exfalso
      cases hphase with
      | idle | told | waiting | stuck => cases hmem
      | asked _ hlock =>
          obtain rfl := List.mem_singleton.mp hmem
          cases hlock

-- ============================================================================
-- What is kept
-- ============================================================================

/-- What holds in a run with considerate users. -/
structure Orderly (s : Cluster) : Prop where
  sound : s.Sound
  calls : ∀ {c pid p h q}, (s.clients c).processes pid = some p → p.call = some (h, q) →
    Offered q ∧ Sensible s.daemon q
  backend : s.daemon.backend.Orderly
  kept : s.daemon.backend.Kept
  clean : s.daemon.backend.Clean
  /-- A process that is being destroyed has no locks. -/
  leaving : ∀ {c pid st}, .unregisterProcess pid ∈ s.toServer c →
    s.daemon.standing pid = some st → st.held = 0

theorem orderly_init : Orderly {} where
  sound := sound_init
  calls := fun hp => by cases hp
  backend := Backend.orderly_init
  kept := Backend.kept_init
  clean := Backend.clean_init
  leaving := nofun

/-- The process of a request waits for nothing, in the backend. -/
theorem Sound.backend_ready (h : s.Sound) (hq : s.toServer c = q :: rest) :
    s.daemon.backend.Ready (Daemon.operation q) := by
  intro pid p hissuer hp
  rw [Daemon.issuer_operation] at hissuer
  exact h.ready hq pid _ hissuer (Daemon.standing_of_lookup hp)

/-- A request for a lock that has arrived is sensible. -/
theorem Orderly.sensible (h : s.Orderly) (hq : s.toServer c = q :: rest) {pid : UInt32}
    (hlock : q.lockProcess = some pid) : Offered q ∧ Sensible s.daemon q := by
  obtain ⟨p, hd, hp, hcall⟩ := h.sound.asked_of_mem (hq ▸ List.mem_cons_self) hlock
  exact h.calls hp hcall

theorem Orderly.modeDefined (h : s.Orderly) (hq : s.toServer c = q :: rest) :
    (Daemon.operation q).ModeDefined := by
  cases q with
  | registerProcess | unregisterProcess | createLock => trivial
  | acquireLock | releaseLock =>
      obtain ⟨⟨m, rfl⟩, -⟩ := h.sensible hq rfl
      show (Mode.ofByte m.toByte).isSome = true
      rw [Mode.ofByte_toByte]
      rfl

theorem Orderly.namesLock (h : s.Orderly) (hq : s.toServer c = q :: rest) :
    s.daemon.backend.NamesLock (Daemon.operation q) := by
  intro pid path mode hask
  cases q with
  | registerProcess | unregisterProcess | releaseLock => cases hask
  | createLock pid path acquireX =>
      cases acquireX with
      | false | true => cases hask
  | acquireLock =>
      cases hask
      exact Option.isSome_iff_ne_none.mp (h.sensible hq rfl).2.2

theorem Orderly.pathSpelled (h : s.Orderly) (hq : s.toServer c = q :: rest) :
    Backend.PathSpelled (Daemon.operation q) := by
  cases q with
  | registerProcess | unregisterProcess => trivial
  | createLock | acquireLock | releaseLock => exact (h.sensible hq rfl).2.1

/-- Locks are given back before a process is destroyed. -/
theorem Orderly.leaving_serves (h : s.Orderly) (hq : s.toServer c = q :: rest)
    {rs : List (Conn × Reply)} {d' : Daemon} (hserve : s.daemon.Exchange c q rs d') {k : Conn}
    {pid : UInt32} {st : Daemon.Standing}
    (hleave : .unregisterProcess pid ∈ (s.serves c rest rs d').toServer k)
    (hst : d'.standing pid = some st) : st.held = 0 := by
  have hold : .unregisterProcess pid ∈ s.toServer k := by
    by_cases hk : k = c
    · subst hk
      simp only [serves, Function.update_self] at hleave
      rw [hq]
      exact List.mem_cons_of_mem q hleave
    · simp only [serves, Function.update_of_ne hk] at hleave
      exact hleave
  obtain ⟨held, hst₀, hview, hothers⟩ := h.sound.leaving_of_mem hold
  have hne : q.process ≠ some pid := by
    intro hpid
    -- a second request of the process would be on its way
    obtain ⟨qs, hqs, hnew⟩ := view_serves hq rs d' pid c
    rw [if_pos ⟨rfl, hpid⟩] at hqs
    obtain rfl : c = k := by
      by_contra hk
      rw [hothers c hk] at hqs
      cases hqs
    rw [hview] at hqs
    cases hqs
    have hmem : .unregisterProcess pid ∈ ((s.serves c rest rs d').view pid c).requests :=
      List.mem_filter.mpr ⟨hleave, decide_eq_true rfl⟩
    rw [hnew] at hmem
    cases hmem
  have hd' := hserve.reachable h.sound.daemon (h.sound.paths c q (hq ▸ List.mem_cons_self))
  obtain ⟨hst', -⟩ := hserve.other_idle h.sound.daemon hd' (h.sound.ready hq) hne hst₀
  obtain rfl := Option.some.inj (hst'.symm.trans hst)
  exact h.leaving hold hst₀

theorem Orderly.serve (h : s.Orderly) (hq : s.toServer c = q :: rest)
    {rs : List (Conn × Reply)} {d' : Daemon} (hserve : s.daemon.Exchange c q rs d') :
    (s.serves c rest rs d').Orderly := by
  have hready := h.sound.backend_ready hq
  obtain ⟨res, answered, hstep⟩ : ∃ res answered,
      Backend.Step s.daemon.backend ⟨Daemon.operation q, res, answered⟩ d'.backend := by
    obtain @⟨env, _, answered, _, _, hrespond, -, -⟩ := hserve
    obtain ⟨res, hrun, -⟩ := Daemon.step_of_respond hrespond
    exact ⟨res, answered, env.fuel, hrun⟩
  refine ⟨h.sound.serve hq hserve, fun hp hcall => ?_,
    h.backend.step ⟨h.modeDefined hq, h.namesLock hq, hstep⟩,
    h.kept.step hstep (h.namesLock hq) (h.pathSpelled hq) hready, ?_, h.leaving_serves hq hserve⟩
  · obtain ⟨hoffered, hsensible⟩ := h.calls hp hcall
    exact ⟨hoffered, hsensible.mono hstep.keeps⟩
  · refine hstep.clean h.kept.sound h.kept.ticketed h.clean hready fun pid p hop hp => ?_
    cases q with
    | registerProcess | createLock | acquireLock | releaseLock => cases hop
    | unregisterProcess =>
        cases hop
        exact h.leaving (hq ▸ List.mem_cons_self) (Daemon.standing_of_lookup hp)

theorem Orderly.receive (h : s.Orderly) {r : Reply} {replies : List Reply}
    (hr : s.toClient c = r :: replies) : (s.receives c r replies).Orderly := by
  refine ⟨h.sound.receive hr, fun hp hcall => ?_, h.backend, h.kept, h.clean, h.leaving⟩
  obtain ⟨p₀, hp₀, hcall₀⟩ := passive_receives.asks hp hcall
  exact h.calls hp₀ hcall₀

/-- A client sends a request. -/
theorem Orderly.sends (h : s.Orderly) {client : Tclmc} (hsound : (s.sends c client q).Sound)
    (hcalls : ∀ {pid p hd q'}, client.processes pid = some p → p.call = some (hd, q') →
      Offered q' ∧ Sensible s.daemon q')
    (hleaving : ∀ {pid st}, q = .unregisterProcess pid → s.daemon.standing pid = some st →
      st.held = 0) : (s.sends c client q).Orderly := by
  refine ⟨hsound, fun {k _ _ _ _} hp hcall => ?_, h.backend, h.kept, h.clean,
    fun {k _ _} hmem hst => ?_⟩
  · by_cases hk : k = c
    · subst hk
      rw [clients_sends_self] at hp
      exact hcalls hp hcall
    · rw [clients_sends_ne _ _ _ _ hk] at hp
      exact h.calls hp hcall
  · by_cases hk : k = c
    · subst hk
      rw [toServer_sends_self] at hmem
      rcases List.mem_append.mp hmem with hmem | hmem
      · exact h.leaving hmem hst
      · exact hleaving (List.mem_singleton.mp hmem).symm hst
    · rw [toServer_sends_ne _ _ _ _ hk] at hmem
      exact h.leaving hmem hst

theorem Orderly.step (h : s.Orderly) {e : ClusterEvent} (hstep : CarefulStep s e s') :
    s'.Orderly := by
  obtain ⟨hstep, hconsiderate⟩ := hstep
  have hsound := h.sound.step hstep
  cases hstep with
  | @ask c pid p q hp hidle hq hoffered =>
      have hself : ((s.clients c).ask pid p q).processes pid =
          some ⟨p.locks - gives q, some ((s.clients c).session.nextHandle, q)⟩ :=
        Function.update_self ..
      refine h.sends hsound (fun {pid'} _ _ _ hp' hcall => ?_) fun heq => by cases heq; cases hq
      by_cases hpid : pid' = pid
      · subst hpid
        rw [hself] at hp'
        cases hp'
        cases hcall
        refine ⟨hoffered, ?_⟩
        rcases hconsiderate.asks (by rw [clients_sends_self]; exact hself) rfl with
          ⟨p₀, hp₀, hcall₀⟩ | hsensible
        · rw [hp] at hp₀
          cases hp₀
          rw [hidle] at hcall₀
          cases hcall₀
        · exact hsensible
      · simp only [Tclmc.ask, Function.update_of_ne hpid] at hp'
        exact h.calls hp' hcall
  | register =>
      exact h.sends hsound (fun hp hcall => h.calls hp hcall) fun heq => by cases heq
  | @leave c pid p hp hidle =>
      have hgone : ((s.clients c).leave pid).processes pid = none := Function.update_self ..
      refine h.sends hsound (fun {pid'} _ _ _ hp' hcall => ?_) fun heq hst => ?_
      · by_cases hpid : pid' = pid
        · rw [hpid, hgone] at hp'
          cases hp'
        · simp only [Tclmc.leave, Function.update_of_ne hpid] at hp'
          exact h.calls hp' hcall
      · cases heq
        have hlocks := hconsiderate.leaves hp (by rw [clients_sends_self]; exact hgone)
        obtain ⟨hstanding, -⟩ := h.sound.idle hp hidle
        rw [hstanding, hlocks] at hst
        cases hst
        rfl
  | serve hq hserve => exact h.serve hq hserve
  | receive hr => exact h.receive hr

-- ============================================================================
-- When all messages have arrived
-- ============================================================================

theorem Silent.view (h : s.Silent) (pid : UInt32) (k : Conn) :
    s.view pid k = ⟨(s.clients k).processes pid, [], []⟩ := by
  rw [Cluster.view, h.toServer, h.toClient]
  rfl

/-- When all messages have arrived a user is idle or waits. -/
theorem Orderly.settled (h : s.Orderly) (hsilent : s.Silent) {pid : UInt32} {p : ProcessImpl}
    (hp : (s.clients c).processes pid = some p) :
    ∃ waits, s.daemon.standing pid = some ⟨p.locks, waits, some c⟩ ∧
      ∀ hd q, p.call = some (hd, q) → ∃ t, waits = {t} ∧ Queues q t := by
  obtain ⟨held, waits, hst, hphase, -⟩ := h.sound.phase hp
  rw [hsilent.view] at hphase
  change Phase pid p held waits [] [] at hphase
  generalize hqs : ([] : List Request) = qs at hphase
  generalize hrs : ([] : List Reply) = rs at hphase
  cases hphase with
  | idle hcall hheld =>
      refine ⟨waits, by rw [hst, hheld], fun hd q hcall' => ?_⟩
      rw [hcall] at hcall'
      cases hcall'
  | asked => cases hqs
  | told => exact absurd hrs.symm (by simp)
  | waiting hcall _ hqueues hheld hwaits =>
      refine ⟨waits, by rw [hst, hheld], fun hd q hcall' => ?_⟩
      rw [hcall] at hcall'
      cases hcall'
      exact ⟨_, hwaits, hqueues⟩
  | stuck hcall _ _ hodd => exact absurd (h.calls hp hcall).2.1 hodd

/-- When all messages have arrived every lock that is held is one that a user knows of. -/
theorem Orderly.known (h : s.Orderly) (hsilent : s.Silent) {x : ProcessRef} {a : HeldLock}
    (ha : a ∈ s.daemon.backend.forest.holdings x) :
    ∃ k pid p, (s.clients k).processes pid = some p ∧ a ∈ p.locks := by
  obtain ⟨pid, o, ho, rfl⟩ : ∃ pid o, s.daemon.backend.processes.lookup pid = some o ∧
      o.object = x := by
    by_contra hnone
    have hclean := (h.clean x fun pid o ho hobj => hnone ⟨pid, o, ho, hobj⟩).2
    rw [hclean] at ha
    exact Multiset.notMem_zero a ha
  obtain ⟨k, hknown, -⟩ := h.sound.seats pid
  have hst := Daemon.standing_of_lookup ho
  rw [hsilent.view] at hknown
  cases hprocess : (s.clients k).processes pid with
  | none =>
      rw [hprocess] at hknown
      generalize s.daemon.standing pid = st at hknown hst
      cases hknown
      cases hst
  | some p =>
      obtain ⟨waits, hst', -⟩ := h.settled hsilent hprocess
      obtain ⟨hheld, -⟩ := Daemon.Standing.mk.inj (Option.some.inj (hst.symm.trans hst'))
      exact ⟨k, pid, p, hprocess, hheld ▸ ha⟩

/-- When all messages have arrived, a call that has not returned waits at the daemon, and some
    user has the lock at which it waits, or a lock below. -/
theorem Orderly.waits_for_lock (h : s.Orderly) (hsilent : s.Silent) {pid : UInt32}
    {p : ProcessImpl} {hd : Handle} (hp : (s.clients c).processes pid = some p)
    (hcall : p.call = some (hd, q)) : WaitsForUser s.daemon s.clients c pid p q := by
  obtain ⟨waits, hst, hwaits⟩ := h.settled hsilent hp
  obtain ⟨t, rfl, hqueues⟩ := hwaits hd q hcall
  obtain ⟨o, ho, -, howaits, -⟩ := Daemon.standing_eq_some.mp hst
  have ht : t ∈ s.daemon.backend.forest.waits o.object := by
    rw [howaits]
    exact Multiset.mem_singleton_self t
  obtain ⟨π, ρ, x, m, hne, hprefix, hqueued, hheld⟩ := h.backend.held_of_waits ht
  obtain ⟨k, pid', p', hp', hmem⟩ := h.known hsilent hheld
  rw [path_of_queues hqueues] at hprefix
  exact ⟨t, π, hst, hqueues, hne, hprefix, ⟨o, ho, hqueued⟩, k, pid', p', ρ, m, hp', hmem⟩

-- ============================================================================
-- Messages arrive
-- ============================================================================

/-- Finitely many channels are in use. -/
structure Supported (s : Cluster) : Prop where
  toServer : ∃ C : Finset Conn, ∀ k, k ∉ C → s.toServer k = []
  toClient : ∃ C : Finset Conn, ∀ k, k ∉ C → s.toClient k = []

theorem supported_init : Supported {} := ⟨⟨∅, fun _ _ => rfl⟩, ⟨∅, fun _ _ => rfl⟩⟩

/-- Replies go out on finitely many connections. -/
theorem supported_replies (h : ∃ C : Finset Conn, ∀ k, k ∉ C → s.toClient k = [])
    (rs : List (Conn × Reply)) :
    ∃ C : Finset Conn, ∀ k, k ∉ C → s.toClient k ++ Daemon.repliesOn k rs = [] := by
  obtain ⟨C, hC⟩ := h
  refine ⟨C ∪ (rs.map Prod.fst).toFinset, fun k hk => ?_⟩
  rw [Finset.mem_union, not_or, List.mem_toFinset] at hk
  rw [hC k hk.1, List.nil_append, List.eq_nil_iff_forall_not_mem]
  exact fun r hr => hk.2 (List.mem_map_of_mem (Daemon.mem_repliesOn.mp hr))

theorem Supported.sends (h : s.Supported) (client : Tclmc) : (s.sends c client q).Supported := by
  obtain ⟨C, hC⟩ := h.toServer
  refine ⟨⟨insert c C, fun k hk => ?_⟩, h.toClient⟩
  rw [Finset.mem_insert, not_or] at hk
  rw [toServer_sends_ne _ _ _ _ hk.1]
  exact hC k hk.2

theorem Supported.step (h : s.Supported) {e : ClusterEvent} (hstep : Step s e s') :
    s'.Supported := by
  -- a channel that gets shorter needs no new place
  have hshort : ∀ {α : Type} {channels : Conn → List α} {k : Conn} {a : α} {rest : List α},
      (∃ C : Finset Conn, ∀ k, k ∉ C → channels k = []) → channels k = a :: rest →
      ∃ C : Finset Conn, ∀ k', k' ∉ C → Function.update channels k rest k' = [] := by
    rintro α channels k a rest ⟨C, hC⟩ hk
    refine ⟨C, fun k' hk' => ?_⟩
    have hne : k' ≠ k := by
      rintro rfl
      rw [hC k' hk'] at hk
      cases hk
    rw [Function.update_of_ne hne]
    exact hC k' hk'
  cases hstep with
  | ask | register | leave => exact h.sends _
  | serve hq => exact ⟨hshort h.toServer hq, supported_replies h.toClient _⟩
  | receive hr => exact ⟨h.toServer, hshort h.toClient hr⟩

/-- A request that has come in can be served. -/
theorem Orderly.serves_next (h : s.Orderly) (hs : s.Supported) {C : Finset Conn}
    (hC : ∀ k, k ∉ C → s.toServer k = []) (hload : Lts.load C s.toServer ≠ 0) :
    ∃ e s', PassiveStep s e s' ∧ (s'.Orderly ∧ s'.Supported ∧ ∀ k, k ∉ C → s'.toServer k = []) ∧
      Lts.load C s'.toServer < Lts.load C s.toServer := by
  obtain ⟨k, hk, q, rest, hq⟩ := Lts.exists_of_load_ne_zero hload
  obtain ⟨rs, d', hserve⟩ := Daemon.exchange_ok k h.kept (h.sound.backend_ready hq)
  have hstep : Step s _ (s.serves k rest rs d') := .serve hq hserve
  refine ⟨_, _, ⟨hstep, Passive.refl _⟩, ⟨h.serve hq hserve, hs.step hstep, fun k' hk' => ?_⟩,
    Lts.load_update_lt hk hq⟩
  have hne : k' ≠ k := fun heq => hk' (heq ▸ hk)
  show Function.update s.toServer k rest k' = []
  rw [Function.update_of_ne hne]
  exact hC k' hk'

/-- A reply that has come in can be taken. -/
theorem Orderly.receives_next (h : s.Orderly) (hserver : ∀ k, s.toServer k = []) {C : Finset Conn}
    (hC : ∀ k, k ∉ C → s.toClient k = []) (hload : Lts.load C s.toClient ≠ 0) :
    ∃ e s', PassiveStep s e s' ∧
      (s'.Orderly ∧ (∀ k, s'.toServer k = []) ∧ ∀ k, k ∉ C → s'.toClient k = []) ∧
      Lts.load C s'.toClient < Lts.load C s.toClient := by
  obtain ⟨k, hk, r, rest, hr⟩ := Lts.exists_of_load_ne_zero hload
  have hstep : Step s _ (s.receives k r rest) := .receive hr
  refine ⟨_, _, ⟨hstep, passive_receives⟩, ⟨h.receive hr, hserver, fun k' hk' => ?_⟩,
    Lts.load_update_lt hk hr⟩
  have hne : k' ≠ k := fun heq => hk' (heq ▸ hk)
  rw [toClient_receives_ne hne]
  exact hC k' hk'

/-- All messages can arrive, first the requests, then the replies. -/
theorem Orderly.runs_dry (h : s.Orderly) (hs : s.Supported) :
    ∃ es s', Lts.Trace PassiveStep s es s' ∧ s'.Orderly ∧ s'.Silent := by
  obtain ⟨C, hC⟩ := hs.toServer
  obtain ⟨es₁, s₁, hrun₁, ⟨h₁, hs₁, hC₁⟩, hload₁⟩ := Lts.exists_trace_of_descent
    (fun s : Cluster => s.Orderly ∧ s.Supported ∧ ∀ k, k ∉ C → s.toServer k = [])
    (fun s : Cluster => Lts.load C s.toServer)
    (fun _ hs hload => hs.1.serves_next hs.2.1 hs.2.2 hload) ⟨h, hs, hC⟩
  have hserver := Lts.eq_nil_of_load_eq_zero hload₁ hC₁
  obtain ⟨D, hD⟩ := hs₁.toClient
  obtain ⟨es₂, s₂, hrun₂, ⟨h₂, hserver₂, hD₂⟩, hload₂⟩ := Lts.exists_trace_of_descent
    (fun s : Cluster => s.Orderly ∧ (∀ k, s.toServer k = []) ∧ ∀ k, k ∉ D → s.toClient k = [])
    (fun s : Cluster => Lts.load D s.toClient)
    (fun _ hs hload => hs.1.receives_next hs.2.1 hs.2.2 hload) ⟨h₁, hserver, hD⟩
  exact ⟨es₁ ++ es₂, s₂, hrun₁.append hrun₂, h₂,
    ⟨hserver₂, Lts.eq_nil_of_load_eq_zero hload₂ hD₂⟩⟩

end Cluster

end Tclm.System
