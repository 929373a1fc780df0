/-
  Tclm.System.Guarantees

  What the users of a deployment can rely on, when a process is used for one call at a time.

  - Locks that two of them have exclude each other as the daemon's locks do.
  - A call returns once its request is carried out, with what the daemon did.
  - Between calls a user knows exactly what his process has.
  - A call that does not return is in one place on its way.
-/

import Tclm.Server.Frame
import Tclm.System.Considerate
import Tclm.System.Deployment

open Tclm.Comm
open Tclm.Client
open Tclm.Server

namespace Tclm.Server.LockForest

/-- The locks that two processes hold on one line of a tree are compatible. -/
theorem Sound.compatible_holdings {f : LockForest} (hf : f.Sound) {p q : ProcessRef} (hpq : p ≠ q)
    {π ρ : LockPath} {m m' : Mode} (hp : (π, m.toByte) ∈ f.holdings p)
    (hq : (π ++ ρ, m'.toByte) ∈ f.holdings q) : m.compatible m' = true := by
  obtain ⟨x, hx, hxpath, m₁, hm₁, hxholds⟩ := mem_holdings.mp hp
  obtain ⟨y, hy, hypath, m₂, hm₂, hyholds⟩ := mem_holdings.mp hq
  obtain rfl := Mode.toByte_injective hm₁
  obtain rfl := Mode.toByte_injective hm₂
  obtain ⟨c, l, hl, hmem⟩ := mem_nodes.mp hx
  obtain ⟨σ, haddr, hfind⟩ := NamedTree.find_of_mem_nodes l (hf.unique c l hl) hmem
  have hbelow : NamedTree.find ρ x.2 = some y.2 := by
    have hnode := hf.node?_of_mem hy
    have hpath : y.1 = c :: (σ ++ ρ) := by rw [hypath, ← hxpath, haddr]; rfl
    rw [hpath, node?, hl] at hnode
    have hfound : NamedTree.find (σ ++ ρ) l = some y.2 := hnode
    rw [NamedTree.find_append, hfind] at hfound
    exact hfound
  have hcov : Lock.Covered x.1 x.2 := fun z hz =>
    hf.covered c l hl z (NamedTree.nodes_trans l hmem hz)
  exact Lock.compatible_of_holds hcov (hf.compat c l hl x hmem)
    (NamedTree.mem_nodes_of_find hbelow) hpq hxholds hyholds

end Tclm.Server.LockForest

namespace Tclm.System

/-- The request of a process that waits is the one its user has made. -/
theorem Phase.queues_of_mem {pid : UInt32} {p : ProcessImpl} {held : Multiset HeldLock}
    {waits : Multiset Ticket} {qs : List Request} {rs : List Reply} (h : Phase pid p held waits qs rs) {hd : Handle}
    {q : Request} (hcall : p.call = some (hd, q)) {t : Ticket} (ht : t ∈ waits) : Queues q t := by
  cases h with
  | idle _ _ hwaits | asked _ _ _ hwaits | told _ _ _ _ hwaits | stuck _ _ _ _ _ hwaits =>
      rw [hwaits] at ht
      exact absurd ht (Multiset.notMem_zero t)
  | waiting hcall' _ hqueues _ hwaits =>
      rw [hcall] at hcall'
      cases hcall'
      rw [hwaits] at ht
      rw [Multiset.mem_singleton.mp ht]
      exact hqueues

namespace Cluster

variable {s s' : Cluster} {c : Conn} {pid : UInt32} {p : ProcessImpl}

/-- No two users have the same process. -/
theorem Sound.one_user (h : s.Sound) {k : Conn} {p' : ProcessImpl}
    (hp : (s.clients c).processes pid = some p) (hp' : (s.clients k).processes pid = some p') :
    k = c := by
  obtain ⟨held, waits, -, -, hothers⟩ := h.phase hp
  by_contra hk
  have hblank := congrArg View.process (hothers k hk)
  rw [view, hp'] at hblank
  cases hblank

/-- Locks that two users have on one line of a tree are compatible. -/
theorem Sound.exclusive (h : s.Sound) {c' : Conn} {pid' : UInt32} {p' : ProcessImpl}
    (hne : (c, pid) ≠ (c', pid')) (hp : (s.clients c).processes pid = some p)
    (hp' : (s.clients c').processes pid' = some p') {π ρ : LockPath} {m m' : Mode}
    (hm : (π, m.toByte) ∈ p.locks) (hm' : (π ++ ρ, m'.toByte) ∈ p'.locks) :
    m.compatible m' = true := by
  have hpid : pid ≠ pid' := by
    rintro rfl
    exact hne (by rw [h.one_user hp hp'])
  obtain ⟨held, waits, hst, hphase, -⟩ := h.phase hp
  obtain ⟨held', waits', hst', hphase', -⟩ := h.phase hp'
  obtain ⟨o, ho, hheld, -, -⟩ := Daemon.standing_eq_some.mp hst
  obtain ⟨o', ho', hheld', -, -⟩ := Daemon.standing_eq_some.mp hst'
  have hobjects : o.object ≠ o'.object := fun heq =>
    hpid (h.daemon.backend.registry.distinct.unique ho ho' heq)
  refine h.daemon.backend.forest_sound.compatible_holdings hobjects (π := π) (ρ := ρ) ?_ ?_
  · rw [hheld]
    exact Multiset.mem_of_le hphase.locks_le hm
  · rw [hheld']
    exact Multiset.mem_of_le hphase'.locks_le hm'

-- ============================================================================
-- Calls that return
-- ============================================================================

/-- A user whose request was answered under another path gets no answer. -/
theorem Sound.accept_of_odd (h : s.Sound) {r : Reply} {hd : Handle} {q : Request} {t : Ticket}
    {status : UInt16} {early late : List Reply} (hp : (s.clients c).processes pid = some p)
    (hcall : p.call = some (hd, q)) (hearly : Early q early) (hqueues : Queues q t)
    (hodd : ¬ Canonical q) (hlate : late = [] ∨ late = [t.reply pid status])
    (hr : r ∈ early ++ late) : (s.clients c).accept r = s.clients c := by
  rcases List.mem_append.mp hr with hr | hr
  · rcases hearly with rfl | ⟨rfl, t', hqueues'⟩
    · cases hr
    · rw [List.mem_singleton.mp hr]
      exact Tclmc.accept_of_queued hqueues'
  · rcases hlate with rfl | rfl
    · cases hr
    · rw [List.mem_singleton.mp hr]
      exact h.unknown hp hcall hqueues hodd status

/-- Calls return when a message comes in. -/
theorem Step.received_of_idle {e : ClusterEvent} (hstep : Step s e s') {p' : ProcessImpl}
    (hp : (s.clients c).processes pid = some p) (hbusy : p.call ≠ none)
    (hp' : (s'.clients c).processes pid = some p') (hidle : p'.call = none) :
    ∃ r rest, e = .received c r ∧ s.toClient c = r :: rest ∧ s' = s.receives c r rest := by
  have hchanged : (s'.clients c).processes pid ≠ (s.clients c).processes pid := by
    intro heq
    rw [hp, hp'] at heq
    cases heq
    exact hbusy hidle
  -- a user who does something else does not wait
  have hsends : ∀ (pid₁ : UInt32) {c₁ : Conn} {client : Tclmc} {q₁ : Request},
      s' = s.sends c₁ client q₁ →
      (∀ x, x ≠ pid₁ → client.processes x = (s.clients c₁).processes x) →
      (∀ p₁, client.processes pid₁ = some p₁ → p₁.call ≠ none) → False := by
    rintro pid₁ c₁ client q₁ rfl hothers hown
    by_cases hc : c = c₁
    · subst hc
      rw [clients_sends_self] at hp' hchanged
      by_cases hpid : pid = pid₁
      · subst hpid
        exact hown p' hp' hidle
      · exact hchanged (hothers pid hpid)
    · exact hchanged (by rw [clients_sends_ne _ _ _ _ hc])
  cases hstep with
  | @ask c₁ pid₁ p₁ q₁ =>
      refine (hsends pid₁ rfl (fun x hx => ?_) fun p₂ hp₂ => ?_).elim
      · exact Function.update_of_ne hx ..
      · simp only [Tclmc.ask, Function.update_self] at hp₂
        cases hp₂
        exact Option.some_ne_none _
  | @register c₁ =>
      by_cases hc : c = c₁
      · subst hc
        rw [clients_sends_self] at hchanged
        exact absurd rfl hchanged
      · exact absurd (by rw [clients_sends_ne _ _ _ _ hc]) hchanged
  | @leave c₁ pid₁ =>
      refine (hsends pid₁ rfl (fun x hx => ?_) fun p₂ hp₂ => ?_).elim
      · exact Function.update_of_ne hx ..
      · simp only [Tclmc.leave, Function.update_self] at hp₂
        cases hp₂
  | serve => exact absurd rfl hchanged
  | @receive c₁ r rest hr =>
      obtain rfl : c = c₁ := by
        by_contra hc
        have hsame : (s.receives c₁ r rest).clients c = s.clients c := clients_receives_ne hc
        exact hchanged (congrArg (Tclmc.processes · pid) hsame)
      exact ⟨r, rest, rfl, hr, rfl⟩

/-- A call that returns has been carried out: the daemon has for the process exactly what its
    user has now. -/
theorem Sound.returned (h : s.Sound) {e : ClusterEvent} (hstep : Step s e s') {hd : Handle}
    {q : Request} {p' : ProcessImpl} (hp : (s.clients c).processes pid = some p)
    (hcall : p.call = some (hd, q)) (hp' : (s'.clients c).processes pid = some p')
    (hidle : p'.call = none) :
    ∃ status, e = .received c (q.reply status) ∧ Final q status ∧
      p'.locks = p.locks + obtained q status ∧
      s'.daemon.standing pid = some ⟨p'.locks, 0, some c⟩ := by
  have hbusy : p.call ≠ none := by
    rw [hcall]
    exact Option.some_ne_none _
  obtain ⟨hstanding, hview, -⟩ := (h.step hstep).idle hp' hidle
  obtain ⟨r, rest, rfl, hr, rfl⟩ := hstep.received_of_idle hp hbusy hp' hidle
  have hheard := h.heard hr
  rw [clients_receives_self] at hp'
  have hchanged : (s.clients c).accept r ≠ s.clients c := by
    intro heq
    rw [heq, hp] at hp'
    cases hp'
    exact hbusy hidle
  have hpid : r.process = some pid := by
    by_contra hne
    rw [hheard.others pid hne, hp] at hp'
    cases hp'
    exact hbusy hidle
  -- the reply was the only message about the process
  obtain ⟨rs, hold, hnew⟩ := view_receives hr pid
  rw [if_pos hpid] at hold
  rw [hnew] at hview
  obtain rfl : rs = [] := congrArg View.replies hview
  obtain ⟨held, waits, hst, hphase, -⟩ := h.phase hp
  have hsame : s.daemon.standing pid = some ⟨p'.locks, 0, some c⟩ := hstanding
  rw [hst] at hsame
  obtain ⟨hheld, hwaits, -⟩ := Daemon.Standing.mk.inj (Option.some.inj hsame)
  generalize (s.view pid c).requests = qs at hphase
  generalize (s.view pid c).replies = replies at hphase hold
  cases hphase with
  | idle | asked => cases hold
  | @told h' q' status early hcall' hearly hfinal hheld' =>
      rw [hcall] at hcall'
      cases hcall'
      rcases hearly with rfl | ⟨rfl, -⟩
      · cases hold
        refine ⟨status, rfl, hfinal, ?_, hstanding⟩
        rw [← hheld, hheld', obtained_eq_gains]
      · cases hold
  | @waiting h' q' t _ _ _ _ _ hwaits' =>
      rw [hwaits] at hwaits'
      exact absurd hwaits'.symm (Multiset.singleton_ne_zero t)
  | stuck hcall' hearly hqueues hodd _ _ hlate =>
      refine absurd (h.accept_of_odd hp hcall' hearly hqueues hodd hlate ?_) hchanged
      rw [hold]
      exact List.mem_cons_self

-- ============================================================================
-- Calls that have not returned
-- ============================================================================

/-- The reply lets the call of a request return. -/
def Answers (q : Request) (r : Reply) : Prop :=
  r = q.reply (statusOf r) ∧ statusOf r ≠ ResponseStatus.queued

instance (q : Request) : DecidablePred (Answers q) := fun r =>
  inferInstanceAs (Decidable (r = q.reply (statusOf r) ∧ statusOf r ≠ ResponseStatus.queued))

section Answers

variable {q : Request} {t : Ticket} {status : UInt16} {rs : List Reply}

theorem answers_reply (hlock : q.lockProcess = some pid) (hfinal : Final q status) :
    Answers q (q.reply status) := by
  have hst : statusOf (q.reply status) = status := statusOf_reply hlock
  rw [Answers, hst]
  exact ⟨rfl, ne_queued_of_final hfinal⟩

theorem countP_early (hlock : q.lockProcess = some pid) (hearly : Early q rs) :
    rs.countP (Answers q ·) = 0 := by
  apply List.countP_eq_zero.mpr
  intro r hr
  rcases hearly with rfl | ⟨rfl, -⟩
  · cases hr
  · rw [List.mem_singleton.mp hr, decide_eq_true_eq, Answers, statusOf_reply hlock]
    exact fun h => h.2 rfl

/-- An answer under another path lets nothing return. -/
theorem not_answers_of_odd (hlock : q.lockProcess = some pid) (hqueues : Queues q t)
    (hodd : ¬ Canonical q) : ¬ Answers q (t.reply pid status) := by
  rintro ⟨heq, -⟩
  cases q with
  | registerProcess | unregisterProcess | releaseLock => cases hqueues
  | createLock pid' path acquireX =>
      cases acquireX with
      | false => cases hqueues
      | true =>
          rw [Ticket.reply, if_pos hqueues.1, hqueues.2.1] at heq
          exact hodd (Reply.createUpdate.inj heq).2.1
  | acquireLock pid' path mode =>
      rw [Ticket.reply, if_neg (by rw [hqueues.1]; exact Bool.false_ne_true), hqueues.2.1] at heq
      exact hodd (Reply.acquireUpdate.inj heq).2.1

end Answers

/-- A call that has not returned is in one place: its request is on the way, or waits in a
    queue, or its answer is on the way.  Only a request whose path is written in another way
    than the daemon writes it can be in none, when it has waited. -/
theorem Sound.one_place (h : s.Sound) {hd : Handle} {q : Request}
    (hp : (s.clients c).processes pid = some p) (hcall : p.call = some (hd, q)) :
    ∃ held waits, s.daemon.standing pid = some ⟨held, waits, some c⟩ ∧
      (∀ t ∈ waits, Queues q t) ∧
      ((s.toServer c).count q + (s.toClient c).countP (Answers q ·) + waits.card = 1 ∨
        ¬ Canonical q ∧ (∃ t, Queues q t) ∧
          (s.toServer c).count q + (s.toClient c).countP (Answers q ·) + waits.card = 0) ∧
      ∀ k, k ≠ c → (∀ q' ∈ s.toServer k, q'.process ≠ some pid) ∧
        ∀ r ∈ s.toClient k, r.process ≠ some pid := by
  have hlock := (h.tidy c).own ⟨p, hp, hcall⟩
  obtain ⟨held, waits, hst, hphase, hothers⟩ := h.phase hp
  have hrequests : (s.toServer c).count q = (s.view pid c).requests.count q := by
    rw [view, List.count_filter]
    rw [decide_eq_true_eq]
    exact Request.process_of_lockProcess hlock
  have hreplies : (s.toClient c).countP (Answers q ·) =
      (s.view pid c).replies.countP (Answers q ·) := by
    rw [view, List.countP_filter]
    refine List.countP_congr fun r _ => ?_
    have hown : Answers q r → r.process = some pid := fun hr => by
      rw [hr.1]
      exact (reply_kind hlock _).1
    simpa using hown
  refine ⟨held, waits, hst, ?_, ?_, fun k hk => ?_⟩
  · exact fun t ht => hphase.queues_of_mem hcall ht
  · rw [hrequests, hreplies]
    generalize (s.view pid c).requests = qs at hphase
    generalize (s.view pid c).replies = rs at hphase
    cases hphase with
    | idle hcall' =>
        rw [hcall] at hcall'
        cases hcall'
    | asked hcall' _ _ hwaits =>
        rw [hcall] at hcall'
        cases hcall'
        rw [hwaits]
        exact .inl (by simp)
    | told hcall' hearly hfinal _ hwaits =>
        rw [hcall] at hcall'
        cases hcall'
        rw [hwaits, List.countP_append, countP_early hlock hearly]
        exact .inl (by simp [answers_reply hlock hfinal])
    | waiting hcall' hearly _ _ hwaits =>
        rw [hcall] at hcall'
        cases hcall'
        rw [hwaits, countP_early hlock hearly]
        exact .inl (by simp)
    | @stuck _ _ t status _ late hcall' hearly hqueues hodd _ hwaits hlate =>
        rw [hcall] at hcall'
        cases hcall'
        refine .inr ⟨hodd, ⟨t, hqueues⟩, ?_⟩
        rw [hwaits, List.countP_append, countP_early hlock hearly]
        rcases hlate with rfl | rfl
        · simp
        · simp [not_answers_of_odd hlock hqueues hodd]
  · have hblank := hothers k hk
    refine ⟨fun q' hq' hpid => ?_, fun r hr hpid => ?_⟩
    · have hmem : q' ∈ (s.view pid k).requests := List.mem_filter.mpr ⟨hq', by simpa using hpid⟩
      rw [hblank] at hmem
      cases hmem
    · have hmem : r ∈ (s.view pid k).replies := List.mem_filter.mpr ⟨hr, by simpa using hpid⟩
      rw [hblank] at hmem
      cases hmem

/-- A process of the daemon is known to one client, or its first or its last message is on the
    way. -/
theorem Sound.known (h : s.Sound) {st : Daemon.Standing} (hst : s.daemon.standing pid = some st) :
    ∃ k, st.conn = some k ∧
      ((∃ p, (s.clients k).processes pid = some p) ∨
        (∃ nonce, .registered nonce ResponseStatus.success (some pid) ∈ s.toClient k) ∨
        .unregisterProcess pid ∈ s.toServer k) ∧
      ∀ k', k' ≠ k → (s.clients k').processes pid = none := by
  obtain ⟨k, hseat, hothers⟩ := h.seats pid
  rw [hst] at hseat
  have hrequests : ∀ q ∈ (s.view pid k).requests, q ∈ s.toServer k :=
    fun q hq => List.mem_of_mem_filter hq
  have hreplies : ∀ r ∈ (s.view pid k).replies, r ∈ s.toClient k :=
    fun r hr => List.mem_of_mem_filter hr
  have hprocess : (s.view pid k).process = (s.clients k).processes pid := rfl
  generalize s.view pid k = v at hseat hrequests hreplies hprocess
  refine ⟨k, ?_, ?_, fun k' hk' => congrArg View.process (hothers k' hk')⟩
  · cases hseat with
    | coming | live | leaving => rfl
  · cases hseat with
    | coming => exact .inr (.inl ⟨_, hreplies _ List.mem_cons_self⟩)
    | live => exact .inl ⟨_, hprocess.symm⟩
    | leaving => exact .inr (.inr (hrequests _ List.mem_cons_self))

-- ============================================================================
-- Runs of one client
-- ============================================================================

/-- The cluster after a request and its reply, when nothing else is on its way. -/
def exchanged (s : Cluster) (client : Tclmc) (q : Request) (r : Reply) : Cluster :=
  { s with
    clients := Function.update s.clients 0 (client.accept r)
    daemon := s.daemon.next 0 q }

/-- The daemon has taken the request of a client, and the reply is on its way. -/
def replied (s : Cluster) (client : Tclmc) (q : Request) (r : Reply) : Cluster :=
  { s with
    clients := Function.update s.clients 0 client
    daemon := s.daemon.next 0 q
    toClient := Function.update s.toClient 0 [r] }

section Runs

variable {client : Tclmc} {q : Request} {r : Reply}

theorem reachable_replied (h : Lts.Reachable CarefulStep {} s) (hsilent : s.Silent)
    {e : ClusterEvent} (hsend : CarefulStep s e (s.sends 0 client q))
    (hanswer : s.daemon.answerTo 0 q = some (r, ∅)) :
    Lts.Reachable CarefulStep {} (s.replied client q r) := by
  have hq : (s.sends 0 client q).toServer 0 = [q] := by
    rw [toServer_sends_self, hsilent.toServer, List.nil_append]
  have hserve := Step.serve hq (.mk (Daemon.respond_of_answerTo hanswer) List.nodup_nil
    List.toFinset_nil)
  have hserver' : Function.update (s.sends 0 client q).toServer 0 [] = s.toServer := by
    show Function.update (Function.update s.toServer 0 _) 0 [] = _
    rw [Function.update_idem, ← hsilent.toServer 0, Function.update_eq_self]
  have hclient' : (fun k => (s.sends 0 client q).toClient k ++ Daemon.repliesOn k
      ((0, r) :: (s.daemon.next 0 q).updates [])) = Function.update s.toClient 0 [r] := by
    funext k
    rw [Daemon.repliesOn_cons]
    by_cases hk : k = 0
    · subst hk
      rw [Function.update_self, if_pos rfl, toClient_sends, hsilent.toClient]
      rfl
    · rw [Function.update_of_ne hk, if_neg (Ne.symm hk), toClient_sends]
      exact List.append_nil _
  rw [hserver', daemon_sends, hclient'] at hserve
  exact (h.next hsend).next ⟨hserve, Considerate.refl _ _⟩

theorem step_replied (s : Cluster) (client : Tclmc) (q : Request) (r : Reply)
    (hclient : s.toClient 0 = []) :
    CarefulStep (s.replied client q r) (.received 0 r) (s.exchanged client q r) := by
  have hr : (s.replied client q r).toClient 0 = [r] := by simp [replied]
  have hs : (s.replied client q r).receives 0 r [] = s.exchanged client q r := by
    have hself : (s.replied client q r).clients 0 = client := by simp [replied]
    have hclients : Function.update (s.replied client q r).clients 0 (client.accept r) =
        Function.update s.clients 0 (client.accept r) := Function.update_idem ..
    have hchannel : Function.update (s.replied client q r).toClient 0 [] = s.toClient := by
      show Function.update (Function.update s.toClient 0 [r]) 0 [] = _
      rw [Function.update_idem, ← hclient, Function.update_eq_self]
    rw [receives, hself, hclients, hchannel]
    rfl
  rw [← hs]
  exact ⟨.receive hr, passive_receives.considerate _⟩

/-- A state of a run with considerate users in which all messages have arrived. -/
structure Quiet (s : Cluster) : Prop extends Silent s where
  reachable : Lts.Reachable CarefulStep {} s

theorem quiet_init : Quiet {} := ⟨⟨fun _ => rfl, fun _ => rfl⟩, Lts.Reachable.refl _⟩

theorem Quiet.exchanged (h : s.Quiet) {e : ClusterEvent}
    (hsend : CarefulStep s e (s.sends 0 client q))
    (hanswer : s.daemon.answerTo 0 q = some (r, ∅)) : (s.exchanged client q r).Quiet :=
  ⟨⟨h.toServer, h.toClient⟩, (reachable_replied h.reachable h.toSilent hsend hanswer).next
    (step_replied s client q r (h.toClient 0))⟩

/-- A process registers. -/
def enroll (s : Cluster) (r : Reply) : Cluster :=
  s.exchanged (s.clients 0).register (nextRegistration (s.clients 0)) r

theorem Quiet.enroll (h : s.Quiet)
    (hanswer : s.daemon.answerTo 0 (nextRegistration (s.clients 0)) = some (r, ∅)) :
    (s.enroll r).Quiet := h.exchanged ⟨.register, considerate_register⟩ hanswer

/-- What a client has for the user of a process. -/
def user (s : Cluster) (pid : UInt32) : ProcessImpl := ((s.clients 0).processes pid).getD {}

/-- The user of a process makes a call. -/
def asking (s : Cluster) (pid : UInt32) (q : Request) : Tclmc := (s.clients 0).ask pid (s.user pid) q

/-- A process whose user may make the call. -/
def Idle (s : Cluster) (pid : UInt32) (q : Request) : Prop :=
  ((s.clients 0).processes pid).map (·.call.isNone) = some true ∧ q.lockProcess = some pid ∧
    q.path.length ≤ maxPathLength ∧ Sensible s.daemon q

instance (s : Cluster) (pid : UInt32) (q : Request) : Decidable (s.Idle pid q) :=
  inferInstanceAs (Decidable (_ ∧ _ ∧ _ ∧ _))

theorem Idle.step (h : s.Idle pid q) (hoffered : Offered q) :
    CarefulStep s (.asked 0 pid q) (s.sends 0 (s.asking pid q) q) := by
  obtain ⟨hidle, hlock, hpath, hsensible⟩ := h
  obtain ⟨p, hp, hnone⟩ := Option.map_eq_some_iff.mp hidle
  have huser : s.user pid = p := by rw [user, hp]; rfl
  rw [asking, huser]
  exact ⟨.ask hp (Option.isNone_iff_eq_none.mp hnone) hlock hoffered hpath, considerate_ask hsensible⟩

/-- A call with its reply. -/
def call (s : Cluster) (pid : UInt32) (q : Request) (r : Reply) : Cluster :=
  s.exchanged (s.asking pid q) q r

theorem Quiet.call (h : s.Quiet) (pid : UInt32) (q : Request) (r : Reply) (hidle : s.Idle pid q)
    (hoffered : Offered q) (hanswer : s.daemon.answerTo 0 q = some (r, ∅)) :
    (s.call pid q r).Quiet :=
  h.exchanged (hidle.step hoffered) hanswer

/-- Two processes register, the first one creates the lock `a` and gives it back. -/
def furnished : Cluster :=
  (((enroll {} (.registered 0 ResponseStatus.success (some 0))).enroll
    (.registered 1 ResponseStatus.success (some 1))).call 0 (.createLock 0 [0x61] true)
      (.createUpdate 0 [0x61] ResponseStatus.success)).call 0 (.releaseLock 0 [0x61] 2)
        (.released 0 [0x61] 2 ResponseStatus.success)

theorem quiet_furnished : furnished.Quiet := by
  have h₁ := quiet_init.enroll (r := .registered 0 ResponseStatus.success (some 0)) (by decide +kernel)
  have h₂ := h₁.enroll (r := .registered 1 ResponseStatus.success (some 1)) (by decide +kernel)
  have h₃ := h₂.call 0 (.createLock 0 [0x61] true)
    (.createUpdate 0 [0x61] ResponseStatus.success) (by decide +kernel) trivial (by decide +kernel)
  exact h₃.call _ _ _ (by decide +kernel) ⟨.X, rfl⟩ (by decide +kernel)

/-- Both processes hold `a` in mode S. -/
def sharing : Cluster :=
  (furnished.call 0 (.acquireLock 0 [0x61] 0) (.acquireUpdate 0 [0x61] 0 ResponseStatus.success)).call
    1 (.acquireLock 1 [0x61] 0) (.acquireUpdate 1 [0x61] 0 ResponseStatus.success)

theorem quiet_sharing : sharing.Quiet := by
  have h := quiet_furnished.call 0 (.acquireLock 0 [0x61] 0)
    (.acquireUpdate 0 [0x61] 0 ResponseStatus.success) (by decide +kernel) ⟨.S, rfl⟩
    (by decide +kernel)
  exact h.call _ _ _ (by decide +kernel) ⟨.S, rfl⟩ (by decide +kernel)

end Runs

end Cluster

-- ============================================================================
-- Deployments
-- ============================================================================

namespace Deployment

variable {s s' : Deployment} {c : Conn} {pid : UInt32} {p : ProcessImpl}

/-- Two users never count on locks that exclude each other, on one line of a tree. -/
theorem locks_exclude (h : s.Reachable) {c' : Conn} {pid' : UInt32} {p' : ProcessImpl}
    (hne : (c, pid) ≠ (c', pid')) (hp : (s.clients c).processes pid = some p)
    (hp' : (s.clients c').processes pid' = some p') {π ρ : LockPath} {m m' : Mode}
    (hm : (π, m.toByte) ∈ p.locks) (hm' : (π ++ ρ, m'.toByte) ∈ p'.locks) :
    m.compatible m' = true := by
  obtain ⟨t, -, hrefines⟩ := h.refines
  rw [hrefines.clients] at hp hp'
  exact hrefines.sound.exclusive hne hp hp' hm hm'

/-- Whatever modes the two processes have the lock `a` in, they are compatible. -/
theorem locks_exclude_sharing : ∃ (s : Deployment) (p p' : ProcessImpl), s.Reachable ∧
    (s.clients 0).processes 0 = some p ∧ (s.clients 0).processes 1 = some p' ∧
    ([[0x61]], Mode.S.toByte) ∈ p.locks ∧ ([[0x61]], Mode.S.toByte) ∈ p'.locks ∧
    ∀ m m' : Mode, ([[0x61]], m.toByte) ∈ p.locks → ([[0x61]], m'.toByte) ∈ p'.locks →
      m.compatible m' = true := by
  obtain ⟨s, hs, hrefines⟩ := realised (Cluster.reachable_of_careful Cluster.quiet_sharing.reachable)
  have hp : ∀ pid, (s.clients 0).processes pid = (Cluster.sharing.clients 0).processes pid :=
    fun pid => by rw [hrefines.clients]
  have hne : ((0, 0) : Conn × UInt32) ≠ (0, 1) := by decide
  have hlocks : ([[0x61]], Mode.S.toByte) ∈ (Cluster.sharing.user 0).locks ∧
      ([[0x61]], Mode.S.toByte) ∈ (Cluster.sharing.user 1).locks := by decide +kernel
  refine ⟨s, Cluster.sharing.user 0, Cluster.sharing.user 1, hs, (hp 0).trans rfl,
    (hp 1).trans rfl, hlocks.1, hlocks.2, fun m m' hm hm' => ?_⟩
  exact locks_exclude (π := [[0x61]]) (ρ := []) hs hne ((hp 0).trans rfl) ((hp 1).trans rfl) hm hm'

/-- A call that returns has been carried out, and says so: the reply with its status has come in,
    the request object is answered with this status, and its user knows again what the daemon has
    for the process.  Nobody is told that the process does not exist. -/
theorem return_carried_out (h : s.Reachable) {m : Motion} (hstep : Step s m s') {hd : Handle}
    {q : Request} {p' : ProcessImpl} (hp : (s.clients c).processes pid = some p)
    (hcall : p.call = some (hd, q)) (hp' : (s'.clients c).processes pid = some p')
    (hidle : p'.call = none) :
    ∃ input status ac input', Link.Step (s.down c) (.receive input) (s'.down c) ∧
      input.Carries (q.reply status).message ∧
      receiveMessageTcpInternal .little (s.clients c).session.ac input =
        .ok ((some ⟨hd, status, none⟩, ac), input') ∧
      Final q status ∧ thrown q status ≠ some .noSuchProcess ∧
      p'.locks = p.locks + obtained q status ∧
      s'.daemon.standing pid = some ⟨p'.locks, 0, some c⟩ := by
  obtain ⟨t, -, hrefines⟩ := h.refines
  cases m with
  | act =>
      obtain ⟨e, t', hstep', hrefines', hhears⟩ := hrefines.acts hstep
      rw [hrefines.clients] at hp ⊢
      rw [hrefines'.clients] at hp'
      obtain ⟨status, rfl, hfinal, hlocks, hstanding⟩ :=
        hrefines.sound.returned hstep' hp hcall hp' hidle
      obtain ⟨hwf, input, htake, hinput⟩ := hhears c _ rfl
      have hanswer := Tclmc.answer_final (hrefines.sound.tidy c) hp hcall (ne_queued_of_final hfinal)
      have hrun := hinput.run ((t.clients c).session.ac.gets_reply hwf)
      rw [← Prod.mk.eta (p := (t.clients c).session.ac.answer (q.reply status)), hanswer] at hrun
      exact ⟨input, status, _, _, htake, hinput, hrun, hfinal, thrown_of_final hfinal, hlocks,
        hrefines'.daemon ▸ hstanding⟩
  | move =>
      have hrefines' := deployment_simulates.internal hrefines hstep rfl
      rw [hrefines'.clients, ← hrefines.clients, hp] at hp'
      cases hp'
      rw [hidle] at hcall
      cases hcall

/-- The first process acquires the lock `a` in mode S. -/
theorem return_carried_out_furnished :
    ∃ (s s' : Deployment) (input : Stream) (status : UInt16), s.Reachable ∧ Step s .act s' ∧
      Link.Step (s.down 0) (.receive input) (s'.down 0) ∧
      input.Carries (Reply.acquireUpdate 0 [0x61] 0 status).message ∧
      Final (.acquireLock 0 [0x61] 0) status ∧
      s'.daemon.standing 0 = some ⟨obtained (.acquireLock 0 [0x61] 0) status, 0, some 0⟩ := by
  have hidle : Cluster.furnished.Idle 0 (.acquireLock 0 [0x61] 0) := by decide +kernel
  have hquiet := Cluster.quiet_furnished
  obtain ⟨s, ⟨es, hrun⟩, hrefines⟩ := realised (Cluster.reachable_of_careful
    (Cluster.reachable_replied hquiet.reachable hquiet.toSilent (hidle.step ⟨.S, rfl⟩)
      (r := .acquireUpdate 0 [0x61] 0 ResponseStatus.success) (by decide +kernel)))
  obtain ⟨es', s₁, s', hrun', -, hrefines₁, hact, hrefines'⟩ :=
    hrefines.realise (Cluster.step_replied _ _ _ _ (hquiet.toClient 0)).1
  have hreach : s₁.Reachable := ⟨_, hrun.append hrun'⟩
  have hp := congrFun (congrArg Tclmc.processes (congrFun hrefines₁.clients 0)) 0
  have hp' := congrFun (congrArg Tclmc.processes (congrFun hrefines'.clients 0)) 0
  obtain ⟨input, status, _, _, htake, hinput, -, hfinal, -, hlocks, hstanding⟩ :=
    return_carried_out hreach hact (hp.trans rfl) rfl (hp'.trans rfl) rfl
  refine ⟨s₁, s', input, status, hreach, hact, htake, hinput, hfinal, ?_⟩
  rw [hstanding, hlocks]
  exact congrArg (fun x => some (Daemon.Standing.mk x 0 (some 0))) (zero_add _)

/-- Between calls a user knows what his process has, and the process waits for nothing. -/
theorem idle_knows (h : s.Reachable) (hp : (s.clients c).processes pid = some p)
    (hidle : p.call = none) : s.daemon.standing pid = some ⟨p.locks, 0, some c⟩ := by
  obtain ⟨t, -, hrefines⟩ := h.refines
  rw [hrefines.clients] at hp
  rw [hrefines.daemon]
  exact (hrefines.sound.idle hp hidle).1

theorem idle_knows_sharing : ∃ s : Deployment, s.Reachable ∧
    s.daemon.standing 1 = some ⟨{([[0x61]], 0)}, 0, some 0⟩ := by
  obtain ⟨s, hs, hrefines⟩ := realised (Cluster.reachable_of_careful Cluster.quiet_sharing.reachable)
  have hp : (s.clients 0).processes 1 = (Cluster.sharing.clients 0).processes 1 := by
    rw [hrefines.clients]
  refine ⟨s, hs, ?_⟩
  rw [idle_knows hs (hp.trans rfl) rfl]
  have hlocks : (Cluster.sharing.user 1).locks = {([[0x61]], 0)} := by decide +kernel
  exact congrArg (fun x => some (Daemon.Standing.mk x 0 (some 0))) hlocks

/-- A call that has not returned is in exactly one place: its request or its answer is on the
    way, or the daemon has it wait; no message about the process is anywhere else.  Only a call
    with a path that is not written as the daemon writes it can be in none, after it has
    waited. -/
theorem call_in_one_place (h : s.Reachable) {hd : Handle} {q : Request}
    (hp : (s.clients c).processes pid = some p) (hcall : p.call = some (hd, q)) :
    ∃ t held waits, Refines s t ∧ s.daemon.standing pid = some ⟨held, waits, some c⟩ ∧
      (∀ x ∈ waits, Queues q x) ∧
      ((t.toServer c).count q + (t.toClient c).countP (Cluster.Answers q ·) + waits.card = 1 ∨
        ¬ Canonical q ∧ (∃ x, Queues q x) ∧
          (t.toServer c).count q + (t.toClient c).countP (Cluster.Answers q ·) + waits.card = 0) ∧
      ∀ k, k ≠ c → (∀ q' ∈ t.toServer k, q'.process ≠ some pid) ∧
        ∀ r ∈ t.toClient k, r.process ≠ some pid := by
  obtain ⟨t, -, hrefines⟩ := h.refines
  rw [hrefines.clients] at hp
  obtain ⟨held, waits, hst, hplace⟩ := hrefines.sound.one_place hp hcall
  exact ⟨t, held, waits, hrefines, hrefines.daemon ▸ hst, hplace⟩

/-- The answer to the first process is on the way. -/
theorem call_in_one_place_furnished :
    ∃ (s : Deployment) (t : Cluster) (held : Multiset HeldLock) (waits : Multiset Ticket),
      s.Reachable ∧ Refines s t ∧ s.daemon.standing 0 = some ⟨held, waits, some 0⟩ ∧
      (t.toServer 0).count (.acquireLock 0 [0x61] 0) +
        (t.toClient 0).countP (Cluster.Answers (.acquireLock 0 [0x61] 0) ·) + waits.card = 1 := by
  have hidle : Cluster.furnished.Idle 0 (.acquireLock 0 [0x61] 0) := by decide +kernel
  have hquiet := Cluster.quiet_furnished
  obtain ⟨s, hs, hrefines⟩ := realised (Cluster.reachable_of_careful
    (Cluster.reachable_replied hquiet.reachable hquiet.toSilent (hidle.step ⟨.S, rfl⟩)
      (r := .acquireUpdate 0 [0x61] 0 ResponseStatus.success) (by decide +kernel)))
  have hcanonical : Daemon.joinPath (splitPath [0x61]) = [0x61] := by decide
  have hp := congrFun (congrArg Tclmc.processes (congrFun hrefines.clients 0)) 0
  obtain ⟨t, held, waits, ht, hst, -, hplace | ⟨hodd, -⟩, -⟩ := call_in_one_place hs
    (hp.trans rfl) rfl
  · exact ⟨s, t, held, waits, hs, ht, hst, hplace⟩
  · exact absurd hcanonical hodd

/-- The daemon and the clients agree on the processes: each one that the daemon has is known to
    the client of its connection, and to no other one, unless its first or its last message is on
    the way. -/
theorem processes_agree (h : s.Reachable) :
    (∀ st, s.daemon.standing pid = some st → ∃ k t, st.conn = some k ∧ Refines s t ∧
      ((∃ p, (s.clients k).processes pid = some p) ∨
        (∃ nonce, .registered nonce ResponseStatus.success (some pid) ∈ t.toClient k) ∨
        .unregisterProcess pid ∈ t.toServer k) ∧
      ∀ k', k' ≠ k → (s.clients k').processes pid = none) ∧
      (s.daemon.standing pid = none → ∀ k, (s.clients k).processes pid = none) := by
  obtain ⟨t, -, hrefines⟩ := h.refines
  rw [hrefines.daemon, hrefines.clients]
  refine ⟨fun st hst => ?_, fun hnone k => ?_⟩
  · obtain ⟨k, hconn, hknown, hothers⟩ := hrefines.sound.known hst
    exact ⟨k, t, hconn, hrefines, hknown, hothers⟩
  · by_contra hsome
    obtain ⟨p, hp⟩ := Option.ne_none_iff_exists'.mp hsome
    obtain ⟨held, waits, hst, -⟩ := hrefines.sound.phase hp
    rw [hnone] at hst
    cases hst

/-- The second process is known to the client that has registered it, and to no other one. -/
theorem processes_agree_sharing : ∃ (s : Deployment) (st : Daemon.Standing), s.Reachable ∧
    s.daemon.standing 1 = some st ∧ st.conn = some 0 ∧
      ∀ k, k ≠ 0 → (s.clients k).processes 1 = none := by
  obtain ⟨s, hs, hrefines⟩ := realised (Cluster.reachable_of_careful Cluster.quiet_sharing.reachable)
  have hsome : (Cluster.sharing.daemon.backend.processes.lookup 1).isSome = true := by decide +kernel
  obtain ⟨o, ho⟩ := Option.isSome_iff_exists.mp hsome
  have hst := hrefines.daemon ▸ Daemon.standing_of_lookup ho
  have huser : ((s.clients 0).processes 1).isSome = true := by
    rw [hrefines.clients]
    decide +kernel
  obtain ⟨k, t, hconn, -, -, hothers⟩ := (processes_agree hs).1 _ hst
  obtain rfl : k = 0 := by
    by_contra hk
    rw [hothers 0 (Ne.symm hk)] at huser
    cases huser
  exact ⟨s, _, hs, hst, hconn, hothers⟩

end Deployment

end Tclm.System
