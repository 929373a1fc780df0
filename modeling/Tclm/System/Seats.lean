/-
  Tclm.System.Seats

  The situation of every process, along the runs of a cluster.

  There is one lemma for each kind of event: a client sends a request (`Sound.sends`), the
  daemon takes one (`Sound.serve`), a client takes a reply (`Sound.receive`).  A request and
  a reply are about one process at most; for this one the situation changes from one case of
  `Seat` to another, for the others an exchange is as good as nothing, or brings the answer
  that they wait for.
-/

import Tclm.System.Cluster

open Tclm.Comm
open Tclm.Client
open Tclm.Server

namespace Tclm.System.Cluster

variable {s s' : Cluster}

/-- The client that has something of a process is the one. -/
theorem Seated.at {pid : UInt32} (h : s.Seated pid) {c : Conn} (hc : s.view pid c ≠ .blank) :
    Seat pid c (s.daemon.standing pid) (s.view pid c) ∧ ∀ k, k ≠ c → s.view pid k = .blank := by
  obtain ⟨k, hseat, hothers⟩ := h
  by_cases hk : c = k
  · subst hk
    exact ⟨hseat, hothers⟩
  · exact absurd (hothers c hk) hc

-- ============================================================================
-- Requests are sent
-- ============================================================================

section

variable (s : Cluster) (c : Conn) (client : Tclmc) (q : Request)

@[simp] theorem clients_sends_self : (s.sends c client q).clients c = client :=
  Function.update_self ..

@[simp] theorem toServer_sends_self : (s.sends c client q).toServer c = s.toServer c ++ [q] :=
  Function.update_self ..

@[simp] theorem clients_sends_ne {k : Conn} (hk : k ≠ c) :
    (s.sends c client q).clients k = s.clients k := Function.update_of_ne hk ..

@[simp] theorem toServer_sends_ne {k : Conn} (hk : k ≠ c) :
    (s.sends c client q).toServer k = s.toServer k := Function.update_of_ne hk ..

@[simp] theorem toClient_sends : (s.sends c client q).toClient = s.toClient := rfl

@[simp] theorem daemon_sends : (s.sends c client q).daemon = s.daemon := rfl

end

theorem view_sends (c : Conn) (client : Tclmc) (q : Request) (pid : UInt32) (k : Conn) :
    (s.sends c client q).view pid k =
      if k = c then
        ⟨client.processes pid,
          (s.view pid c).requests ++ (if q.process = some pid then [q] else []),
          (s.view pid c).replies⟩
      else s.view pid k := by
  by_cases hk : k = c
  · subst hk
    rw [if_pos rfl]
    simp only [view, clients_sends_self, toServer_sends_self, toClient_sends, List.filter_append,
      List.filter_cons, List.filter_nil, decide_eq_true_eq]
  · rw [if_neg hk]
    simp only [view, clients_sends_ne _ _ _ _ hk, toServer_sends_ne _ _ _ _ hk, toClient_sends]

/-- A client sends a request, which is about one process at most. -/
theorem Sound.sends (h : s.Sound) {c : Conn} {client : Tclmc} {q : Request}
    (hpath : q.path.length ≤ maxPathLength) (htidy : client.Tidy)
    (hnonces : client.session.ac.registerProcessRequests.map Prod.fst =
      (s.clients c).session.ac.registerProcessRequests.map Prod.fst ++ q.nonce.toList)
    (hleavers : client.session.ac.unregisterProcessRequests.map Prod.fst =
      (s.clients c).session.ac.unregisterProcessRequests.map Prod.fst ++ q.leaver.toList)
    (hothers : ∀ pid, q.process ≠ some pid → client.processes pid = (s.clients c).processes pid)
    (hown : ∀ pid, q.process = some pid → Seat pid c (s.daemon.standing pid)
        ⟨client.processes pid, (s.view pid c).requests ++ [q], (s.view pid c).replies⟩ ∧
      ∀ k, k ≠ c → s.view pid k = .blank) : (s.sends c client q).Sound := by
  have hqueue : ∀ {β : Type} (f : Request → Option β) (x : Request), [x].filterMap f = (f x).toList := by
    intro β f x
    cases hf : f x with
    | none | some => simp [hf]
  refine ⟨h.daemon, h.unborn, fun k => ?_, fun k => ?_, fun k => ?_, fun k => ?_, fun pid => ?_⟩
  · by_cases hk : k = c
    · subst hk
      intro q' hq'
      rw [toServer_sends_self] at hq'
      rcases List.mem_append.mp hq' with hq' | hq'
      · exact h.paths k q' hq'
      · rw [List.mem_singleton.mp hq']
        exact hpath
    · rw [toServer_sends_ne _ _ _ _ hk]
      exact h.paths k
  · by_cases hk : k = c
    · subst hk
      rw [clients_sends_self]
      exact htidy
    · rw [clients_sends_ne _ _ _ _ hk]
      exact h.tidy k
  · by_cases hk : k = c
    · subst hk
      rw [clients_sends_self, toServer_sends_self, toClient_sends, hnonces, h.nonces k,
        List.filterMap_append, hqueue, List.append_assoc]
    · rw [clients_sends_ne _ _ _ _ hk, toServer_sends_ne _ _ _ _ hk]
      exact h.nonces k
  · by_cases hk : k = c
    · subst hk
      rw [clients_sends_self, toServer_sends_self, toClient_sends, hleavers, h.leavers k,
        List.filterMap_append, hqueue, List.append_assoc]
    · rw [clients_sends_ne _ _ _ _ hk, toServer_sends_ne _ _ _ _ hk]
      exact h.leavers k
  · by_cases hq : q.process = some pid
    · obtain ⟨hseat, hblank⟩ := hown pid hq
      refine ⟨c, ?_, fun k hk => ?_⟩
      · rw [view_sends, if_pos rfl, if_pos hq]
        exact hseat
      · rw [view_sends, if_neg hk]
        exact hblank k hk
    · have hsame : ∀ k, (s.sends c client q).view pid k = s.view pid k := by
        intro k
        rw [view_sends]
        by_cases hk : k = c
        · subst hk
          rw [if_pos rfl, if_neg hq, List.append_nil, hothers pid hq]
          rfl
        · rw [if_neg hk]
      obtain ⟨k, hseat, hblank⟩ := h.seats pid
      refine ⟨k, ?_, fun k' hk' => ?_⟩
      · rw [hsame]
        exact hseat
      · rw [hsame]
        exact hblank k' hk'

/-- A user's process is registered, and in one of the phases. -/
theorem Sound.phase (h : s.Sound) {c : Conn} {pid : UInt32} {p : ProcessImpl}
    (hp : (s.clients c).processes pid = some p) :
    ∃ held waits, s.daemon.standing pid = some ⟨held, waits, some c⟩ ∧
      Phase pid p held waits (s.view pid c).requests (s.view pid c).replies ∧
      ∀ k, k ≠ c → s.view pid k = .blank := by
  have hprocess : (s.view pid c).process = some p := hp
  obtain ⟨hseat, hothers⟩ := (h.seats pid).at fun hblank => by
    rw [hblank] at hprocess
    cases hprocess
  generalize s.daemon.standing pid = st at hseat
  generalize s.view pid c = v at hseat hprocess
  cases hseat with
  | free | coming | leaving => cases hprocess
  | @live _ held waits _ _ hphase =>
      cases hprocess
      exact ⟨held, waits, rfl, hphase, hothers⟩

/-- An idle process has no messages. -/
theorem Sound.idle (h : s.Sound) {c : Conn} {pid : UInt32} {p : ProcessImpl}
    (hp : (s.clients c).processes pid = some p) (hidle : p.call = none) :
    s.daemon.standing pid = some ⟨p.locks, 0, some c⟩ ∧ s.view pid c = ⟨some p, [], []⟩ ∧
      ∀ k, k ≠ c → s.view pid k = .blank := by
  have hprocess : (s.view pid c).process = some p := hp
  obtain ⟨hseat, hothers⟩ := (h.seats pid).at fun hblank => by
    rw [hblank] at hprocess
    cases hprocess
  refine ⟨?_, ?_, hothers⟩
  all_goals
    generalize s.daemon.standing pid = st at hseat
    generalize s.view pid c = v at hseat hprocess
    cases hseat with
    | free | coming | leaving => cases hprocess
    | live hphase =>
        cases hprocess
        cases hphase with
        | idle _ hheld hwaits =>
            subst hheld hwaits
            rfl
        | asked hcall | told hcall | waiting hcall | stuck hcall =>
            rw [hidle] at hcall
            cases hcall

theorem Sound.ask (h : s.Sound) {c : Conn} {pid : UInt32} {p : ProcessImpl} {q : Request}
    (hp : (s.clients c).processes pid = some p) (hidle : p.call = none)
    (hq : q.lockProcess = some pid) (hpath : q.path.length ≤ maxPathLength) :
    (s.sends c ((s.clients c).ask pid p q) q).Sound := by
  obtain ⟨hst, hview, hblank⟩ := h.idle hp hidle
  obtain ⟨κ, hκ, -⟩ := key_callOf hq
  obtain ⟨hreg, hunreg⟩ := Tclmc.others_issued hκ (s.clients c).session
  have hprocess := Request.process_of_lockProcess hq
  have hnone : q.nonce = none ∧ q.leaver = none := by
    cases q with
    | registerProcess | unregisterProcess => cases hq
    | createLock | acquireLock | releaseLock => exact ⟨rfl, rfl⟩
  refine h.sends hpath ((h.tidy c).ask hp hidle hq) ?_ ?_ (fun pid' hne => ?_) (fun pid' heq => ?_)
  · rw [Tclmc.ask, hreg, hnone.1]
    exact (List.append_nil _).symm
  · rw [Tclmc.ask, hunreg, hnone.2]
    exact (List.append_nil _).symm
  · exact Function.update_of_ne (fun heq => hne (by rw [heq, hprocess])) _ _
  · obtain rfl := Option.some.inj (hprocess.symm.trans heq)
    refine ⟨?_, hblank⟩
    have hself : ((s.clients c).ask pid p q).processes pid =
        some ⟨p.locks - gives q, some ((s.clients c).session.nextHandle, q)⟩ :=
      Function.update_self ..
    rw [hst, hview, hself]
    exact .live (.asked rfl hq rfl rfl)

theorem Sound.register (h : s.Sound) (c : Conn) :
    (s.sends c (s.clients c).register (nextRegistration (s.clients c))).Sound :=
  h.sends (Nat.zero_le _) (h.tidy c).register List.map_append (List.append_nil _).symm
    (fun _ _ => rfl) fun _ heq => by cases heq

theorem Sound.leave (h : s.Sound) {c : Conn} {pid : UInt32} {p : ProcessImpl}
    (hp : (s.clients c).processes pid = some p) (hidle : p.call = none) :
    (s.sends c ((s.clients c).leave pid) (.unregisterProcess pid)).Sound := by
  obtain ⟨hst, hview, hblank⟩ := h.idle hp hidle
  refine h.sends (Nat.zero_le _) ((h.tidy c).leave hp hidle) (List.append_nil _).symm
    List.map_append (fun pid' hne => ?_) (fun pid' heq => ?_)
  · exact Function.update_of_ne (fun heq => hne (by rw [heq]; rfl)) _ _
  · cases heq
    refine ⟨?_, hblank⟩
    have hself : ((s.clients c).leave pid).processes pid = none := Function.update_self ..
    rw [hst, hview, hself]
    exact .leaving

-- ============================================================================
-- Requests are served
-- ============================================================================

/-- The daemon has taken a request. -/
def serves (s : Cluster) (c : Conn) (rest : List Request) (rs : List (Conn × Reply)) (d' : Daemon) :
    Cluster :=
  { s with
    daemon := d'
    toServer := Function.update s.toServer c rest
    toClient := fun k => s.toClient k ++ Daemon.repliesOn k rs }

section Serve

variable {c : Conn} {q : Request} {rest : List Request} {rs : List (Conn × Reply)} {d' : Daemon}

theorem view_serves (hq : s.toServer c = q :: rest) (rs : List (Conn × Reply)) (d' : Daemon)
    (pid : UInt32) (k : Conn) :
    ∃ qs, (s.view pid k).requests = (if k = c ∧ q.process = some pid then [q] else []) ++ qs ∧
      (s.serves c rest rs d').view pid k = ⟨(s.view pid k).process, qs,
        (s.view pid k).replies ++ Daemon.repliesOn k (Daemon.about pid rs)⟩ := by
  have hreplies : (s.serves c rest rs d').toClient k = s.toClient k ++ Daemon.repliesOn k rs := rfl
  refine ⟨((s.serves c rest rs d').toServer k).filter fun q => q.process = some pid, ?_, ?_⟩
  · by_cases hk : k = c
    · subst hk
      have hself : (s.serves k rest rs d').toServer k = rest := Function.update_self ..
      rw [hself, view, hq, List.filter_cons]
      by_cases hpid : q.process = some pid
      · rw [if_pos (decide_eq_true hpid), if_pos ⟨rfl, hpid⟩]
        rfl
      · rw [if_neg (by simpa using hpid), if_neg fun h => hpid h.2]
        rfl
    · have hother : (s.serves c rest rs d').toServer k = s.toServer k := Function.update_of_ne hk ..
      rw [hother, if_neg fun h => hk h.1]
      rfl
  · rw [view, hreplies, List.filter_append, Daemon.filter_repliesOn]
    rfl

/-- The process of a request waits for nothing. -/
theorem Sound.ready (h : s.Sound) (hq : s.toServer c = q :: rest) : s.daemon.Ready q := by
  intro pid st hpid hst
  obtain ⟨qs, hview, -⟩ := view_serves hq [] s.daemon pid c
  rw [if_pos ⟨rfl, hpid⟩] at hview
  obtain ⟨hseat, -⟩ := (h.seats pid).at fun hblank => by
    rw [hblank] at hview
    cases hview
  rw [hst] at hseat
  generalize s.view pid c = v at hseat hview
  cases hseat with
  | coming | leaving => rfl
  | live hphase =>
      cases hphase with
      | idle _ _ hwaits | asked _ _ _ hwaits | told _ _ _ _ hwaits | stuck _ _ _ _ _ hwaits =>
          exact hwaits
      | waiting => cases hview

/-- Where the daemon has nothing to say about a process, its situation stays. -/
theorem seated_of_silent (hq : s.toServer c = q :: rest) {pid : UInt32} (hne : q.process ≠ some pid)
    (hst : d'.standing pid = s.daemon.standing pid) (habout : Daemon.about pid rs = [])
    (h : s.Seated pid) : (s.serves c rest rs d').Seated pid := by
  have hsame : ∀ k, (s.serves c rest rs d').view pid k = s.view pid k := by
    intro k
    obtain ⟨qs, hview, hnew⟩ := view_serves hq rs d' pid k
    rw [if_neg fun h => hne h.2, List.nil_append] at hview
    rw [hnew, habout, ← hview]
    exact congrArg (View.mk _ _) (List.append_nil _)
  obtain ⟨k, hseat, hblank⟩ := h
  refine ⟨k, ?_, fun k' hk' => (hsame k').trans (hblank k' hk')⟩
  rw [hsame]
  show Seat pid k (d'.standing pid) _
  rw [hst]
  exact hseat

/-- What the daemon says to the client of a process reaches nobody else. -/
theorem blank_of_serves (hq : s.toServer c = q :: rest) {pid : UInt32} {k k' : Conn}
    (hne : k' ≠ k) (hblank : s.view pid k' = .blank) (hc : q.process = some pid → k' ≠ c)
    {r : Reply} (habout : Daemon.about pid rs = [(k, r)]) :
    (s.serves c rest rs d').view pid k' = .blank := by
  obtain ⟨qs, hview, hnew⟩ := view_serves hq rs d' pid k'
  rw [hblank, if_neg fun h => hc h.2 h.1, List.nil_append] at hview
  rw [hnew, hblank, ← hview, habout, Daemon.repliesOn_cons, if_neg hne.symm]
  rfl

/-- The daemon takes the request of the process. -/
theorem Sound.seated_own (h : s.Sound) (hq : s.toServer c = q :: rest)
    (hserve : s.daemon.Exchange c q rs d') (hd' : d'.Reachable) {pid : UInt32}
    (hpid : q.process = some pid) : (s.serves c rest rs d').Seated pid := by
  obtain ⟨qs, hview, hnew⟩ := view_serves hq rs d' pid c
  rw [if_pos ⟨rfl, hpid⟩] at hview
  obtain ⟨hseat, hblank⟩ := (h.seats pid).at fun hblank => by
    rw [hblank] at hview
    cases hview
  have hstanding : (s.serves c rest rs d').daemon.standing pid = d'.standing pid := rfl
  generalize hst : s.daemon.standing pid = st at hseat
  generalize s.view pid c = v at hseat hview hnew
  cases hseat with
  | free | coming => cases hview
  | leaving =>
      cases hview
      obtain ⟨hgone, habout⟩ := hserve.unregister hd'
      have hblank' : ∀ k, (s.serves c rest rs d').view pid k = .blank := by
        intro k
        by_cases hk : k = c
        · rw [hk, hnew, habout]
          rfl
        · obtain ⟨qs', hview', hnew'⟩ := view_serves hq rs d' pid k
          rw [hblank k hk, if_neg fun h => hk h.1, List.nil_append] at hview'
          rw [hnew', hblank k hk, ← hview', habout]
          rfl
      refine ⟨c, ?_, fun k _ => hblank' k⟩
      rw [hblank', hstanding, hgone]
      exact .free
  | @live p held waits _ _ hphase =>
      cases hphase with
      | idle | told | waiting | stuck => cases hview
      | @asked h' q' hcall hlock hheld hwaits =>
          cases hview
          subst hwaits
          obtain ⟨status, habout, hcase⟩ := hserve.own h.daemon hd' hlock hst
          refine ⟨c, ?_, fun k hk =>
            blank_of_serves hq hk (hblank k hk) (fun _ => hk) habout⟩
          have hreplies : Daemon.repliesOn c [(c, q.reply status)] = [q.reply status] := by
            rw [Daemon.repliesOn_cons, if_pos rfl]
            rfl
          rw [hnew, habout, hreplies, hstanding]
          rcases hcase with ⟨rfl, t, hqueues, hst'⟩ | ⟨hfinal, hst'⟩
          · rw [hst']
            rw [gives_of_queues hqueues, tsub_zero] at hheld
            exact .live (.waiting hcall (.inr ⟨rfl, t, hqueues⟩) hqueues hheld.symm rfl)
          · rw [hst', ← hheld]
            exact .live (.told hcall (show Early _ [] from .inl rfl) hfinal rfl rfl)

/-- The daemon takes a request that is not about the process. -/
theorem Sound.seated_other (h : s.Sound) (hq : s.toServer c = q :: rest)
    (hserve : s.daemon.Exchange c q rs d') (hd' : d'.Reachable) {pid : UInt32}
    (hpid : q.process ≠ some pid) : (s.serves c rest rs d').Seated pid := by
  have hready := h.ready hq
  have hseated := h.seats pid
  obtain ⟨k, hseat, hblank⟩ := h.seats pid
  obtain ⟨qs, hview, hnew⟩ := view_serves hq rs d' pid k
  rw [if_neg fun h => hpid h.2, List.nil_append] at hview
  have hidle : ∀ {held}, s.daemon.standing pid = some ⟨held, 0, some k⟩ →
      (s.serves c rest rs d').Seated pid := by
    intro held hst
    obtain ⟨hst', habout⟩ := hserve.other_idle h.daemon hd' hready hpid hst
    exact seated_of_silent hq hpid (hst'.trans hst.symm) habout hseated
  generalize hst : s.daemon.standing pid = st at hseat
  generalize hv : s.view pid k = v at hseat hview hnew
  cases hseat with
  | coming | leaving => exact hidle hst
  | free =>
      have hall : ∀ k', s.view pid k' = .blank := by
        intro k'
        by_cases hk : k' = k
        · rw [hk, hv]
        · exact hblank k' hk
      rcases hserve.absent hd' h.unborn hpid hst with ⟨hst', habout⟩ | ⟨nonce, rfl, hst', habout⟩
      · exact seated_of_silent hq hpid (hst'.trans hst.symm) habout hseated
      · -- the new process belongs to the client that asked for it
        refine ⟨c, ?_, fun k' hk' => blank_of_serves hq hk' (hall k') (fun h => absurd h hpid) habout⟩
        obtain ⟨qs', hview', hnew'⟩ := view_serves hq rs d' pid c
        rw [if_neg fun h => hpid h.2, List.nil_append, hall c] at hview'
        rw [hnew', hall c, ← hview', habout, Daemon.repliesOn_cons, if_pos rfl]
        show Seat pid c (d'.standing pid) _
        rw [hst']
        exact .coming
  | @live p held waits _ _ hphase =>
      rcases hphase.waits_cases with rfl | ⟨t, rfl⟩
      · exact hidle hst
      · rcases hserve.other_waiting h.daemon hd' hready hpid hst with
          ⟨hst', habout⟩ | ⟨status, hfinal, hst', habout⟩
        · exact seated_of_silent hq hpid (hst'.trans hst.symm) habout hseated
        · refine ⟨k, ?_, fun k' hk' =>
            blank_of_serves hq hk' (hblank k' hk') (fun h => absurd h hpid) habout⟩
          have hprocess : (s.clients k).processes pid = some p := congrArg View.process hv
          have hphase' := hphase.update (fun h' q' hcall =>
            (h.tidy k).own ⟨p, hprocess, hcall⟩) hfinal
          rw [hnew, habout, Daemon.repliesOn_cons, if_pos rfl]
          show Seat pid k (d'.standing pid) _
          rw [hst', ← hview]
          exact .live hphase'

/-- What is told only once leaves one channel and enters the other. -/
theorem filterMap_serves (hq : s.toServer c = q :: rest) {β : Type} {f : Request → Option β}
    {g : Reply → Option β} {k : Conn} {told : List β}
    (hrs : (Daemon.repliesOn k rs).filterMap g = if c = k then (f q).toList else [])
    (h : told = (s.toClient k).filterMap g ++ (s.toServer k).filterMap f) :
    told = ((s.serves c rest rs d').toClient k).filterMap g ++
      ((s.serves c rest rs d').toServer k).filterMap f := by
  have hreplies : (s.serves c rest rs d').toClient k = s.toClient k ++ Daemon.repliesOn k rs := rfl
  rw [h, hreplies, List.filterMap_append, hrs]
  by_cases hk : c = k
  · subst hk
    have hself : (s.serves c rest rs d').toServer c = rest := Function.update_self ..
    rw [hself, hq, if_pos rfl, List.filterMap_cons, List.append_assoc]
    cases f q with
    | none | some => rfl
  · have hother : (s.serves c rest rs d').toServer k = s.toServer k :=
      Function.update_of_ne (Ne.symm hk) ..
    rw [hother, if_neg hk, List.append_nil]

theorem Sound.serve (h : s.Sound) (hq : s.toServer c = q :: rest)
    (hserve : s.daemon.Exchange c q rs d') : (s.serves c rest rs d').Sound := by
  have hpaths := h.paths c
  rw [hq] at hpaths
  have hd' := hserve.reachable h.daemon (hpaths q List.mem_cons_self)
  refine ⟨hd', hserve.unborn h.daemon (h.ready hq) h.unborn, fun k => ?_, h.tidy,
    fun k => filterMap_serves hq (hserve.nonces k) (h.nonces k),
    fun k => filterMap_serves hq (hserve.leavers k) (h.leavers k), fun pid => ?_⟩
  · by_cases hk : k = c
    · have hself : (s.serves c rest rs d').toServer c = rest := Function.update_self ..
      rw [hk, hself]
      exact fun q' hq' => hpaths q' (List.mem_cons_of_mem q hq')
    · have hother : (s.serves c rest rs d').toServer k = s.toServer k := Function.update_of_ne hk ..
      rw [hother]
      exact h.paths k
  · by_cases hpid : q.process = some pid
    · exact h.seated_own hq hserve hd' hpid
    · exact h.seated_other hq hserve hd' hpid

end Serve

-- ============================================================================
-- Replies come in
-- ============================================================================

/-- A client has taken a reply. -/
def receives (s : Cluster) (c : Conn) (r : Reply) (rest : List Reply) : Cluster :=
  { s with
    clients := Function.update s.clients c ((s.clients c).accept r)
    toClient := Function.update s.toClient c rest }

section Receive

variable {c : Conn} {r : Reply} {rest : List Reply}

@[simp] theorem clients_receives_self (s : Cluster) (c : Conn) (r : Reply) (rest : List Reply) :
    (s.receives c r rest).clients c = (s.clients c).accept r := Function.update_self ..

@[simp] theorem toClient_receives_self (s : Cluster) (c : Conn) (r : Reply) (rest : List Reply) :
    (s.receives c r rest).toClient c = rest := Function.update_self ..

theorem clients_receives_ne {k : Conn} (hk : k ≠ c) :
    (s.receives c r rest).clients k = s.clients k := Function.update_of_ne hk ..

theorem toClient_receives_ne {k : Conn} (hk : k ≠ c) :
    (s.receives c r rest).toClient k = s.toClient k := Function.update_of_ne hk ..

theorem view_receives (hr : s.toClient c = r :: rest) (pid : UInt32) :
    ∃ rs, (s.view pid c).replies = (if r.process = some pid then [r] else []) ++ rs ∧
      (s.receives c r rest).view pid c =
        ⟨((s.clients c).accept r).processes pid, (s.view pid c).requests, rs⟩ := by
  refine ⟨rest.filter fun r => r.process = some pid, ?_, ?_⟩
  · rw [view, hr, List.filter_cons]
    by_cases hpid : r.process = some pid
    · rw [if_pos (decide_eq_true hpid), if_pos hpid]
      rfl
    · rw [if_neg (by simpa using hpid), if_neg hpid]
      rfl
  · rw [view, clients_receives_self, toClient_receives_self]
    rfl

theorem view_receives_ne {k : Conn} (hk : k ≠ c) (pid : UInt32) :
    (s.receives c r rest).view pid k = s.view pid k := by
  rw [view, clients_receives_ne hk, toClient_receives_ne hk]
  rfl

/-- What the first reply of a channel does at the client: it is about one process at most. -/
structure Heard (s : Cluster) (c : Conn) (r : Reply) : Prop where
  tidy : ((s.clients c).accept r).Tidy
  nonces : (s.clients c).session.ac.registerProcessRequests.map Prod.fst =
    r.nonce.toList ++ ((s.clients c).accept r).session.ac.registerProcessRequests.map Prod.fst
  leavers : (s.clients c).session.ac.unregisterProcessRequests.map Prod.fst =
    r.leaver.toList ++ ((s.clients c).accept r).session.ac.unregisterProcessRequests.map Prod.fst
  others : ∀ pid, r.process ≠ some pid →
    ((s.clients c).accept r).processes pid = (s.clients c).processes pid
  own : ∀ pid rs, r.process = some pid → (s.view pid c).replies = r :: rs →
    Seat pid c (s.daemon.standing pid)
      ⟨((s.clients c).accept r).processes pid, (s.view pid c).requests, rs⟩

theorem Sound.receives (h : s.Sound) (hr : s.toClient c = r :: rest) (hheard : s.Heard c r) :
    (s.receives c r rest).Sound := by
  have hqueue : ∀ {β : Type} (g : Reply → Option β), (s.toClient c).filterMap g =
      (g r).toList ++ rest.filterMap g := by
    intro β g
    rw [hr, List.filterMap_cons]
    cases g r with
    | none | some => rfl
  refine ⟨h.daemon, h.unborn, h.paths, fun k => ?_, fun k => ?_, fun k => ?_, fun pid => ?_⟩
  · by_cases hk : k = c
    · rw [hk, clients_receives_self]
      exact hheard.tidy
    · rw [clients_receives_ne hk]
      exact h.tidy k
  · by_cases hk : k = c
    · have hall := h.nonces c
      rw [hheard.nonces, hqueue, List.append_assoc] at hall
      rw [hk, clients_receives_self, toClient_receives_self]
      exact List.append_cancel_left hall
    · rw [clients_receives_ne hk, toClient_receives_ne hk]
      exact h.nonces k
  · by_cases hk : k = c
    · have hall := h.leavers c
      rw [hheard.leavers, hqueue, List.append_assoc] at hall
      rw [hk, clients_receives_self, toClient_receives_self]
      exact List.append_cancel_left hall
    · rw [clients_receives_ne hk, toClient_receives_ne hk]
      exact h.leavers k
  · obtain ⟨rs, hview, hnew⟩ := view_receives hr pid
    by_cases hpid : r.process = some pid
    · rw [if_pos hpid] at hview
      obtain ⟨-, hblank⟩ := (h.seats pid).at fun hblank => by
        rw [hblank] at hview
        cases hview
      refine ⟨c, ?_, fun k hk => (view_receives_ne hk pid).trans (hblank k hk)⟩
      rw [hnew]
      exact hheard.own pid rs hpid hview
    · have hsame : ∀ k, (s.receives c r rest).view pid k = s.view pid k := by
        intro k
        by_cases hk : k = c
        · rw [if_neg hpid, List.nil_append] at hview
          rw [hk, hnew, ← hview, hheard.others pid hpid]
          rfl
        · exact view_receives_ne hk pid
      obtain ⟨k, hseat, hblank⟩ := h.seats pid
      refine ⟨k, ?_, fun k' hk' => (hsame k').trans (hblank k' hk')⟩
      rw [hsame]
      exact hseat

/-- A reply that changes nothing at the client. -/
theorem Sound.heard_same (h : s.Sound) (hsame : (s.clients c).accept r = s.clients c)
    (hnonce : r.nonce = none) (hleaver : r.leaver = none)
    (hown : ∀ pid rs, r.process = some pid → (s.view pid c).replies = r :: rs →
      Seat pid c (s.daemon.standing pid)
        ⟨(s.clients c).processes pid, (s.view pid c).requests, rs⟩) : s.Heard c r := by
  refine ⟨?_, ?_, ?_, fun pid _ => ?_, ?_⟩
  · rw [hsame]
    exact h.tidy c
  · rw [hsame, hnonce]
    rfl
  · rw [hsame, hleaver]
    rfl
  · rw [hsame]
  · rw [hsame]
    exact hown

/-- The reply to a registration that was refused, or to a user who has destroyed his process. -/
theorem Sound.heard_other (h : s.Sound) (hr : s.toClient c = r :: rest) (hnone : r.process = none) :
    s.Heard c r := by
  cases r with
  | createUpdate | acquireUpdate | released => cases hnone
  | registered nonce status id =>
      cases hnone
      have hall := h.nonces c
      rw [hr, List.filterMap_cons] at hall
      obtain ⟨e, tail, hlist, he, -⟩ := List.map_eq_cons_iff.mp hall
      obtain ⟨n, x⟩ := e
      cases he
      have haccept := Tclmc.accept_registered hlist status none
      have hx : x ∈ (s.clients c).others := by
        rw [Tclmc.others, hlist]
        exact List.mem_cons_self
      rw [(h.tidy c).answered_other hx] at haccept
      refine ⟨?_, ?_, ?_, fun pid _ => ?_, fun pid rs hpid => by cases hpid⟩
      · rw [haccept]
        exact (h.tidy c).registered hlist fun _ _ _ => Iff.rfl
      · rw [haccept, hlist]
        rfl
      · rw [haccept]
        rfl
      · rw [haccept]
  | unregistered id status =>
      have hall := h.leavers c
      rw [hr, List.filterMap_cons] at hall
      obtain ⟨e, tail, hlist, he, -⟩ := List.map_eq_cons_iff.mp hall
      obtain ⟨n, x⟩ := e
      cases he
      have haccept := Tclmc.accept_unregistered hlist status
      have hx : x ∈ (s.clients c).others := by
        rw [Tclmc.others, hlist]
        exact List.mem_append_right _ List.mem_cons_self
      rw [(h.tidy c).answered_other hx] at haccept
      refine ⟨?_, ?_, ?_, fun pid _ => ?_, fun pid rs hpid => by cases hpid⟩
      · rw [haccept]
        exact (h.tidy c).unregistered hlist
      · rw [haccept]
        rfl
      · rw [haccept, hlist]
        rfl
      · rw [haccept]

/-- The reply that brings a new process. -/
theorem Sound.heard_new (h : s.Sound) {nonce : UInt32} {pid : UInt32}
    (hr : s.toClient c = .registered nonce ResponseStatus.success (some pid) :: rest)
    (hview : s.view pid c = ⟨none, [], [.registered nonce ResponseStatus.success (some pid)]⟩)
    (hst : s.daemon.standing pid = some ⟨0, 0, some c⟩) :
    s.Heard c (.registered nonce ResponseStatus.success (some pid)) := by
  have hall := h.nonces c
  rw [hr, List.filterMap_cons] at hall
  obtain ⟨e, tail, hlist, he, -⟩ := List.map_eq_cons_iff.mp hall
  obtain ⟨n, x⟩ := e
  cases he
  have haccept := Tclmc.accept_registered hlist ResponseStatus.success (some pid)
  have hprocess : (s.clients c).processes pid = none := congrArg View.process hview
  have hanswered : (s.clients c).answered ⟨x, ResponseStatus.success, some pid⟩ =
      Function.update (s.clients c).processes pid (some {}) := rfl
  rw [hanswered] at haccept
  refine ⟨?_, ?_, ?_, fun pid' hne => ?_, fun pid' rs heq hreplies => ?_⟩
  · rw [haccept]
    refine (h.tidy c).registered hlist fun pid' h' q' => ?_
    by_cases hpid : pid' = pid
    · subst hpid
      simp [Tclmc.Asks, hprocess]
    · simp [Tclmc.Asks, hpid]
  · rw [haccept, hlist]
    rfl
  · rw [haccept]
    rfl
  · rw [haccept]
    exact Function.update_of_ne (fun heq => hne (by rw [heq]; rfl)) _ _
  · cases heq
    rw [hview] at hreplies
    cases hreplies
    have hself : Function.update (s.clients c).processes pid (some {}) pid = some {} :=
      Function.update_self ..
    rw [haccept, hst, hview]
    show Seat pid c _ ⟨Function.update (s.clients c).processes pid (some {}) pid, [], []⟩
    rw [hself]
    exact .live (.idle rfl rfl rfl)

theorem reply_kind {q : Request} {pid : UInt32} (hlock : q.lockProcess = some pid) (status : UInt16) :
    (q.reply status).process = some pid ∧ (q.reply status).nonce = none ∧
      (q.reply status).leaver = none := by
  cases q with
  | registerProcess | unregisterProcess => cases hlock
  | createLock | acquireLock | releaseLock => exact ⟨hlock, rfl, rfl⟩

theorem update_kind (t : Ticket) (pid : UInt32) (status : UInt16) :
    (t.reply pid status).process = some pid ∧ (t.reply pid status).nonce = none ∧
      (t.reply pid status).leaver = none := by
  rw [Ticket.reply]
  split
  · exact ⟨rfl, rfl, rfl⟩
  · exact ⟨rfl, rfl, rfl⟩

/-- Nobody waits for the answer to a request that was made with another spelling of the path. -/
theorem Sound.unknown (h : s.Sound) {pid : UInt32} {p : ProcessImpl} {h' : Handle} {q : Request}
    {t : Ticket} (hp : (s.clients c).processes pid = some p) (hcall : p.call = some (h', q))
    (hqueues : Queues q t) (hodd : ¬ Canonical q) (status : UInt16) :
    (s.clients c).accept (t.reply pid status) = s.clients c := by
  have hask : (s.clients c).Asks pid h' q := ⟨p, hp, hcall⟩
  have hlock := (h.tidy c).own hask
  -- only the call of the process could wait under the key
  have hkey : ∀ {κ}, Key.ofReply (t.reply pid status) = some κ → (callOf q).key ≠ some κ →
      (∀ {pid' : UInt32} {q' : Request}, q'.lockProcess = some pid' →
        (callOf q').key = some κ → pid' = pid) →
      (s.clients c).accept (t.reply pid status) = s.clients c := by
    intro κ hκ hne hpid
    apply Tclmc.accept_of_pending hκ
    by_contra hsome
    obtain ⟨h'', hpending⟩ := Option.ne_none_iff_exists'.mp hsome
    obtain ⟨pid', q', hask', hκ'⟩ := (h.tidy c).table.mp hpending
    obtain rfl := hpid ((h.tidy c).own hask') hκ'
    obtain ⟨p', hp', hcall'⟩ := hask'
    rw [hp] at hp'
    cases hp'
    rw [hcall] at hcall'
    cases hcall'
    exact hne hκ'
  cases q with
  | registerProcess | unregisterProcess | releaseLock => cases hqueues
  | createLock pid₀ path acquireX =>
      cases acquireX with
      | false => cases hqueues
      | true =>
          cases hlock
          have hreply : t.reply pid status =
              .createUpdate pid (Daemon.joinPath (splitPath path)) status := by
            rw [Ticket.reply, if_pos hqueues.1, hqueues.2.1]
          rw [hreply] at hkey ⊢
          refine hkey rfl (fun heq => hodd ?_) fun {pid' q'} hlock' hκ' => ?_
          · exact (Key.create.inj (Option.some.inj heq)).2.symm
          · cases q' with
            | registerProcess | unregisterProcess => cases hlock'
            | createLock | acquireLock | releaseLock =>
                cases hlock'
                cases hκ' <;> rfl
  | acquireLock pid₀ path mode =>
      cases hlock
      have hreply : t.reply pid status =
          .acquireUpdate pid (Daemon.joinPath (splitPath path)) mode status := by
        rw [Ticket.reply, if_neg (by rw [hqueues.1]; exact Bool.false_ne_true), hqueues.2.1,
          hqueues.2.2]
      rw [hreply] at hkey ⊢
      refine hkey rfl (fun heq => hodd ?_) fun {pid' q'} hlock' hκ' => ?_
      · exact (Key.acquire.inj (Option.some.inj heq)).2.1.symm
      · cases q' with
        | registerProcess | unregisterProcess => cases hlock'
        | createLock | acquireLock | releaseLock =>
            cases hlock'
            cases hκ' <;> rfl

/-- A reply about a process comes in. -/
theorem Sound.heard_own (h : s.Sound) (hr : s.toClient c = r :: rest) {pid : UInt32}
    (hpid : r.process = some pid) : s.Heard c r := by
  obtain ⟨rs, hview, -⟩ := view_receives hr pid
  rw [if_pos hpid] at hview
  obtain ⟨hseat, hblank⟩ := (h.seats pid).at fun hblank => by
    rw [hblank] at hview
    cases hview
  have hone : ∀ {pid' rs'}, r.process = some pid' → (s.view pid' c).replies = r :: rs' →
      pid' = pid ∧ rs' = rs := by
    intro pid' rs' hpid' hview'
    obtain rfl := Option.some.inj (hpid'.symm.trans hpid)
    exact ⟨rfl, (List.cons.inj (hview'.symm.trans hview)).2⟩
  generalize hst : s.daemon.standing pid = st at hseat
  generalize hv : s.view pid c = v at hseat hview
  cases hseat with
  | free | leaving => cases hview
  | coming =>
      cases hview
      exact h.heard_new hr hv hst
  | @live p held waits qs rs' hphase =>
      have hprocess : (s.clients c).processes pid = some p := congrArg View.process hv
      -- the situation without the reply, where it changes nothing
      have hsame : (s.clients c).accept r = s.clients c → r.nonce = none → r.leaver = none →
          Phase pid p held waits qs rs → s.Heard c r := by
        intro haccept hnonce hleaver hphase'
        refine h.heard_same haccept hnonce hleaver fun pid' rs' hpid' hview' => ?_
        obtain ⟨rfl, rfl⟩ := hone hpid' hview'
        rw [hst, hprocess, hv]
        exact .live hphase'
      change rs' = r :: rs at hview
      cases hphase with
      | idle | asked => cases hview
      | @told h' q status early hcall hearly hfinal hheld hwaits =>
          have hlock := (h.tidy c).own ⟨p, hprocess, hcall⟩
          rcases hearly with rfl | ⟨rfl, t, hqueues⟩
          · cases hview
            obtain ⟨hprocesses, htidy, hreg, hunreg⟩ :=
              Tclmc.accept_final (h.tidy c) hprocess hcall (ne_queued_of_final hfinal)
            obtain ⟨-, hnonce, hleaver⟩ := reply_kind hlock status
            refine ⟨htidy, ?_, ?_, fun pid' hne => ?_, fun pid' rs' hpid' hview' => ?_⟩
            · rw [hreg, hnonce]
              rfl
            · rw [hunreg, hleaver]
              rfl
            · rw [hprocesses]
              exact Function.update_of_ne (fun heq => hne (by rw [heq]; exact hpid)) _ _
            · obtain ⟨rfl, rfl⟩ := hone hpid' hview'
              rw [hst, hprocesses, Function.update_self, hv]
              exact .live (.idle rfl hheld hwaits)
          · cases hview
            obtain ⟨-, hnonce, hleaver⟩ := reply_kind hlock ResponseStatus.queued
            exact hsame (Tclmc.accept_of_queued hqueues) hnonce hleaver
              (.told hcall (show Early _ [] from .inl rfl) hfinal hheld hwaits)
      | @waiting h' q t early hcall hearly hqueues hheld hwaits =>
          have hlock := (h.tidy c).own ⟨p, hprocess, hcall⟩
          rcases hearly with rfl | ⟨rfl, -⟩
          · cases hview
          · cases hview
            obtain ⟨-, hnonce, hleaver⟩ := reply_kind hlock ResponseStatus.queued
            exact hsame (Tclmc.accept_of_queued hqueues) hnonce hleaver
              (.waiting hcall (.inl rfl) hqueues hheld hwaits)
      | @stuck h' q t status early late hcall hearly hqueues hodd hheld hwaits hlate =>
          have hlock := (h.tidy c).own ⟨p, hprocess, hcall⟩
          rcases hearly with rfl | ⟨rfl, -⟩
          · rcases hlate with rfl | rfl
            · cases hview
            · cases hview
              obtain ⟨-, hnonce, hleaver⟩ := update_kind t pid status
              exact hsame (h.unknown hprocess hcall hqueues hodd status) hnonce hleaver
                (.stuck hcall (show Early _ [] from .inl rfl) hqueues hodd hheld hwaits (.inl rfl))
          · cases hview
            obtain ⟨-, hnonce, hleaver⟩ := reply_kind hlock ResponseStatus.queued
            exact hsame (Tclmc.accept_of_queued hqueues) hnonce hleaver
              (.stuck hcall (show Early _ [] from .inl rfl) hqueues hodd hheld hwaits hlate)

theorem Sound.heard (h : s.Sound) (hr : s.toClient c = r :: rest) : s.Heard c r := by
  cases hpid : r.process with
  | none => exact h.heard_other hr hpid
  | some pid => exact h.heard_own hr hpid

theorem Sound.receive (h : s.Sound) (hr : s.toClient c = r :: rest) :
    (s.receives c r rest).Sound := h.receives hr (h.heard hr)

end Receive

-- ============================================================================
-- Every run
-- ============================================================================

theorem Sound.step {e : ClusterEvent} (h : s.Sound) (hstep : Step s e s') : s'.Sound := by
  cases hstep with
  | ask hp hidle hq _ hpath => exact h.ask hp hidle hq hpath
  | register => exact h.register _
  | leave hp hidle => exact h.leave hp hidle
  | serve hq hserve => exact h.serve hq hserve
  | receive hr => exact h.receive hr

theorem Reachable.sound (h : s.Reachable) : s.Sound :=
  Lts.Reachable.invariant Sound h sound_init fun h hstep => h.step hstep

end Tclm.System.Cluster
