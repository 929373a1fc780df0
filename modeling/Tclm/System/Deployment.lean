/-
  Tclm.System.Deployment

  The daemon and its clients with everything in between: messages are written to streams,
  cut and joined on their way, and read from streams again.  As in a cluster, a process is
  used for one call at a time.

  A deployment behaves like a cluster (`deployment_simulates`), so what holds in every run
  of a cluster holds in every run of a deployment.
-/

import Tclm.Comm.Link
import Tclm.System.Seats

open Tclm.Comm
open Tclm.Comm.Stream
open Tclm.Client
open Tclm.Server

namespace Tclm.System

/-- Clients, the daemon, and the two directions of each connection. -/
structure Deployment where
  clients : Conn → Tclmc := fun _ => {}
  daemon : Daemon := {}
  up : Conn → Link := fun _ => .new true
  down : Conn → Link := fun _ => .new true

/-- A party acts, or bytes move. -/
inductive Motion where
  | act
  | move

def Motion.view : Motion → Option Unit
  | act => some ()
  | move => none

namespace Deployment

/-- Messages are sent one after the other, each on its connection. -/
inductive Sends : (Conn → Link) → List Packet → (Conn → Link) → Prop where
  | nil (ls : Conn → Link) : Sends ls [] ls
  | cons {ls ls' : Conn → Link} {k : Conn} {out : Stream} {l : Link} {sent : List Packet}
      (hsend : Link.Step (ls k) (.send out) l) (hrest : Sends (Function.update ls k l) sent ls') :
      Sends ls ((k, out) :: sent) ls'

/-- There is enough memory, the connections stay up, and a process is used for one call at a
    time. -/
inductive Step (s : Deployment) : Motion → Deployment → Prop where
  /-- A call of a function of `Lock_impl`, for a process with no other call open. -/
  | ask {c : Conn} {pid : UInt32} {p : ProcessImpl} {q : Request} {heap : Heap} {out : Stream}
      {ac : AccessConcentrator} {l : Link} (hp : (s.clients c).processes pid = some p)
      (hidle : p.call = none) (hq : q.lockProcess = some pid) (hoffered : Offered q)
      (hpath : q.path.length ≤ maxPathLength) (hheap : heap.Ample)
      (hissue : (s.clients c).session.ac.issue .little heap (s.clients c).session.nextHandle
        (callOf q) = .ok (some out, ac)) (hsend : Link.Step (s.up c) (.send out) l) :
      Step s .act
        { s with
          clients := Function.update s.clients c ⟨⟨ac, (s.clients c).session.nextHandle + 1⟩,
            ((s.clients c).ask pid p q).processes⟩
          up := Function.update s.up c l }
  | register {c : Conn} {heap : Heap} {out : Stream} {ac : AccessConcentrator} {l : Link}
      (hheap : heap.Ample)
      (hissue : (s.clients c).session.ac.issue .little heap (s.clients c).session.nextHandle
        .registerProcess = .ok (some out, ac)) (hsend : Link.Step (s.up c) (.send out) l) :
      Step s .act
        { s with
          clients := Function.update s.clients c ⟨⟨ac, (s.clients c).session.nextHandle + 1⟩,
            (s.clients c).register.processes⟩
          up := Function.update s.up c l }
  | leave {c : Conn} {pid : UInt32} {p : ProcessImpl} {heap : Heap} {out : Stream}
      {ac : AccessConcentrator} {l : Link} (hp : (s.clients c).processes pid = some p)
      (hidle : p.call = none) (hheap : heap.Ample)
      (hissue : (s.clients c).session.ac.issue .little heap (s.clients c).session.nextHandle
        (.unregisterProcess pid) = .ok (some out, ac)) (hsend : Link.Step (s.up c) (.send out) l) :
      Step s .act
        { s with
          clients := Function.update s.clients c ⟨⟨ac, (s.clients c).session.nextHandle + 1⟩,
            ((s.clients c).leave pid).processes⟩
          up := Function.update s.up c l }
  /-- The callback of the daemon gets a message. -/
  | serve {c : Conn} {env : Env} {input : Stream} {l : Link} {sent : List Packet} {d' : Daemon}
      {down' : Conn → Link} (hcalm : Daemon.Calm env) (hhost : env.host = .little)
      (htake : Link.Step (s.up c) (.receive input) l)
      (hserve : Daemon.Delivers env s.daemon c input sent d') (hsends : Sends s.down sent down') :
      Step s .act { s with daemon := d', up := Function.update s.up c l, down := down' }
  /-- The callback of a client gets a message. -/
  | receive {c : Conn} {input input' : Stream} {l : Link} {answer : Option Answer}
      {ac : AccessConcentrator} (htake : Link.Step (s.down c) (.receive input) l)
      (hreceive : receiveMessageTcpInternal .little (s.clients c).session.ac input =
        .ok ((answer, ac), input')) :
      Step s .act
        { s with
          clients := Function.update s.clients c
            ⟨⟨ac, (s.clients c).session.nextHandle⟩, (s.clients c).heard answer⟩
          down := Function.update s.down c l }
  | moveUp {c : Conn} {l : Link} (hmove : Link.Step (s.up c) .move l) :
      Step s .move { s with up := Function.update s.up c l }
  | moveDown {c : Conn} {l : Link} (hmove : Link.Step (s.down c) .move l) :
      Step s .move { s with down := Function.update s.down c l }

/-- States between two events of a run. -/
def Reachable (s : Deployment) : Prop := Lts.Reachable Step {} s

/-- A step that changes what the clients have in a certain way. -/
def StepWith (P : Daemon → (Conn → Tclmc) → (Conn → Tclmc) → Prop) (s : Deployment) (m : Motion)
    (s' : Deployment) : Prop :=
  Step s m s' ∧ P s.daemon s.clients s'.clients

-- ============================================================================
-- A deployment is a cluster
-- ============================================================================

/-- The messages of the cluster are on their way. -/
structure Refines (s : Deployment) (t : Cluster) : Prop where
  clients : s.clients = t.clients
  daemon : s.daemon = t.daemon
  sound : t.Sound
  wellFormed : ∀ c, ∀ r ∈ t.toClient c, r.WellFormed
  up : ∀ c, (s.up c).InFlight ((t.toServer c).map Request.message)
  down : ∀ c, (s.down c).InFlight ((t.toClient c).map Reply.message)

theorem refines_init : Refines {} {} where
  clients := rfl
  daemon := rfl
  sound := Cluster.sound_init
  wellFormed := nofun
  up := fun _ => Link.inFlight_new true
  down := fun _ => Link.inFlight_new true

theorem inFlight_move {l l' : Link} {ms : List Message} (h : l.InFlight ms)
    (hmove : Link.Step l .move l') : l'.InFlight ms := by
  cases hmove with
  | dataOut hanswer hout => exact h.dataOut hanswer hout
  | mainLoop => exact h.mainLoop
  | dataIn hheap hheaps hwire hchunk hfuel hin => exact h.dataIn hheap hheaps hwire hchunk hfuel hin

theorem inFlight_send {l l' : Link} {ms : List Message} {out : Stream} {m : Message}
    (h : l.InFlight ms) (hout : out.Frames m) (hsend : Link.Step l (.send out) l') :
    l'.InFlight (ms ++ [m]) := by
  cases hsend with
  | @send ctl => exact h.send ctl hout

theorem inFlight_receive {l l' : Link} {ms : List Message} {input : Stream} (h : l.InFlight ms)
    (htake : Link.Step l (.receive input) l') :
    ∃ m ms', ms = m :: ms' ∧ input.Carries m ∧ l'.InFlight ms' := by
  cases htake with
  | receive hhanded => exact h.receive hhanded

/-- The messages of the daemon join the channels of their connections. -/
theorem Sends.inFlight {ls ls' : Conn → Link} {sent : List Packet} (h : Sends ls sent ls') :
    ∀ {rs : List (Conn × Reply)} {ms : Conn → List Message},
      List.Forall₂ Daemon.Carries sent rs → (∀ x ∈ rs, x.2.WellFormed) →
      (∀ k, (ls k).InFlight (ms k)) →
      ∀ k, (ls' k).InFlight (ms k ++ (Daemon.repliesOn k rs).map Reply.message) := by
  induction h with
  | nil =>
      intro rs ms hrs _ hls k
      cases hrs
      rw [show Daemon.repliesOn k [] = [] from rfl, List.map_nil, List.append_nil]
      exact hls k
  | @cons ls ls' k₀ out l sent hsend _ ih =>
      intro rs ms hrs hwf hls k
      cases hrs with
      | @cons _ x _ rs hx hrs =>
          obtain ⟨hconn, hbytes, hcap⟩ := hx
          have hframes : out.Frames x.2.message :=
            ⟨Reply.fits (hwf x List.mem_cons_self), hbytes, hcap⟩
          have hls' : ∀ k', (Function.update ls k₀ l k').InFlight
              (Function.update ms k₀ (ms k₀ ++ [x.2.message]) k') := by
            intro k'
            by_cases hk : k' = k₀
            · subst hk
              rw [Function.update_self, Function.update_self]
              exact inFlight_send (hls k') hframes hsend
            · rw [Function.update_of_ne hk, Function.update_of_ne hk]
              exact hls k'
          have hrest := ih hrs (fun y hy => hwf y (List.mem_cons_of_mem x hy)) hls' k
          rw [Daemon.repliesOn_cons]
          by_cases hk : k = k₀
          · rw [hk, Function.update_self] at hrest
            rw [hk, if_pos hconn.symm, List.map_cons, ← List.singleton_append, ← List.append_assoc]
            exact hrest
          · rw [Function.update_of_ne hk] at hrest
            rw [if_neg fun heq => hk (heq.symm.trans hconn.symm)]
            exact hrest

variable {s s' : Deployment} {t : Cluster}

/-- What a client writes to its connection for a call. -/
theorem Refines.issue (h : Refines s t) {c : Conn} {heap : Heap} {call : Call} {out : Stream}
    {ac : AccessConcentrator} {l : Link} (hheap : heap.Ample) {q : Request}
    (hq : (s.clients c).session.ac.request call = q) (hpath : q.path.length ≤ maxPathLength)
    (hissue : (s.clients c).session.ac.issue .little heap (s.clients c).session.nextHandle call =
      .ok (some out, ac)) (hsend : Link.Step (s.up c) (.send out) l) :
    ac = (s.clients c).session.ac.remember (s.clients c).session.nextHandle call ∧
      l.InFlight ((t.toServer c ++ [q]).map Request.message) := by
  subst hq
  obtain ⟨out', hissue', hfilled⟩ := (s.clients c).session.ac.issue_spec hheap
    (s.clients c).session.nextHandle call hpath
  cases hissue.symm.trans hissue'
  have hcap := hfilled.length_le
  rw [← hfilled.length] at hcap
  refine ⟨rfl, ?_⟩
  rw [List.map_append]
  exact inFlight_send (h.up c) ⟨Request.fits hpath, hfilled.bytes_eq, hcap⟩ hsend

/-- A client has sent a request. -/
theorem Refines.sends (h : Refines s t) {c : Conn} {client : Tclmc} {q : Request} {l : Link}
    (hl : l.InFlight ((t.toServer c ++ [q]).map Request.message))
    (hsound : (t.sends c client q).Sound) :
    Refines { s with clients := Function.update s.clients c client, up := Function.update s.up c l }
      (t.sends c client q) where
  clients := by rw [h.clients]; rfl
  daemon := h.daemon
  sound := hsound
  wellFormed := h.wellFormed
  up k := by
    by_cases hk : k = c
    · subst hk
      rw [Cluster.toServer_sends_self]
      simp only [Function.update_self]
      exact hl
    · rw [Cluster.toServer_sends_ne _ _ _ _ hk]
      simp only [Function.update_of_ne hk]
      exact h.up k
  down := h.down

theorem Refines.ask (h : Refines s t) {c : Conn} {pid : UInt32} {p : ProcessImpl} {q : Request}
    {heap : Heap} {out : Stream} {ac : AccessConcentrator} {l : Link}
    (hp : (s.clients c).processes pid = some p) (hidle : p.call = none)
    (hq : q.lockProcess = some pid) (hpath : q.path.length ≤ maxPathLength) (hheap : heap.Ample)
    (hissue : (s.clients c).session.ac.issue .little heap (s.clients c).session.nextHandle
      (callOf q) = .ok (some out, ac)) (hsend : Link.Step (s.up c) (.send out) l) :
    Refines
      { s with
        clients := Function.update s.clients c ⟨⟨ac, (s.clients c).session.nextHandle + 1⟩,
          ((s.clients c).ask pid p q).processes⟩
        up := Function.update s.up c l } (t.sends c ((s.clients c).ask pid p q) q) := by
  obtain ⟨rfl, hl⟩ := h.issue hheap (request_callOf hq _) hpath hissue hsend
  have hsound := h.sound.ask (c := c) (h.clients ▸ hp) hidle hq hpath
  rw [← h.clients] at hsound
  exact h.sends hl hsound

theorem Refines.register (h : Refines s t) {c : Conn} {heap : Heap} {out : Stream}
    {ac : AccessConcentrator} {l : Link} (hheap : heap.Ample)
    (hissue : (s.clients c).session.ac.issue .little heap (s.clients c).session.nextHandle
      .registerProcess = .ok (some out, ac)) (hsend : Link.Step (s.up c) (.send out) l) :
    Refines
      { s with
        clients := Function.update s.clients c ⟨⟨ac, (s.clients c).session.nextHandle + 1⟩,
          (s.clients c).register.processes⟩
        up := Function.update s.up c l }
      (t.sends c (s.clients c).register (Cluster.nextRegistration (s.clients c))) := by
  obtain ⟨rfl, hl⟩ := h.issue hheap rfl (Nat.zero_le _) hissue hsend
  have hsound := h.sound.register c
  rw [← h.clients] at hsound
  exact h.sends hl hsound

theorem Refines.leave (h : Refines s t) {c : Conn} {pid : UInt32} {p : ProcessImpl}
    {heap : Heap} {out : Stream} {ac : AccessConcentrator} {l : Link}
    (hp : (s.clients c).processes pid = some p) (hidle : p.call = none) (hheap : heap.Ample)
    (hissue : (s.clients c).session.ac.issue .little heap (s.clients c).session.nextHandle
      (.unregisterProcess pid) = .ok (some out, ac)) (hsend : Link.Step (s.up c) (.send out) l) :
    Refines
      { s with
        clients := Function.update s.clients c ⟨⟨ac, (s.clients c).session.nextHandle + 1⟩,
          ((s.clients c).leave pid).processes⟩
        up := Function.update s.up c l }
      (t.sends c ((s.clients c).leave pid) (.unregisterProcess pid)) := by
  obtain ⟨rfl, hl⟩ := h.issue hheap rfl (Nat.zero_le _) hissue hsend
  have hsound := h.sound.leave (c := c) (h.clients ▸ hp) hidle
  rw [← h.clients] at hsound
  exact h.sends hl hsound

/-- The daemon has taken the first request of a connection. -/
theorem Refines.serve (h : Refines s t) {c : Conn} {q : Request} {rest : List Request} {l : Link}
    {sent : List Packet} {rs : List (Conn × Reply)} {d' : Daemon} {down' : Conn → Link}
    (hq : t.toServer c = q :: rest) (hl : l.InFlight (rest.map Request.message))
    (hexchange : t.daemon.Exchange c q rs d') (hrs : List.Forall₂ Daemon.Carries sent rs)
    (hwf : ∀ x ∈ rs, x.2.WellFormed) (hsends : Sends s.down sent down') :
    Refines { s with daemon := d', up := Function.update s.up c l, down := down' }
      (t.serves c rest rs d') where
  clients := h.clients
  daemon := rfl
  sound := h.sound.serve hq hexchange
  wellFormed k r hr := by
    rcases List.mem_append.mp hr with hr | hr
    · exact h.wellFormed k r hr
    · exact hwf (k, r) (Daemon.mem_repliesOn.mp hr)
  up k := by
    by_cases hk : k = c
    · subst hk
      simp only [Cluster.serves, Function.update_self]
      exact hl
    · simp only [Cluster.serves, Function.update_of_ne hk]
      exact h.up k
  down k := by
    show (down' k).InFlight ((t.toClient k ++ Daemon.repliesOn k rs).map Reply.message)
    rw [List.map_append]
    exact hsends.inFlight hrs hwf h.down k

/-- A client has taken the first reply of its connection. -/
theorem Refines.receive (h : Refines s t) {c : Conn} {r : Reply} {rest : List Reply}
    {input input' : Stream} {l : Link} {answer : Option Answer} {ac : AccessConcentrator}
    (hr : t.toClient c = r :: rest) (hinput : input.Carries r.message)
    (hl : l.InFlight (rest.map Reply.message))
    (hreceive : receiveMessageTcpInternal .little (s.clients c).session.ac input =
      .ok ((answer, ac), input')) :
    Refines
      { s with
        clients := Function.update s.clients c
          ⟨⟨ac, (s.clients c).session.nextHandle⟩, (s.clients c).heard answer⟩
        down := Function.update s.down c l } (t.receives c r rest) := by
  have hwf := h.wellFormed c r (by rw [hr]; exact List.mem_cons_self)
  have hrun := hreceive.symm.trans (hinput.run ((s.clients c).session.ac.gets_reply hwf))
  obtain ⟨rfl, rfl⟩ := Prod.mk.inj (congrArg Prod.fst (Except.ok.inj hrun))
  have hclients := h.clients
  refine ⟨by rw [hclients]; rfl, h.daemon, h.sound.receive hr, fun k r' hr' => ?_, h.up, fun k => ?_⟩
  · refine h.wellFormed k r' ?_
    by_cases hk : k = c
    · subst hk
      rw [Cluster.toClient_receives_self] at hr'
      rw [hr]
      exact List.mem_cons_of_mem r hr'
    · rw [Cluster.toClient_receives_ne hk] at hr'
      exact hr'
  · by_cases hk : k = c
    · subst hk
      rw [Cluster.toClient_receives_self]
      simp only [Function.update_self]
      exact hl
    · rw [Cluster.toClient_receives_ne hk]
      simp only [Function.update_of_ne hk]
      exact h.down k

theorem Refines.moveUp (h : Refines s t) {c : Conn} {l : Link}
    (hmove : Link.Step (s.up c) .move l) : Refines { s with up := Function.update s.up c l } t := by
  refine ⟨h.clients, h.daemon, h.sound, h.wellFormed, fun k => ?_, h.down⟩
  by_cases hk : k = c
  · subst hk
    simp only [Function.update_self]
    exact inFlight_move (h.up k) hmove
  · simp only [Function.update_of_ne hk]
    exact h.up k

theorem Refines.moveDown (h : Refines s t) {c : Conn} {l : Link}
    (hmove : Link.Step (s.down c) .move l) :
    Refines { s with down := Function.update s.down c l } t := by
  refine ⟨h.clients, h.daemon, h.sound, h.wellFormed, h.up, fun k => ?_⟩
  by_cases hk : k = c
  · subst hk
    simp only [Function.update_self]
    exact inFlight_move (h.down k) hmove
  · simp only [Function.update_of_ne hk]
    exact h.down k

/-- A client takes the bytes of a reply from its connection. -/
structure Hears (s s' : Deployment) (c : Conn) (r : Reply) : Prop where
  wellFormed : r.WellFormed
  bytes : ∃ input, Link.Step (s.down c) (.receive input) (s'.down c) ∧ input.Carries r.message

/-- What a party does is an event of the cluster. -/
theorem Refines.acts (h : Refines s t) (hstep : Step s .act s') :
    ∃ e t', Cluster.Step t e t' ∧ Refines s' t' ∧ ∀ c r, e = .received c r → Hears s s' c r := by
  cases hstep with
  | ask hp hidle hq hoffered hpath hheap hissue hsend =>
      have hrefines := h.ask hp hidle hq hpath hheap hissue hsend
      rw [h.clients] at hp
      refine ⟨_, _, .ask hp hidle hq hoffered hpath, ?_, fun _ _ heq => by cases heq⟩
      rw [← h.clients]
      exact hrefines
  | @register c _ _ _ _ hheap hissue hsend =>
      refine ⟨_, _, .register (c := c), ?_, fun _ _ heq => by cases heq⟩
      rw [← h.clients]
      exact h.register hheap hissue hsend
  | leave hp hidle hheap hissue hsend =>
      have hrefines := h.leave hp hidle hheap hissue hsend
      rw [h.clients] at hp
      refine ⟨_, _, .leave hp hidle, ?_, fun _ _ heq => by cases heq⟩
      rw [← h.clients]
      exact hrefines
  | @serve c env input l sent d' down' hcalm hhost htake hserve hsends =>
      obtain ⟨m, ms, hms, hinput, hl⟩ := inFlight_receive (h.up c) htake
      obtain ⟨q, rest, hq, rfl, rfl⟩ := List.map_eq_cons_iff.mp hms
      have hpath := h.sound.paths c q (by rw [hq]; exact List.mem_cons_self)
      rw [h.daemon] at hserve
      obtain ⟨rs, hexchange, hrs, hwf⟩ :=
        Daemon.exchange_of_delivers hcalm hhost h.sound.daemon hpath hinput hserve
      exact ⟨_, _, .serve hq hexchange, h.serve hq hl hexchange hrs hwf hsends,
        fun _ _ heq => by cases heq⟩
  | @receive c input input' l answer ac htake hreceive =>
      obtain ⟨m, ms, hms, hinput, hl⟩ := inFlight_receive (h.down c) htake
      obtain ⟨r, rest, hr, rfl, rfl⟩ := List.map_eq_cons_iff.mp hms
      refine ⟨_, _, .receive hr, h.receive hr hinput hl hreceive, fun _ _ heq => ?_⟩
      cases heq
      refine ⟨h.wellFormed c r (by rw [hr]; exact List.mem_cons_self), input, ?_, hinput⟩
      show Link.Step (s.down c) (.receive input) (Function.update s.down c l c)
      rw [Function.update_self]
      exact htake

/-- What the parties do is an event of the cluster, which does not notice how the bytes move. -/
theorem deployment_simulates : Lts.Simulation Step Motion.view
    (fun t (_ : Unit) t' => ∃ e, Cluster.Step t e t') Refines where
  visible := by
    intro s s' t m _ h hstep hview
    cases m with
    | act =>
        obtain ⟨e, t', hstep', h', -⟩ := h.acts hstep
        exact ⟨t', ⟨e, hstep'⟩, h'⟩
    | move => cases hview
  internal := by
    intro s s' t e h hstep hview
    cases hstep with
    | ask | register | leave | serve | receive => cases hview
    | moveUp hmove => exact h.moveUp hmove
    | moveDown hmove => exact h.moveDown hmove

/-- No byte is on its way. -/
structure Silent (s : Deployment) : Prop where
  up : ∀ c, (s.up c).Empty
  down : ∀ c, (s.down c).Empty

theorem Refines.silent_iff (h : Refines s t) : s.Silent ↔ t.Silent := by
  have hup : ∀ c, (s.up c).Empty ↔ t.toServer c = [] := fun c =>
    (h.up c).empty_iff.trans List.map_eq_nil_iff
  have hdown : ∀ c, (s.down c).Empty ↔ t.toClient c = [] := fun c =>
    (h.down c).empty_iff.trans List.map_eq_nil_iff
  constructor
  · rintro ⟨hs, hs'⟩
    exact ⟨fun c => (hup c).mp (hs c), fun c => (hdown c).mp (hs' c)⟩
  · rintro ⟨ht, ht'⟩
    exact ⟨fun c => (hup c).mpr (ht c), fun c => (hdown c).mpr (ht' c)⟩

-- ============================================================================
-- A cluster is a deployment
-- ============================================================================

/-- Bytes move on the way to the daemon. -/
theorem Refines.movesUp (h : Refines s t) {c : Conn} {l : Link} (hmoves : (s.up c).Moves l) :
    ∃ es, Lts.Trace Step s es { s with up := Function.update s.up c l } ∧
      es.filterMap Motion.view = [] ∧ Refines { s with up := Function.update s.up c l } t := by
  refine hmoves.invariant (P := fun l => ∃ es,
    Lts.Trace Step s es { s with up := Function.update s.up c l } ∧
      es.filterMap Motion.view = [] ∧ Refines { s with up := Function.update s.up c l } t) ?_ ?_
  · rw [Function.update_eq_self]
    exact ⟨[], .nil, rfl, h⟩
  · rintro l₁ l₂ ⟨es, hrun, hview, h₁⟩ hmove
    have hmove' : Link.Step (Function.update s.up c l₁ c) .move l₂ := by
      rw [Function.update_self]
      exact hmove
    have hstep : Step { s with up := Function.update s.up c l₁ } .move _ := .moveUp hmove'
    have hrefines := h₁.moveUp hmove'
    simp only [Function.update_idem] at hstep hrefines
    exact ⟨_, hrun.snoc hstep, by rw [List.filterMap_append, hview]; rfl, hrefines⟩

/-- Bytes move on the way to a client. -/
theorem Refines.movesDown (h : Refines s t) {c : Conn} {l : Link} (hmoves : (s.down c).Moves l) :
    ∃ es, Lts.Trace Step s es { s with down := Function.update s.down c l } ∧
      es.filterMap Motion.view = [] ∧ Refines { s with down := Function.update s.down c l } t := by
  refine hmoves.invariant (P := fun l => ∃ es,
    Lts.Trace Step s es { s with down := Function.update s.down c l } ∧
      es.filterMap Motion.view = [] ∧ Refines { s with down := Function.update s.down c l } t) ?_ ?_
  · rw [Function.update_eq_self]
    exact ⟨[], .nil, rfl, h⟩
  · rintro l₁ l₂ ⟨es, hrun, hview, h₁⟩ hmove
    have hmove' : Link.Step (Function.update s.down c l₁ c) .move l₂ := by
      rw [Function.update_self]
      exact hmove
    have hstep : Step { s with down := Function.update s.down c l₁ } .move _ := .moveDown hmove'
    have hrefines := h₁.moveDown hmove'
    simp only [Function.update_idem] at hstep hrefines
    exact ⟨_, hrun.snoc hstep, by rw [List.filterMap_append, hview]; rfl, hrefines⟩

/-- The messages of the daemon can be sent. -/
theorem sends_of_carries {sent : List Packet} {rs : List (Conn × Reply)}
    (hrs : List.Forall₂ Daemon.Carries sent rs) (hwf : ∀ x ∈ rs, x.2.WellFormed)
    (ls : Conn → Link) : ∃ ls', Sends ls sent ls' := by
  induction hrs generalizing ls with
  | nil => exact ⟨ls, .nil ls⟩
  | @cons p x sent rs hx _ ih =>
      obtain ⟨k, out⟩ := p
      obtain ⟨-, hbytes, hcap⟩ := hx
      have hframes : out.Frames x.2.message :=
        ⟨Reply.fits (hwf x List.mem_cons_self), hbytes, hcap⟩
      obtain ⟨ls', hsends⟩ := ih (fun y hy => hwf y (List.mem_cons_of_mem x hy))
        (Function.update ls k { ls k with sending := (ls k).sending.send true out })
      exact ⟨ls', .cons (.send ⟨_, hframes⟩) hsends⟩

/-- A call can be issued. -/
theorem issues (s : Deployment) (c : Conn) (call : Call) {q : Request}
    (hq : (s.clients c).session.ac.request call = q) (hpath : q.path.length ≤ maxPathLength) :
    ∃ out ac l, (s.clients c).session.ac.issue .little .zeros (s.clients c).session.nextHandle call =
      .ok (some out, ac) ∧ Link.Step (s.up c) (.send out) l := by
  subst hq
  obtain ⟨out, hissue, hfilled⟩ := (s.clients c).session.ac.issue_spec Heap.ample_zeros
    (s.clients c).session.nextHandle call hpath
  have hcap := hfilled.length_le
  rw [← hfilled.length] at hcap
  have hframes : ∃ m, out.Frames m := ⟨_, Request.fits hpath, hfilled.bytes_eq, hcap⟩
  have hsend : Link.Step (s.up c) (.send out)
      { s.up c with sending := (s.up c).sending.send true out } := .send hframes
  exact ⟨out, _, _, hissue, hsend⟩

/-- Whatever happens in a cluster can happen in a deployment: the bytes of the message that
    comes next can move first. -/
theorem Refines.realise (h : Refines s t) {e : ClusterEvent} {t' : Cluster}
    (hstep : Cluster.Step t e t') :
    ∃ es s₁ s', Lts.Trace Step s es s₁ ∧ es.filterMap Motion.view = [] ∧ Refines s₁ t ∧
      Step s₁ .act s' ∧ Refines s' t' := by
  have hone : ∀ {s'}, Step s .act s' → Refines s' t' →
      ∃ es s₁ s', Lts.Trace Step s es s₁ ∧ es.filterMap Motion.view = [] ∧ Refines s₁ t ∧
        Step s₁ .act s' ∧ Refines s' t' :=
    fun hact hrefines => ⟨[], s, _, .nil, rfl, h, hact, hrefines⟩
  cases hstep with
  | @ask c pid p q hp hidle hq hoffered hpath =>
      rw [← h.clients] at hp hone ⊢
      obtain ⟨out, ac, l, hissue, hsend⟩ := s.issues c _ (request_callOf hq _) hpath
      exact hone (.ask hp hidle hq hoffered hpath Heap.ample_zeros hissue hsend)
        (h.ask hp hidle hq hpath Heap.ample_zeros hissue hsend)
  | @register c =>
      rw [← h.clients] at hone ⊢
      obtain ⟨out, ac, l, hissue, hsend⟩ := s.issues c .registerProcess rfl (Nat.zero_le _)
      exact hone (.register Heap.ample_zeros hissue hsend)
        (h.register Heap.ample_zeros hissue hsend)
  | @leave c pid p hp hidle =>
      rw [← h.clients] at hp hone ⊢
      obtain ⟨out, ac, l, hissue, hsend⟩ :=
        s.issues c (.unregisterProcess pid) rfl (Nat.zero_le _)
      exact hone (.leave hp hidle Heap.ample_zeros hissue hsend)
        (h.leave hp hidle Heap.ample_zeros hissue hsend)
  | @serve c q rest rs d' hq hexchange =>
      have hpath := h.sound.paths c q (by rw [hq]; exact List.mem_cons_self)
      have hup := h.up c
      rw [hq] at hup
      obtain ⟨l₁, input, l₂, hmoves, htake, hinput, hl⟩ := hup.hand
      obtain ⟨es, hrun, hview, h₁⟩ := h.movesUp hmoves
      obtain ⟨env, sent, hcalm, hhost, hdelivers, hrs, hwf⟩ :=
        Daemon.delivers_of_exchange h.sound.daemon hpath hinput hexchange
      obtain ⟨down', hsends⟩ := sends_of_carries hrs hwf s.down
      have hself : Function.update s.up c l₁ c = l₁ := Function.update_self ..
      rw [← h.daemon] at hdelivers
      have hact : Step { s with up := Function.update s.up c l₁ } .act _ :=
        .serve (c := c) hcalm hhost (hself ▸ htake) hdelivers hsends
      exact ⟨es, _, _, hrun, hview, h₁, hact, h₁.serve hq hl hexchange hrs hwf hsends⟩
  | @receive c r rest hr =>
      have hdown := h.down c
      rw [hr] at hdown
      obtain ⟨l₁, input, l₂, hmoves, htake, hinput, hl⟩ := hdown.hand
      obtain ⟨es, hrun, hview, h₁⟩ := h.movesDown hmoves
      have hwf := h.wellFormed c r (by rw [hr]; exact List.mem_cons_self)
      have hreceive := hinput.run ((s.clients c).session.ac.gets_reply hwf)
      have hself : Function.update s.down c l₁ c = l₁ := Function.update_self ..
      have hact : Step { s with down := Function.update s.down c l₁ } .act _ :=
        .receive (c := c) (hself ▸ htake) hreceive
      exact ⟨es, _, _, hrun, hview, h₁, hact, h₁.receive hr hinput hl hreceive⟩

theorem reachable_of_simulated {t : Cluster}
    (h : Lts.Reachable (fun t (_ : Unit) t' => ∃ e, Cluster.Step t e t') {} t) : t.Reachable :=
  h.invariant Cluster.Reachable (Lts.Reachable.refl _) fun ht ⟨_, hstep⟩ => ht.next hstep

theorem Reachable.refines (h : s.Reachable) : ∃ t : Cluster, t.Reachable ∧ Refines s t := by
  obtain ⟨t, ht, hrefines⟩ := deployment_simulates.reachable refines_init h
  exact ⟨t, reachable_of_simulated ht, hrefines⟩

section

variable {P : Daemon → (Conn → Tclmc) → (Conn → Tclmc) → Prop}

/-- The clients do not notice how the bytes move. -/
theorem clients_of_move (h : Step s .move s') : s'.clients = s.clients := by
  cases h with
  | moveUp | moveDown => rfl

theorem moves_with (hrefl : ∀ d clients, P d clients clients) {ms : List Motion}
    (hrun : Lts.Trace Step s ms s') (hview : ms.filterMap Motion.view = []) :
    Lts.Trace (StepWith P) s ms s' := by
  induction hrun with
  | nil => exact .nil
  | @snoc s₁ s₂ ms m _ hstep ih =>
      rw [List.filterMap_append, List.append_eq_nil_iff] at hview
      cases m with
      | act => cases hview.2
      | move =>
          refine (ih hview.1).snoc ⟨hstep, ?_⟩
          rw [clients_of_move hstep]
          exact hrefl _ _

/-- A run of a cluster is one of a deployment, with clients that change in the same way. -/
theorem Refines.realise_trace (hrefl : ∀ d clients, P d clients clients) (h : Refines s t)
    {es : List ClusterEvent} {t' : Cluster} (hrun : Lts.Trace (Cluster.StepWith P) t es t') :
    ∃ ms s', Lts.Trace (StepWith P) s ms s' ∧ Refines s' t' := by
  induction hrun with
  | nil => exact ⟨[], s, .nil, h⟩
  | snoc _ hstep ih =>
      obtain ⟨ms, s₁, hrun₁, h₁⟩ := ih
      obtain ⟨ms', s₂, s', hrun₂, hview, h₂, hact, h'⟩ := h₁.realise hstep.1
      refine ⟨_, s', (hrun₁.append (moves_with hrefl hrun₂ hview)).snoc ⟨hact, ?_⟩, h'⟩
      rw [h₂.daemon, h₂.clients, h'.clients]
      exact hstep.2

/-- What the clients of a deployment do is what those of the cluster do. -/
theorem simulates_with : Lts.Simulation (StepWith P) Motion.view
    (fun t (_ : Unit) t' => ∃ e, Cluster.StepWith P t e t') Refines where
  visible := by
    rintro s s' t m d h ⟨hstep, hP⟩ hview
    obtain ⟨t', ⟨e, hstep'⟩, h'⟩ := deployment_simulates.visible h hstep hview
    rw [h.daemon, h.clients, h'.clients] at hP
    exact ⟨t', ⟨e, hstep', hP⟩, h'⟩
  internal := fun h hstep hview => deployment_simulates.internal h hstep.1 hview

end

theorem realised (h : t.Reachable) : ∃ s : Deployment, s.Reachable ∧ Refines s t := by
  obtain ⟨es, hrun⟩ := h
  obtain ⟨ms, s, hrun', hrefines⟩ := refines_init.realise_trace (P := fun _ _ _ => True)
    (fun _ _ => trivial) (hrun.mono fun hstep => ⟨hstep, trivial⟩)
  exact ⟨s, ⟨ms, hrun'.mono And.left⟩, hrefines⟩

/-- Every run of a deployment is a run of a cluster, and the other way round. -/
theorem deployment_is_cluster :
    (∀ s : Deployment, s.Reachable → ∃ t : Cluster, t.Reachable ∧ Refines s t) ∧
      ∀ t : Cluster, t.Reachable → ∃ s : Deployment, s.Reachable ∧ Refines s t :=
  ⟨fun _ h => h.refines, fun _ h => realised h⟩

end Deployment

end Tclm.System
