/-
  Tclm.Server.Grants

  What the forest has granted.

  An acquire request gets its lock at once, or later, while another operation releases
  something.  Each reply that says so stands for a grant of its own, and when it is sent
  the process holds the lock (`grants_sent`).
-/

import Tclm.Server.FollowUp

open Tclm.Comm
open Tclm.Comm.Stream

namespace Tclm.Server

namespace LockForest

/-- A request that is granted at once is in force. -/
theorem Enters.granted {f f' : LockForest} {r r' : LockRequest} {ret : AcquireStatus} {c : LockName}
    {l l' : Lock} (h : Enters f r ret f' c l l' r') (hret : ret = .acquired) : f'.Granted r := by
  obtain ⟨n, m, hn, hm, hholds⟩ := h.acquires.holds hret
  refine ⟨n, m, ?_, hm, hholds⟩
  rw [h.at_root.path, List.singleton_append, h.updates.node?_after]
  exact hn

end LockForest

namespace Backend

-- ============================================================================
-- Grants of an operation
-- ============================================================================

/-- The process holds the lock with this path in the mode. -/
def Holds (b : Backend) (pid : UInt32) (x : ProcessRef) (path : LockPath) (mode : UInt8) : Prop :=
  (∃ p, b.processes.lookup pid = some p ∧ p.object = x) ∧ b.forest.HeldBy x path mode

/-- The operation acquires the lock, and the process holds it when the operation returns. -/
def Event.GrantsNow (e : Event) (b' : Backend) (pid : UInt32) (path : LockPath) (mode : UInt8) :
    Prop :=
  (∃ s, e.op = .acquireLock pid s mode ∧ splitPath s = path) ∧ e.result = .acquired .acquired ∧
    ∃ x, b'.Holds pid x path mode

/-- The acquire request `r`, which has waited, was granted the lock, and the process holds it
    when the operation returns. -/
def GrantsLater (b' : Backend) (pid : UInt32) (path : LockPath) (mode : UInt8) (r : LockRequest) :
    Prop :=
  r.createMissing = false ∧ r.acquireStatus = .acquired ∧ r.path = path ∧ r.mode = mode ∧
    b'.Holds pid r.requester path mode

open Classical in
/-- How many acquire requests of the process the operation grants the lock to. -/
noncomputable def Event.granted (e : Event) (b' : Backend) (pid : UInt32) (path : LockPath)
    (mode : UInt8) : Nat :=
  (if e.GrantsNow b' pid path mode then 1 else 0) +
    (e.answered.filter (b'.GrantsLater pid path mode)).card

/-- `acquire_lock` returns `ACQUIRED` to a process that holds the lock. -/
theorem holds_of_acquireLock {b b' : Backend} {pid : UInt32} {path : PathString} {mode : UInt8}
    (h : b.acquireLock pid path mode = .ok (.acquired, b')) :
    ∃ x, b'.Holds pid x (splitPath path) mode := by
  unfold acquireLock at h
  cases hp : b.processes.lookup pid with
  | none =>
      simp only [hp] at h
      cases h
  | some p =>
      simp only [hp] at h
      rcases b.forest.acquire_spec b.nextRequest p path mode with
        ⟨-, hrun⟩ | ⟨ret, l, l', r', hl, henter, hrun⟩
      · simp only [hrun, bind, Except.bind] at h
        cases h
      · simp only [hrun, bind, Except.bind] at h
        cases ret with
        | queued | nonExistent => cases h
        | acquired =>
            cases h
            refine ⟨p.object, ⟨p.addHeldLock path mode, ?_, rfl⟩, henter.granted rfl⟩
            exact lookup_update (f := b.forest.setRoot (rootName path) l') hp

/-- A granted request of a process that is registered afterwards is in force. -/
theorem Step.grantsLater {b b' : Backend} {e : Event} (h : Step b e b') (hb : Reachable b)
    {r : LockRequest} (hr : r ∈ e.answered) (hcreate : r.createMissing = false)
    (hstatus : r.acquireStatus = .acquired) {pid : UInt32} {p : Process}
    (hp : b'.processes.lookup pid = some p) (hobj : p.object = r.requester) :
    b'.GrantsLater pid r.path r.mode r := by
  refine ⟨hcreate, hstatus, rfl, rfl, ⟨p, hp, hobj⟩, ?_⟩
  refine (answers_of_step hb h hr).1 hstatus fun id q hop hq heq => ?_
  -- the process that is unregistered is not registered afterwards
  have hne : e.op ≠ .registerProcess := by
    rw [hop]
    exact nofun
  obtain ⟨p₀, hp₀, hobj₀⟩ := h.registered_before hne hp
  have hid : pid = id := hb.registry.distinct.unique hp₀ hq (hobj₀.trans (hobj.trans heq))
  rcases h.answered_cases hr with ⟨_, _, _, _, _, _, _, _, hop', -⟩ | ⟨id', b₁, hop', -, rfl⟩
  · rw [hop] at hop'
    cases hop'
  · rw [hop] at hop'
    cases hop'
    rw [hid, drop, SortedMap.lookup_erase_self] at hp
    cases hp

end Backend

namespace Daemon

open Backend (Op Result Event)

-- ============================================================================
-- Grants of a message
-- ============================================================================

/-- The call of the backend that is made for a message, and the backend afterwards. -/
def call (d : Daemon) (env : Env) (input : Stream) : Option (Event × Backend) :=
  match asked env.host input with
  | .ok (some op, _) =>
      match d.backend.step env.fuel op with
      | .ok (res, answered, b') => some (⟨op, res, answered⟩, b')
      | .error _ => none
  | _ => none

/-- How many acquire requests of the process are granted the lock while the message is
    handled. -/
noncomputable def granted (d : Daemon) (env : Env) (input : Stream) (pid : UInt32) (path : LockPath)
    (mode : UInt8) : Nat :=
  match d.call env input with
  | some (e, b') => e.granted b' pid path mode
  | none => 0

/-- The reply tells the process that it was granted the lock. -/
def tellsGrant (pid : UInt32) (path : LockPath) (mode : UInt8) : Reply → Bool
  | .acquireUpdate pid' s mode' status =>
      decide (pid' = pid ∧ splitPath s = path ∧ mode' = mode ∧ status = ResponseStatus.success)
  | _ => false

/-- The bytes that are sent on a connection. -/
def sentOn (c : Conn) (sent : List Packet) : List UInt8 :=
  (sent.filter fun p => p.1 = c).flatMap fun p => p.2.bytes

theorem sentOn_append (c : Conn) (sent more : List Packet) :
    sentOn c (sent ++ more) = sentOn c sent ++ sentOn c more := by
  rw [sentOn, List.filter_append, List.flatMap_append]
  rfl

theorem sentOn_self (c : Conn) (s : Stream) : sentOn c [(c, s)] = s.bytes := by
  simp [sentOn]

theorem sentOn_other {c c' : Conn} (h : c' ≠ c) (s : Stream) : sentOn c [(c', s)] = [] := by
  simp [sentOn, h]

/-- The reply to a request is that of the call of the backend. -/
theorem step_of_respond {env : Env} {c : Conn} {d d' : Daemon} {q : Request} {r : Reply}
    {answered : Finset LockRequest} (h : d.respond env c q = .ok (r, answered, d')) :
    ∃ res, d.backend.step env.fuel (operation q) = .ok (res, answered, d'.backend) ∧
      ∀ pid path mode, tellsGrant pid path mode r = true →
        (∃ s, operation q = .acquireLock pid s mode ∧ splitPath s = path) ∧
          res = .acquired .acquired := by
  cases q with
  | registerProcess nonce =>
      rw [respond] at h
      split at h
      · rename_i id b hreg
        cases h
        refine ⟨.registered (some id), ?_, fun _ _ _ htells => by cases htells⟩
        show Except.ok (Result.registered d.backend.registerProcess.1, ∅,
          d.backend.registerProcess.2) = _
        rw [hreg, backend_updatePidConnection]
      · rename_i b hreg
        cases h
        refine ⟨.registered none, ?_, fun _ _ _ htells => by cases htells⟩
        show Except.ok (Result.registered d.backend.registerProcess.1, ∅,
          d.backend.registerProcess.2) = _
        rw [hreg]
  | unregisterProcess id =>
      obtain ⟨⟨res, as, b⟩, hrun, h⟩ := bind_eq_ok.mp h
      rw [backend_updatePidConnection] at hrun
      cases h
      exact ⟨.unregistered res, bind_eq_ok.mpr ⟨_, hrun, rfl⟩, fun _ _ _ htells => by cases htells⟩
  | createLock pid path acquireX =>
      obtain ⟨⟨res, b⟩, hrun, h⟩ := bind_eq_ok.mp h
      rw [backend_updatePidConnection] at hrun
      cases h
      exact ⟨.created res, bind_eq_ok.mpr ⟨_, hrun, rfl⟩, fun _ _ _ htells => by cases htells⟩
  | releaseLock pid path mode =>
      obtain ⟨⟨res, as, b⟩, hrun, h⟩ := bind_eq_ok.mp h
      rw [backend_updatePidConnection] at hrun
      cases h
      exact ⟨.released res, bind_eq_ok.mpr ⟨_, hrun, rfl⟩, fun _ _ _ htells => by cases htells⟩
  | acquireLock pid path mode =>
      obtain ⟨⟨res, b⟩, hrun, h⟩ := bind_eq_ok.mp h
      rw [backend_updatePidConnection] at hrun
      cases h
      refine ⟨.acquired res, bind_eq_ok.mpr ⟨_, hrun, rfl⟩, fun pid' path' mode' htells => ?_⟩
      obtain ⟨rfl, hpath, rfl, hstatus⟩ := of_decide_eq_true htells
      refine ⟨⟨path, rfl, hpath⟩, ?_⟩
      cases res with
      | acquired => rfl
      | noSuchProcess | queued | noSuchLock => exact absurd hstatus (by decide)

theorem call_of_respond {env : Env} (hhost : env.host = .little) {c : Conn} {d d' : Daemon}
    {q : Request} (hpath : q.path.length ≤ maxPathLength) {input : Stream}
    (hinput : input.Carries q.message) {r : Reply} {answered : Finset LockRequest}
    (h : d.respond env c q = .ok (r, answered, d')) :
    ∃ res, d.call env input = some (⟨operation q, res, answered⟩, d'.backend) ∧
      Backend.Step d.backend ⟨operation q, res, answered⟩ d'.backend ∧
      ∀ pid path mode, tellsGrant pid path mode r = true →
        Event.GrantsNow ⟨operation q, res, answered⟩ d'.backend pid path mode := by
  obtain ⟨res, hstep, htells⟩ := step_of_respond h
  refine ⟨res, ?_, ⟨env.fuel, hstep⟩, fun pid path mode hr => ?_⟩
  · rw [call, hhost, hinput.run (gets_asked hpath)]
    simp only [hstep]
  · obtain ⟨⟨s, hop, hs⟩, rfl⟩ := htells pid path mode hr
    refine ⟨⟨s, hop, hs⟩, rfl, ?_⟩
    rw [hop] at hstep
    obtain ⟨⟨res', b⟩, hrun, hpure⟩ := bind_eq_ok.mp hstep
    cases hpure
    rw [← hs]
    exact Backend.holds_of_acquireLock hrun

-- ============================================================================
-- Updates
-- ============================================================================

/-- The process of a request is told on the connection, or nothing is sent there. -/
theorem notify_sentOn {env : Env} (hhost : env.host = .little) (hup : ∀ c, env.up c = true)
    (c : Conn) {d : Daemon} {r : LockRequest} (hshort : r.Short) {heap : Heap} (hheap : heap.Ample)
    {sent : List Packet} (h : d.notify env heap r = .ok sent) :
    sentOn c sent = [] ∨
      ∃ p, d.requester r = some p ∧ sentOn c sent = frame (update p.id r).message := by
  cases hp : d.requester r with
  | none =>
      rw [notify, hp] at h
      cases h
      exact Or.inl rfl
  | some p =>
      cases hc : d.tcpConn p.object with
      | none =>
          simp only [notify, hp, hc] at h
          cases h
          exact Or.inl rfl
      | some c' =>
          obtain ⟨s, hrun, hsends⟩ := notify_spec hhost hheap hshort.joined hp hc (hup c')
          rw [hrun] at h
          cases h
          by_cases heq : c' = c
          · subst heq
            exact Or.inr ⟨p, rfl, by rw [sentOn_self, hsends.1]⟩
          · exact Or.inl (sentOn_other heq s)

/-- The requests of the list whose processes are told on a connection. -/
theorem updates_sentOn {env : Env} (hhost : env.host = .little) (hup : ∀ c, env.up c = true)
    (c : Conn) {d : Daemon} {requests : List LockRequest} (hshort : ∀ r ∈ requests, r.Short) :
    ∀ {heaps : Nat → Heap} {updates : List Packet}, (∀ i, (heaps i).Ample) →
      d.notifyAnsweredRequests env heaps requests = .ok updates →
      ∃ told : List (UInt32 × LockRequest),
        sentOn c updates = frames (told.map fun x => (update x.1 x.2).message) ∧
        (told.map Prod.snd).Sublist requests ∧
        ∀ x ∈ told, ∃ p, d.requester x.2 = some p ∧ p.id = x.1 := by
  induction requests with
  | nil =>
      intro heaps updates _ h
      cases h
      exact ⟨[], rfl, .slnil, nofun⟩
  | cons r requests ih =>
      intro heaps updates hheaps h
      obtain ⟨first, hfirst, h⟩ := bind_eq_ok.mp h
      obtain ⟨more, hmore, h⟩ := bind_eq_ok.mp h
      cases h
      obtain ⟨told, hbytes, hsub, htold⟩ := ih (fun x hx => hshort x (List.mem_cons_of_mem r hx))
        (fun i => hheaps (i + 1)) hmore
      rcases notify_sentOn hhost hup c (hshort r List.mem_cons_self) (hheaps 0) hfirst with
        hnone | ⟨p, hp, hone⟩
      · refine ⟨told, ?_, hsub.cons r, htold⟩
        rw [sentOn_append, hnone, hbytes, List.nil_append]
      · refine ⟨(p.id, r) :: told, ?_, hsub.cons_cons r, ?_⟩
        · rw [sentOn_append, hone, hbytes]
          rfl
        · intro x hx
          rcases List.mem_cons.mp hx with rfl | hx
          · exact ⟨p, hp, rfl⟩
          · exact htold x hx

/-- An update tells a process of a lock that it holds. -/
theorem grantsLater_of_update {b : Backend} {e : Event} {d' : Daemon}
    (h : Backend.Step b e d'.backend) (hb : Backend.Reachable b) (hd' : Reachable d')
    {r : LockRequest} (hr : r ∈ e.answered) (hshort : r.Short) {p : Process}
    (hp : d'.requester r = some p) {pid : UInt32} {path : LockPath} {mode : UInt8}
    (htells : tellsGrant pid path mode (update p.id r) = true) :
    d'.backend.GrantsLater pid path mode r := by
  obtain ⟨hlookup, hobj⟩ := lookup_of_requester hd' hp
  obtain ⟨s, -, hs⟩ := hshort
  cases hcreate : r.createMissing with
  | true =>
      rw [update, if_pos hcreate] at htells
      cases htells
  | false =>
      have hnot : ¬ r.createMissing = true := by simp [hcreate]
      rw [update, if_neg hnot] at htells
      obtain ⟨rfl, hpath, rfl, hstatus⟩ := of_decide_eq_true htells
      have hacquired : r.acquireStatus = .acquired := by
        by_contra hne
        rw [updateStatus, if_neg hnot, if_neg hne] at hstatus
        exact absurd hstatus (by decide)
      have hgrants := h.grantsLater hb hr hcreate hacquired hlookup hobj
      rw [hs, splitPath_joinPath, ← hs] at hpath
      rw [← hpath]
      exact hgrants

open Classical in
/-- Updates that tell a process of the lock are for requests that were granted it. -/
theorem countP_updates_le {b : Backend} {e : Event} {d' : Daemon}
    (h : Backend.Step b e d'.backend) (hb : Backend.Reachable b) (hd' : Reachable d')
    (hshort : ∀ r ∈ e.answered, r.Short) {requests : List LockRequest} (hnodup : requests.Nodup)
    (hrequests : requests.toFinset = e.answered) {told : List (UInt32 × LockRequest)}
    (hsub : (told.map Prod.snd).Sublist requests)
    (htold : ∀ x ∈ told, ∃ p, d'.requester x.2 = some p ∧ p.id = x.1) (pid : UInt32)
    (path : LockPath) (mode : UInt8) :
    (told.map fun x => update x.1 x.2).countP (tellsGrant pid path mode) ≤
      (e.answered.filter (d'.backend.GrantsLater pid path mode)).card := by
  have hanswered : ∀ x ∈ told, x.2 ∈ e.answered := by
    intro x hx
    rw [← hrequests, List.mem_toFinset]
    exact hsub.subset (List.mem_map_of_mem hx)
  have hcount : (told.map fun x => update x.1 x.2).countP (tellsGrant pid path mode) ≤
      (told.map Prod.snd).countP fun r => decide (d'.backend.GrantsLater pid path mode r) := by
    rw [List.countP_map, List.countP_map]
    refine List.countP_mono_left fun x hx htells => ?_
    obtain ⟨p, hp, hid⟩ := htold x hx
    have hr := hanswered x hx
    rw [Function.comp_apply, ← hid] at htells
    exact decide_eq_true (grantsLater_of_update h hb hd' hr (hshort x.2 hr) hp htells)
  calc (told.map fun x => update x.1 x.2).countP (tellsGrant pid path mode)
      ≤ (told.map Prod.snd).countP fun r => decide (d'.backend.GrantsLater pid path mode r) := hcount
    _ ≤ requests.countP fun r => decide (d'.backend.GrantsLater pid path mode r) :=
        hsub.countP_le
    _ = (e.answered.filter (d'.backend.GrantsLater pid path mode)).card := by
        rw [List.countP_eq_length_filter, ← List.toFinset_card_of_nodup (hnodup.filter _), ← hrequests]
        congr 1
        ext r
        simp

open Classical in
/-- A request of a client is answered with replies on its connection, and each reply that tells
    a process of a lock stands for a grant of its own. -/
theorem grants_sent {env : Env} (hcalm : Calm env) (hhost : env.host = .little) {c : Conn}
    {d d' : Daemon} (hd : Reachable d) {q : Request} (hpath : q.path.length ≤ maxPathLength)
    {input : Stream} (hinput : input.Carries q.message) {sent : List Packet}
    (h : Delivers env d c input sent d') :
    ∃ rs : List Reply, sentOn c sent = frames (rs.map Reply.message) ∧ (∀ r ∈ rs, r.WellFormed) ∧
      ∀ pid path mode, rs.countP (tellsGrant pid path mode) ≤ d.granted env input pid path mode := by
  have hd' : Reachable d' := hd.next (e := ⟨env, c, input, sent⟩) h
  obtain ⟨replies, answered, requests, updates, hreceive, hnodup, hrequests, hnotify, rfl⟩ := h
  have hanswers := receiveMessageInternal_spec hhost hcalm.heap c d hpath hinput
  cases hrespond : d.respond env c q with
  | error fault =>
      rw [hrespond] at hanswers
      have heq : Except.ok (replies, answered, d') = Except.error _ := hreceive.symm.trans hanswers
      cases heq
  | ok x =>
      obtain ⟨r, answered', d''⟩ := x
      rw [hrespond] at hanswers
      obtain ⟨s, hreceive', hsends⟩ := hanswers
      obtain ⟨rfl, rfl, rfl⟩ : replies = [(c, s)] ∧ answered = answered' ∧ d' = d'' := by
        have heq := Except.ok.inj (hreceive.symm.trans hreceive')
        exact ⟨congrArg (·.1) heq, congrArg (·.2.1) heq, congrArg (·.2.2) heq⟩
      obtain ⟨res, hcall, hstep, hnow⟩ := call_of_respond hhost hpath hinput hrespond
      have hshort := (short_of_receive hreceive hd.short).2
      obtain ⟨told, hbytes, hsub, htold⟩ := updates_sentOn hhost hcalm.up c
        (fun x hx => hshort x (by rw [← hrequests]; exact List.mem_toFinset.mpr hx)) hcalm.heaps hnotify
      refine ⟨r :: told.map fun x => update x.1 x.2, ?_, ?_, fun pid path mode => ?_⟩
      · rw [sentOn_append, sentOn_self, hsends.1, hbytes, List.map_cons, frames_cons, List.map_map]
        rfl
      · intro x hx
        rcases List.mem_cons.mp hx with rfl | hx
        · exact wellFormed_respond hpath hrespond
        · obtain ⟨y, hy, rfl⟩ := List.mem_map.mp hx
          have hmem : y.2 ∈ answered := by
            rw [← hrequests, List.mem_toFinset]
            exact hsub.subset (List.mem_map_of_mem hy)
          exact wellFormed_update y.1 (hshort y.2 hmem).joined
      · have hupdates := countP_updates_le hstep hd.backend hd' hshort hnodup hrequests hsub htold pid
          path mode
        have hreply : (if tellsGrant pid path mode r = true then 1 else 0) ≤
            if Event.GrantsNow ⟨operation q, res, answered⟩ d'.backend pid path mode then 1 else 0 := by
          split
          · rename_i htells
            rw [if_pos (hnow pid path mode htells)]
          · exact Nat.zero_le _
        rw [granted, hcall, List.countP_cons]
        exact (Nat.add_comm ..).trans_le (Nat.add_le_add hreply hupdates)

end Daemon

end Tclm.Server
