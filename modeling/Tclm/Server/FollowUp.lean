/-
  Tclm.Server.FollowUp

  What becomes of a request that was answered with `QUEUED`.

  In a run in which no message makes the backend forget a waiting request
  (`keepsRequests`), and a process with a waiting request is named on its connection only
  (`keepsConnection`), the request waits until that connection is told of its end
  (`queued_followed_up`).  A release by the process itself withdraws it without a word, and
  a message on another connection draws the update to that one.
-/

import Tclm.Server.Balance
import Tclm.Server.Withdrawal
import Tclm.Server.Serving

open Tclm.Comm
open Tclm.Comm.Stream

namespace Tclm.Server

namespace Backend

open Lock (SameRequest)

-- ============================================================================
-- Registered processes
-- ============================================================================

/-- Processes keep their objects when the entries of one of them change. -/
theorem registered_update {b : Backend} {id pid : UInt32} {f : LockForest} {p q q' : Process}
    (hq : b.processes.lookup id = some q) (hobj : q'.object = q.object)
    (hp : b.processes.lookup pid = some p) :
    ∃ p', (b.update id f q').processes.lookup pid = some p' ∧ p'.object = p.object := by
  by_cases hid : pid = id
  · subst hid
    obtain rfl := Option.some.inj (hp.symm.trans hq)
    exact ⟨q', lookup_update hp, hobj⟩
  · exact ⟨p, (lookup_update_ne hid).trans hp, rfl⟩

/-- A move keeps the registered processes; they may have other entries afterwards. -/
theorem Move.registered {b b' : Backend} {op : Op} {res : Result} {answered : Finset LockRequest}
    (h : Move b op res answered b') {pid : UInt32} {p : Process}
    (hp : b.processes.lookup pid = some p) :
    ∃ p', b'.processes.lookup pid = some p' ∧ p'.object = p.object := by
  cases h with
  | idle | tick | add => exact ⟨p, hp, rfl⟩
  | register hfree =>
      have hne : pid ≠ b.nextId := by
        rintro rfl
        rw [hfree] at hp
        cases hp
      exact ⟨p, (SortedMap.lookup_insert_ne hfree hne).trans hp, rfl⟩
  | @enter _ _ id path mode create q r ret f' l l' r' _ hq =>
      exact registered_update (f := f') hq
        (show (q.addHeldLock path mode).object = q.object from rfl) hp
  | @release id path mode q f' as l l' hq =>
      exact registered_update (f := f') hq
        (show (q.removeHeldLock path mode).object = q.object from rfl) hp

/-- Only `unregister_process` removes a process. -/
theorem Step.registered {b b' : Backend} {e : Event} (h : Step b e b') {pid : UInt32} {p : Process}
    (hp : b.processes.lookup pid = some p) (hop : e.op ≠ .unregisterProcess pid) :
    ∃ p', b'.processes.lookup pid = some p' ∧ p'.object = p.object := by
  refine Step.invariant
    (fun b => ∃ p', b.processes.lookup pid = some p' ∧ p'.object = p.object) h ⟨p, hp, rfl⟩ ?_ ?_
  · rintro b₁ op res answered b₂ - ⟨p₁, hp₁, hobj⟩ hmove
    obtain ⟨p₂, hp₂, hobj₂⟩ := hmove.registered hp₁
    exact ⟨p₂, hp₂, hobj₂.trans hobj⟩
  · rintro b₁ id p₀ hid - - ⟨p₁, hp₁, hobj⟩
    have hne : pid ≠ id := fun heq => hop (by rw [hid, heq])
    exact ⟨p₁, (SortedMap.lookup_erase_ne hne).trans hp₁, hobj⟩

/-- The processes after an operation were there before, or it has registered them. -/
theorem Step.registered_before {b b' : Backend} {e : Event} (h : Step b e b')
    (hop : e.op ≠ .registerProcess) {pid : UInt32} {p' : Process}
    (hp' : b'.processes.lookup pid = some p') :
    ∃ p, b.processes.lookup pid = some p ∧ p.object = p'.object := by
  refine Step.invariant (fun b₁ => ∀ p', b₁.processes.lookup pid = some p' →
    ∃ p, b.processes.lookup pid = some p ∧ p.object = p'.object) h (fun p hp => ⟨p, hp, rfl⟩) ?_ ?_
    p' hp'
  · intro b₁ op res answered b₂ hwithin hb hmove p₂ hp₂
    cases hmove with
    | idle | tick | add => exact hb p₂ hp₂
    | register =>
        generalize e.op = op at hwithin hop
        cases hwithin with
        | self => exact absurd rfl hop
    | @enter _ _ _ path mode _ q _ _ f' _ _ _ _ hq | @release _ path mode q f' _ _ _ hq =>
        rcases lookup_update_cases (f := f') hq hp₂ with ⟨rfl, rfl⟩ | ⟨-, hp₂⟩
        · exact hb q hq
        · exact hb p₂ hp₂
  · intro b₁ id p₀ _ _ _ hb p₂ hp₂
    exact hb p₂ (lookup_of_drop hp₂)

/-- Processes are different objects, registered under their ids. -/
structure Registry (b : Backend) : Prop where
  distinct : Distinct b
  id_eq : ∀ pid p, b.processes.lookup pid = some p → p.id = pid

theorem Move.registry {b b' : Backend} {op : Op} {res : Result} {answered : Finset LockRequest}
    (h : Move b op res answered b') (hb : Registry b) : Registry b' := by
  refine ⟨h.distinct hb.distinct, fun pid p hp => ?_⟩
  cases h with
  | idle | tick | add => exact hb.id_eq pid p hp
  | register hfree =>
      rcases SortedMap.lookup_insert_cases hfree hp with ⟨rfl, rfl⟩ | hp
      · rfl
      · exact hb.id_eq pid p hp
  | @enter _ _ _ path mode _ q _ _ f' _ _ _ _ hq | @release _ path mode q f' _ _ _ hq =>
      rcases lookup_update_cases (f := f') hq hp with ⟨rfl, rfl⟩ | ⟨-, hp⟩
      · exact hb.id_eq pid q hq
      · exact hb.id_eq pid p hp

theorem Reachable.registry {b : Backend} (h : Reachable b) : Registry b := by
  refine Lts.Reachable.invariant Registry h ⟨distinct_init, fun pid p hp => by cases hp⟩ ?_
  intro b e b' hb hstep
  refine Step.invariant Registry hstep hb (fun _ hb hmove => hmove.registry hb) ?_
  intro b₁ id p _ _ _ hb
  exact ⟨hb.distinct.drop, fun pid p hp => hb.id_eq pid p (lookup_of_drop hp)⟩

-- ============================================================================
-- Operations that keep waiting requests
-- ============================================================================

/-- The operation makes no request disappear without an answer: a release does not come upon
    a waiting request, and a process that is unregistered has none. -/
def keepsRequests (b : Backend) : Op → Bool
  | .releaseLock pid path mode =>
      match b.processes.lookup pid with
      | some p =>
          match b.forest.seek p.object mode (splitPath path) with
          | .request _ => false
          | _ => true
      | none => true
  | .unregisterProcess id =>
      match b.processes.lookup id with
      | some p =>
          b.forest.nodes.all fun x => x.2.val.lockRequests.all fun r => r.requester ≠ p.object
      | none => true
  | _ => true

theorem not_callWithdraws {b : Backend} (hb : b.forest.Sound) {pid : UInt32} {path : PathString}
    {mode : UInt8} (hkeeps : b.keepsRequests (.releaseLock pid path mode) = true) (a : Nat) :
    ¬ CallWithdraws b pid path mode a := by
  rintro ⟨p, res, more, b', hp, hrel, ⟨x, hx, r, hr, haddr, -, -⟩, hgone, hunanswered⟩
  have hpos : 0 < occurrences b.forest a := occurrences_pos_iff.mpr ⟨r, ⟨x, hx, hr⟩, haddr⟩
  cases move_of_releaseLock hrel with
  | idle => omega
  | tick hop => cases hop
  | enter hask => cases hask
  | @release _ _ _ q f' as l l' hq hleave =>
      obtain ⟨y, hy, hweigh⟩ := hleave.weigh_eq hb.seats
      have hsum := hweigh (.tally a)
      rw [gained_tally, spent_tally, add_zero, ← occurrences_eq, ← occurrences_eq] at hsum
      change occurrences f' a = 0 at hgone
      cases hy with
      | lock =>
          -- what was found is a lock, so the request is among the answers
          have hcount : 0 < as.countP fun r => r.address = a := by
            simp only [Lock.Removed.weight, Weights.tally] at hsum
            omega
          obtain ⟨r', hr', haddr'⟩ := List.countP_pos_iff.mp hcount
          exact hunanswered r' (List.mem_toFinset.mpr hr') (of_decide_eq_true haddr')
      | request hpath hn hnot hqueue hreq hmode =>
          have hseek := Lock.seek_of_request hn hnot (by simp [hqueue]) hreq hmode
          rw [← hpath, ← LockForest.seek_of_lookup hleave.lookup, ← splitPath_eq path] at hseek
          simp only [keepsRequests, hq, hseek] at hkeeps
          cases hkeeps

/-- The process under the id stays the same object in the loop of `unregister_process`. -/
theorem Unregistering.object_eq {b b₁ : Backend} {id : UInt32} {answered : Finset LockRequest}
    {locks : List (PathString × UInt8)} (h : Unregistering b id answered b₁ locks)
    {p p₁ : Process} (hp : b.processes.lookup id = some p)
    (hp₁ : b₁.processes.lookup id = some p₁) : p₁.object = p.object := by
  obtain ⟨p', hp', hobj⟩ := h.invariant
    (fun b => ∃ p', b.processes.lookup id = some p' ∧ p'.object = p.object) ⟨p, hp, rfl⟩ (by
      rintro b₁ op res answered b₂ - ⟨q, hq, hobj⟩ hmove
      obtain ⟨q', hq', hobj'⟩ := hmove.registered hq
      exact ⟨q', hq', hobj'.trans hobj⟩)
  obtain rfl := Option.some.inj (hp'.symm.trans hp₁)
  exact hobj

/-- Where the process has no waiting request, all waiting requests are of others. -/
theorem seats_of_keepsRequests {b : Backend} (hb : b.forest.Sound) {id : UInt32} {p : Process}
    (hp : b.processes.lookup id = some p) (hkeeps : b.keepsRequests (.unregisterProcess id) = true) :
    b.forest.All (LockState.Seats fun r => r.requester ≠ p.object) := by
  simp only [keepsRequests, hp, List.all_eq_true, decide_eq_true_eq] at hkeeps
  rw [LockForest.all_iff]
  intro x hx r hr
  obtain ⟨hat, hstatus, -⟩ := LockForest.all_iff.mp hb.seats x hx r hr
  exact ⟨hat, hstatus, hkeeps x hx r hr⟩

theorem intrinsic_requester_ne (p : ProcessRef) : Intrinsic fun r => r.requester ≠ p := by
  intro r r' hsame hne
  rw [hsame.requester]
  exact hne

theorem not_withdraws {b : Backend} (hb : b.forest.Sound) {op : Op}
    (hkeeps : b.keepsRequests op = true) (a : Nat) : ¬ Withdraws b op a := by
  rintro ⟨b₁, pid, path, mode, hwithin, hcall⟩
  cases hwithin with
  | self => exact not_callWithdraws hb hkeeps a hcall
  | release hloop =>
      obtain ⟨p₁, res, more, b', hp₁, -, ⟨x, hx, r, hr, -, hreq, -⟩, -, -⟩ := hcall
      obtain ⟨p, hp⟩ := hloop.registered
      have hothers := (hloop.seats (intrinsic_requester_ne p.object)
        (seats_of_keepsRequests hb hp hkeeps)).1
      obtain ⟨-, -, hne⟩ := LockForest.all_iff.mp hothers x hx r hr
      exact hne (hreq.trans (hloop.object_eq hp hp₁))

-- ============================================================================
-- A waiting request
-- ============================================================================

/-- The requests with the address of `r` are the request `r`. -/
def Identifies (r x : LockRequest) : Prop := x.address = r.address → SameRequest r x

theorem intrinsic_identifies (r : LockRequest) : Intrinsic (Identifies r) := by
  intro x x' hsame hx haddr
  exact (hx (hsame.address.symm.trans haddr)).trans hsame

/-- The request `r` of a registered process waits. -/
structure Pending (b : Backend) (pid : UInt32) (r : LockRequest) : Prop where
  issued : r.address < b.nextRequest
  waits : 0 < occurrences b.forest r.address
  identified : b.forest.All (LockState.Seats (Identifies r))
  registered : ∃ p, b.processes.lookup pid = some p ∧ p.object = r.requester

theorem Reachable.ticketed {b : Backend} (h : Reachable b) : Ticketed b := by
  obtain ⟨es, hrun⟩ := h
  exact (answers_of_trace hrun).2.1

/-- A process with a waiting request is not unregistered by an operation that keeps them. -/
theorem Pending.op_ne {b : Backend} {pid : UInt32} {r : LockRequest} (h : Pending b pid r) {op : Op}
    (hb : b.forest.Sound) (hkeeps : b.keepsRequests op = true) : op ≠ .unregisterProcess pid := by
  rintro rfl
  obtain ⟨p, hp, hobj⟩ := h.registered
  obtain ⟨x, ⟨y, hy, hx⟩, haddr⟩ := occurrences_pos_iff.mp h.waits
  obtain ⟨-, -, hne⟩ := LockForest.all_iff.mp (seats_of_keepsRequests hb hp hkeeps) y hy x hx
  obtain ⟨-, -, hsame⟩ := LockForest.all_iff.mp h.identified y hy x hx
  exact hne ((hsame haddr).requester.trans hobj.symm)

/-- A waiting request waits on, or it is answered while its process is registered. -/
theorem Step.pending {b b' : Backend} {e : Event} (h : Step b e b') (hb : Reachable b)
    (hkeeps : b.keepsRequests e.op = true) {pid : UInt32} {r : LockRequest}
    (hr : Pending b pid r) :
    Pending b' pid r ∨ ((∃ x ∈ e.answered, SameRequest r x) ∧
      ∃ p, b'.processes.lookup pid = some p ∧ p.object = r.requester) := by
  have hsound := hb.forest_sound
  have hone := h.accounts hsound hb.ticketed r.address
  obtain ⟨p, hp, hobj⟩ := hr.registered
  obtain ⟨p', hp', hobj'⟩ := h.registered hp (hr.op_ne hsound hkeeps)
  have hstays : ∃ p, b'.processes.lookup pid = some p ∧ p.object = r.requester :=
    ⟨p', hp', hobj'.trans hobj⟩
  -- a new request has another address
  obtain ⟨hseats, hanswered⟩ := h.seats (intrinsic_identifies r)
    (fun _ _ haddr => absurd (haddr : b.nextRequest = r.address) hr.issued.ne') hr.identified
  have hnew : entered b e.result r.address = 0 := if_neg fun hcond => hr.issued.ne hcond.2
  have hwaits := hr.waits
  rcases hone.balance with hbal | ⟨-, -, -, hwith⟩
  · by_cases hgone : occurrences b'.forest r.address = 0
    · have hcard : 0 < e.answers r.address := by omega
      obtain ⟨x, hx⟩ := Finset.card_pos.mp hcard
      obtain ⟨hx, haddr⟩ := Finset.mem_filter.mp hx
      exact Or.inr ⟨⟨x, hx, hanswered x hx haddr⟩, hstays⟩
    · exact Or.inl ⟨hr.issued.trans_le hone.next_le, Nat.pos_of_ne_zero hgone, hseats, hstays⟩
  · exact absurd hwith (not_withdraws hsound hkeeps r.address)

/-- The request of an operation that returned `QUEUED` waits. -/
theorem pending_of_queued {b b' : Backend} {e : Event} (h : Step b e b') (hb : Reachable b)
    (hres : e.result.isQueued = true) :
    ∃ pid path mode create p, e.op.asks = some (pid, path, mode, create) ∧
      b.processes.lookup pid = some p ∧
      Pending b' pid (p.request b.nextRequest path mode create) := by
  have hsound := hb.forest_sound
  have hone := h.accounts hsound hb.ticketed b.nextRequest
  have hfresh := hb.ticketed.issued b.nextRequest (Nat.le_refl _)
  rcases h.cases with hmove | ⟨-, -, -, -, -, -, -, hresult, -⟩
  · obtain ⟨op, res, answered⟩ := e
    cases hmove with
    | idle _ hnot | tick _ hnot | add _ _ hnot => exact absurd (hnot.symm.trans hres) nofun
    | register | release => cases hres
    | @enter _ _ pid path mode create p r ret f' l l' r' hask hp hsame henter =>
        refine ⟨pid, path, mode, create, p, hask, hp, ?_, ?_, ?_, _, lookup_update (f := f') hp, rfl⟩
        · exact hone.next_lt hres
        · have hentered : entered b res b.nextRequest = 1 := if_pos ⟨hres, rfl⟩
          rcases hone.balance with hbal | ⟨hocc, -⟩
          · rw [hfresh, hentered] at hbal
            exact Nat.lt_of_lt_of_eq Nat.zero_lt_one hbal.symm
          · omega
        · refine (h.seats (intrinsic_identifies _) ?_ ?_).1
          · intro pid' path' mode' create' p' hask' hp' _
            obtain ⟨rfl, rfl, rfl, rfl⟩ : pid' = pid ∧ path' = path ∧ mode' = mode ∧
                create' = create := by
              have heq := Option.some.inj (hask'.symm.trans hask)
              exact ⟨congrArg (·.1) heq, congrArg (·.2.1) heq, congrArg (·.2.2.1) heq,
                congrArg (·.2.2.2) heq⟩
            obtain rfl := Option.some.inj (hp'.symm.trans hp)
            exact .refl _
          · rw [LockForest.all_iff]
            intro x hx r hr
            obtain ⟨hat, hstatus, -⟩ := LockForest.all_iff.mp hsound.seats x hx r hr
            refine ⟨hat, hstatus, fun haddr => ?_⟩
            have hpos : 0 < occurrences b.forest r.address :=
              occurrences_pos_iff.mpr ⟨r, ⟨x, hx, hr⟩, rfl⟩
            rw [haddr] at hpos
            exact absurd hfresh hpos.ne'
  · rw [hresult] at hres
    cases hres

end Backend

namespace Daemon

open Backend (Op Result Event Pending)
open Lock (SameRequest)

-- ============================================================================
-- Connections
-- ============================================================================

/-- Every process has a connection. -/
def Connected (d : Daemon) : Prop :=
  ∀ pid p, d.backend.processes.lookup pid = some p → (d.tcpConn p.object).isSome = true

theorem tcpConn_updatePidConnection {d : Daemon} {pid : UInt32} {p : Process}
    (hp : d.backend.processes.lookup pid = some p) (c : Conn) :
    (d.updatePidConnection pid c).tcpConn = Function.update d.tcpConn p.object (some c) := by
  rw [updatePidConnection, hp]

/-- A connection is replaced, never taken away. -/
theorem isSome_updatePidConnection {d : Daemon} {x : ProcessRef}
    (h : (d.tcpConn x).isSome = true) (pid : UInt32) (c : Conn) :
    ((d.updatePidConnection pid c).tcpConn x).isSome = true := by
  cases hp : d.backend.processes.lookup pid with
  | none =>
      rw [updatePidConnection, hp]
      exact h
  | some p =>
      rw [tcpConn_updatePidConnection hp]
      by_cases hx : x = p.object
      · rw [hx, Function.update_self]
        rfl
      · rw [Function.update_of_ne hx]
        exact h

theorem Outcome.connected {env : Env} {c : Conn} {d d' : Daemon} {op : Option Op}
    {o : Option Event} (h : Outcome env c d op o d') (hd : Connected d) : Connected d' := by
  cases h with
  | idle => exact hd
  | @noted op pid =>
      intro id p hp
      rw [backend_updatePidConnection] at hp
      exact isSome_updatePidConnection (hd id p hp) pid c
  | @registered id b hreg =>
      intro pid p hp
      rw [backend_updatePidConnection] at hp
      unfold Backend.registerProcess at hreg
      split at hreg
      · cases hreg
      · rename_i hfree
        cases hreg
        by_cases hid : pid = d.backend.nextId
        · subst hid
          rw [tcpConn_updatePidConnection hp, Function.update_self]
          rfl
        · apply isSome_updatePidConnection
          exact hd pid p ((SortedMap.lookup_insert_ne hfree hid).symm.trans hp)
  | refused hreg =>
      unfold Backend.registerProcess at hreg
      split at hreg
      · cases hreg
        exact hd
      · cases hreg
  | @called op res answered b pid hstep hpid hpath =>
      intro id p hp
      have hop : op ≠ .registerProcess := by
        rintro rfl
        cases hpid
      have hb : Backend.Step d.backend ⟨op, res, answered⟩ b := ⟨env.fuel, hstep⟩
      obtain ⟨p₀, hp₀, hobj⟩ := hb.registered_before hop hp
      rw [← hobj]
      exact isSome_updatePidConnection (hd id p₀ hp₀) pid c

theorem Reachable.connected {d : Daemon} (h : Reachable d) : Connected d := by
  refine Lts.Reachable.invariant Connected h (fun pid p hp => by cases hp) ?_
  rintro d x d' hd ⟨replies, answered, requests, updates, hreceive, -⟩
  obtain ⟨_, _, -, o, hout, -⟩ := outcome_receiveMessageInternal hreceive
  exact hout.connected hd

/-- A message about a process with a waiting request comes on the connection that the process
    has already. -/
def keepsConnection (d : Daemon) (c : Conn) (op : Op) : Bool :=
  match op.process.bind d.backend.processes.lookup with
  | some p =>
      (d.backend.forest.nodes.all fun x => x.2.val.lockRequests.all fun r =>
        r.requester ≠ p.object) || d.tcpConn p.object = some c
  | none => true

/-- A message about one process leaves the connection of another one alone, and a process with
    a waiting request keeps its connection. -/
theorem tcpConn_of_keepsConnection {d : Daemon} {c c₀ : Conn} {op : Op} {pid : UInt32}
    {r : LockRequest} (hkeeps : d.keepsConnection c op = true) (hpid : op.process = some pid)
    (hwaits : d.backend.forest.Waiting r) (hconn : d.tcpConn r.requester = some c₀) :
    (d.updatePidConnection pid c).tcpConn r.requester = some c₀ := by
  cases hp : d.backend.processes.lookup pid with
  | none =>
      rw [updatePidConnection, hp]
      exact hconn
  | some p =>
      rw [tcpConn_updatePidConnection hp]
      by_cases hobj : r.requester = p.object
      · obtain ⟨x, hx, hr⟩ := hwaits
        have hnot : (d.backend.forest.nodes.all fun x => x.2.val.lockRequests.all fun r =>
            r.requester ≠ p.object) = false := by
          rw [Bool.eq_false_iff]
          intro hall
          exact of_decide_eq_true (List.all_eq_true.mp (List.all_eq_true.mp hall x hx) r hr) hobj
        rw [keepsConnection, hpid, Option.bind_some, hp] at hkeeps
        simp only [hnot, Bool.false_or, decide_eq_true_eq] at hkeeps
        rw [hobj] at hconn ⊢
        rw [Function.update_self, ← hkeeps, hconn]
      · rw [Function.update_of_ne hobj]
        exact hconn

theorem Outcome.tcpConn_eq {env : Env} {c c₀ : Conn} {d d' : Daemon} {op : Option Op}
    {o : Option Event} (h : Outcome env c d op o d')
    (hkeeps : ∀ op', op = some op' → d.keepsConnection c op' = true)
    (hd : d.backend.Registry) {pid : UInt32} {p : Process} {r : LockRequest}
    (hp : d.backend.processes.lookup pid = some p) (hobj : p.object = r.requester)
    (hwaits : d.backend.forest.Waiting r) (hconn : d.tcpConn r.requester = some c₀) :
    d'.tcpConn r.requester = some c₀ := by
  cases h with
  | idle | refused => exact hconn
  | @noted op pid hpid | @called op _ _ _ pid _ hpid =>
      exact tcpConn_of_keepsConnection (hkeeps op rfl) hpid hwaits hconn
  | @registered id b hreg =>
      -- the new process is another object
      unfold Backend.registerProcess at hreg
      split at hreg
      · cases hreg
      · rename_i hfree
        cases hreg
        have hnew := SortedMap.lookup_insert_self (v := (⟨d.backend.nextProcess, d.backend.nextId,
          SortedList.empty⟩ : Process)) hfree
        rw [tcpConn_updatePidConnection hnew, Function.update_of_ne]
        · exact hconn
        · rw [← hobj]
          exact (hd.distinct.issued hp).ne

/-- The process of a request is registered under its id. -/
theorem lookup_of_requester {d : Daemon} (hd : Reachable d) {r : LockRequest} {p : Process}
    (h : d.requester r = some p) :
    d.backend.processes.lookup p.id = some p ∧ p.object = r.requester := by
  obtain ⟨e, he, rfl⟩ := Option.map_eq_some_iff.mp h
  have hlookup : d.backend.processes.lookup e.1 = some e.2 :=
    SortedMap.lookup_eq_some.mpr (List.mem_of_find?_eq_some he)
  rw [hd.backend.registry.id_eq e.1 e.2 hlookup]
  have hobj := List.find?_some he
  rw [decide_eq_true_eq] at hobj
  exact ⟨hlookup, hobj⟩

/-- The process of a request is the one that is registered. -/
theorem requester_eq {d : Daemon} (h : Reachable d) {pid : UInt32} {p : Process} {r : LockRequest}
    (hp : d.backend.processes.lookup pid = some p) (hobj : p.object = r.requester) :
    d.requester r = some p := by
  have hsome : (d.requester r).isSome := by
    rw [requester, Option.isSome_map, List.find?_isSome]
    exact ⟨(pid, p), SortedMap.lookup_eq_some.mp hp, decide_eq_true hobj⟩
  obtain ⟨q, hq⟩ := Option.isSome_iff_exists.mp hsome
  obtain ⟨hlookup, hqobj⟩ := lookup_of_requester h hq
  have hid : q.id = pid :=
    h.backend.registry.distinct.unique hlookup hp (hqobj.trans hobj.symm)
  rw [hid, hp] at hlookup
  rw [hq, Option.some.inj hlookup]

-- ============================================================================
-- Updates
-- ============================================================================

/-- The bytes of the update for a request. -/
def updateBytes (host : ByteOrder) (pid : UInt32) (r : LockRequest) : List UInt8 :=
  (if r.createMissing then MsgId.createLockUpdate else MsgId.acquireLockUpdate) ::
    wire host 4 (updateBody host pid r).length ++ updateBody host pid r

/-- Each request of the list is notified, with one of the allocators. -/
theorem mem_notifyAnsweredRequests {env : Env} {d : Daemon} {r : LockRequest}
    {requests : List LockRequest} (hr : r ∈ requests) : ∀ {heaps : Nat → Heap} {updates : List Packet},
    d.notifyAnsweredRequests env heaps requests = .ok updates →
    ∃ i ps, d.notify env (heaps i) r = .ok ps ∧ ∀ p ∈ ps, p ∈ updates := by
  induction requests with
  | nil => cases hr
  | cons r' requests ih =>
      intro heaps updates h
      obtain ⟨first, hfirst, h⟩ := bind_eq_ok.mp h
      obtain ⟨more, hmore, h⟩ := bind_eq_ok.mp h
      cases h
      rcases List.mem_cons.mp hr with rfl | hr
      · exact ⟨0, first, hfirst, fun p hp => List.mem_append_left more hp⟩
      · obtain ⟨i, ps, hps, hsub⟩ := ih hr hmore
        exact ⟨i + 1, ps, hps, fun p hp => List.mem_append_right first (hsub p hp)⟩

/-- The process of an answered request is told on its connection. -/
theorem update_sent {d : Daemon} (h : Reachable d) {env : Env} (henv : Calm env) {pid : UInt32}
    {p : Process} {r : LockRequest} (hshort : r.Short)
    (hp : d.backend.processes.lookup pid = some p) (hobj : p.object = r.requester) {c : Conn}
    (hc : d.tcpConn p.object = some c) (i : Nat) :
    ∃ s, d.notify env (env.heaps i) r = .ok [(c, s)] ∧ s.bytes = updateBytes env.host pid r := by
  have hid : p.id = pid := h.backend.registry.id_eq pid p hp
  obtain ⟨s, hrun, hfilled⟩ := notify_run (henv.heaps i) (requester_eq h hp hobj) hc (henv.up c)
    (length_updateBody_lt env.host p.id hshort)
  refine ⟨s, hrun, ?_⟩
  rw [hfilled.bytes_eq, hid, updateBytes]

theorem updateStatus_ne_queued (r : LockRequest) : updateStatus r ≠ ResponseStatus.queued := by
  rw [updateStatus]
  split
  · split
    · decide
    · decide
  · split
    · decide
    · decide

-- ============================================================================
-- Runs
-- ============================================================================

/-- Among the messages to the connection is a final update for the request. -/
def Delivery.Tells (x : Delivery) (c : Conn) (pid : UInt32) (r : LockRequest) : Prop :=
  ∃ s y, (c, s) ∈ x.sent ∧ SameRequest r y ∧ updateStatus y ≠ ResponseStatus.queued ∧
    s.bytes = updateBytes x.env.host pid y

/-- If the message `x` was answered with `QUEUED`, its request still waits, or its connection has
    been told in the meantime. -/
def FollowedUp (d₀ : Daemon) (x : Delivery) (d₁ : Daemon) (xs : List Delivery) (d : Daemon) :
    Prop :=
  ∀ op s res answered, asked x.env.host x.input = .ok (some op, s) →
    d₀.backend.step x.env.fuel op = .ok (res, answered, d₁.backend) → res.isQueued = true →
    ∃ pid path mode create p, op.asks = some (pid, path, mode, create) ∧
      d₀.backend.processes.lookup pid = some p ∧
      ((∃ r, d.backend.forest.Waiting r ∧ r.address = d₀.backend.nextRequest) ∨
        ∃ y ∈ xs, y.Tells x.conn pid (p.request d₀.backend.nextRequest path mode create))

/-- The daemon handles a message on connections that stay up. -/
def CalmStep (d : Daemon) (x : Delivery) (d' : Daemon) : Prop := Step d x d' ∧ Calm x.env

/-- The message does not make the backend forget a waiting request, and does not draw its answer
    to another connection. -/
def CarefulStep (d : Daemon) (x : Delivery) (d' : Daemon) : Prop :=
  CalmStep d x d' ∧ ∀ op s, asked x.env.host x.input = .ok (some op, s) →
    d.backend.keepsRequests op = true ∧ d.keepsConnection x.conn op = true

/-- The request `r` of a registered process waits, and will be answered on the connection. -/
structure Awaited (d : Daemon) (c : Conn) (pid : UInt32) (r : LockRequest) : Prop where
  pending : Pending d.backend pid r
  conn : d.tcpConn r.requester = some c

/-- A message keeps a request waiting or answers it. -/
theorem CarefulStep.awaited {d d' : Daemon} {x : Delivery} (h : CarefulStep d x d')
    (hd : Reachable d) {c : Conn} {pid : UInt32} {r : LockRequest} (hr : Awaited d c pid r) :
    Awaited d' c pid r ∨ x.Tells c pid r := by
  obtain ⟨⟨hstep, hcalm⟩, hkeeps⟩ := h
  have hd' : Reachable d' := hd.next hstep
  obtain ⟨replies, answered, requests, updates, hreceive, -, hrequests, hnotify, hsent⟩ := hstep
  obtain ⟨op, s, hasked, o, hout, rfl⟩ := outcome_receiveMessageInternal hreceive
  obtain ⟨p, hp, hobj⟩ := hr.pending.registered
  obtain ⟨r₀, hr₀, haddr⟩ := Backend.occurrences_pos_iff.mp hr.pending.waits
  have hsame₀ : SameRequest r r₀ := by
    obtain ⟨y, hy, hmem⟩ := hr₀
    exact (LockForest.all_iff.mp hr.pending.identified y hy r₀ hmem).2.2 haddr
  have hconn : d'.tcpConn r.requester = some c := by
    rw [← hsame₀.requester]
    refine hout.tcpConn_eq (fun op' hop' => ?_) hd.backend.registry hp
      (hobj.trans hsame₀.requester.symm) hr₀ ?_
    · subst hop'
      exact (hkeeps op' s hasked).2
    · rw [hsame₀.requester]
      exact hr.conn
  rcases hout.step with ⟨rfl, hbackend⟩ | ⟨e, rfl, rfl, hcall, hpath⟩
  · have hpending := hr.pending
    rw [← hbackend] at hpending
    exact Or.inl ⟨hpending, hconn⟩
  · rcases hcall.pending hd.backend (hkeeps e.op s hasked).1 hr.pending with
      hr' | ⟨⟨y, hy, hsame⟩, p, hp, hobj⟩
    · exact Or.inl ⟨hr', hconn⟩
    · have hshort := (short_of_receive hreceive hd.short).2 y hy
      have hmem : y ∈ requests := by
        rw [← List.mem_toFinset, hrequests]
        exact hy
      obtain ⟨i, ps, hps, hsub⟩ := mem_notifyAnsweredRequests hmem hnotify
      obtain ⟨out, hrun, hbytes⟩ := update_sent hd' hcalm hshort hp
        (hobj.trans hsame.requester.symm) (by rw [hobj]; exact hconn) i
      rw [hrun] at hps
      cases hps
      refine Or.inr ⟨out, y, ?_, hsame, updateStatus_ne_queued y, hbytes⟩
      rw [hsent]
      exact List.mem_append_right replies (hsub _ List.mem_cons_self)

/-- A request waits until its connection is told. -/
theorem awaited_of_run {d d' : Daemon} {xs : List Delivery} (h : Lts.Trace CarefulStep d xs d')
    (hd : Reachable d) {c : Conn} {pid : UInt32} {r : LockRequest} (hr : Awaited d c pid r) :
    Reachable d' ∧ (Awaited d' c pid r ∨ ∃ x ∈ xs, x.Tells c pid r) := by
  induction h with
  | nil => exact ⟨hd, Or.inl hr⟩
  | @snoc d₁ d₂ xs x _ hstep ih =>
      obtain ⟨hd₁, hr₁⟩ := ih
      refine ⟨hd₁.next hstep.1.1, ?_⟩
      rcases hr₁ with hr₁ | ⟨y, hy, htells⟩
      · rcases hstep.awaited hd₁ hr₁ with hr₂ | htells
        · exact Or.inl hr₂
        · exact Or.inr ⟨x, by simp, htells⟩
      · exact Or.inr ⟨y, List.mem_append_left [x] hy, htells⟩

theorem reachable_of_careful {d : Daemon} {xs : List Delivery}
    (h : Lts.Trace CarefulStep {} xs d) : Reachable d := ⟨xs, h.mono fun hstep => hstep.1.1⟩

/-- The connection on which a request was made is the one of its process. -/
theorem awaited_of_queued {d d' : Daemon} {x : Delivery} (h : CalmStep d x d') (hd : Reachable d)
    {op : Op} {s : Stream} {res : Result} {answered : Finset LockRequest}
    (hasked : asked x.env.host x.input = .ok (some op, s))
    (hcall : d.backend.step x.env.fuel op = .ok (res, answered, d'.backend))
    (hres : res.isQueued = true) :
    ∃ pid path mode create p, op.asks = some (pid, path, mode, create) ∧
      d.backend.processes.lookup pid = some p ∧
      Awaited d' x.conn pid (p.request d.backend.nextRequest path mode create) := by
  have hstep : Backend.Step d.backend ⟨op, res, answered⟩ d'.backend := ⟨x.env.fuel, hcall⟩
  obtain ⟨pid, path, mode, create, p, hask, hp, hr⟩ :=
    Backend.pending_of_queued hstep hd.backend hres
  refine ⟨pid, path, mode, create, p, hask, hp, hr, ?_⟩
  obtain ⟨⟨replies, answered', requests, updates, hreceive, -⟩, -⟩ := h
  obtain ⟨op', s', hasked', o, hout, -⟩ := outcome_receiveMessageInternal hreceive
  have hop : op' = some op := (Prod.mk.inj (Except.ok.inj (hasked'.symm.trans hasked))).1
  subst hop
  have hprocess : op.process = some pid := by
    cases op with
    | createLock _ _ acquireX =>
        cases acquireX with
        | false => cases hask
        | true =>
            cases hask
            rfl
    | acquireLock =>
        cases hask
        rfl
    | registerProcess | unregisterProcess | releaseLock => cases hask
  cases hout with
  | idle => exact absurd hr.issued (Nat.lt_irrefl _)
  | @noted _ pid' =>
      have hissued := hr.issued
      rw [backend_updatePidConnection] at hissued
      exact absurd hissued (Nat.lt_irrefl _)
  | registered | refused => cases hask
  | @called _ _ _ _ pid' _ hpid =>
      obtain rfl := Option.some.inj (hpid.symm.trans hprocess)
      show (d.updatePidConnection pid' x.conn).tcpConn p.object = some x.conn
      rw [tcpConn_updatePidConnection hp, Function.update_self]

/-- In a run in which no message makes the backend forget a waiting request or draws its answer to
    another connection, every request that was answered with `QUEUED` is followed up. -/
theorem queued_followed_up {d₀ d₁ d : Daemon} {xs₁ xs₂ : List Delivery} {x : Delivery}
    (h₁ : Lts.Trace CarefulStep {} xs₁ d₀) (hx : CarefulStep d₀ x d₁)
    (h₂ : Lts.Trace CarefulStep d₁ xs₂ d) : FollowedUp d₀ x d₁ xs₂ d := by
  intro op s res answered hasked hcall hres
  have hd₀ := reachable_of_careful h₁
  obtain ⟨pid, path, mode, create, p, hask, hp, hr⟩ :=
    awaited_of_queued hx.1 hd₀ hasked hcall hres
  refine ⟨pid, path, mode, create, p, hask, hp, ?_⟩
  rcases (awaited_of_run h₂ (hd₀.next hx.1.1) hr).2 with hr' | htells
  · exact Or.inl (Backend.occurrences_pos_iff.mp hr'.pending.waits)
  · exact Or.inr htells

/-- The daemon after a request on a connection. -/
def next (d : Daemon) (c : Conn) (q : Request) : Daemon :=
  match d.respond .plain c q with
  | .ok (_, _, d') => d'
  | .error _ => d

/-- The reply to a request on a connection, and what else was answered. -/
def answerTo (d : Daemon) (c : Conn) (q : Request) : Option (Reply × Finset LockRequest) :=
  (d.respond .plain c q).toOption.map fun x => (x.1, x.2.1)

theorem respond_of_answerTo {d : Daemon} {c : Conn} {q : Request} {r : Reply}
    {answered : Finset LockRequest} (h : d.answerTo c q = some (r, answered)) :
    d.respond .plain c q = .ok (r, answered, d.next c q) := by
  rw [answerTo] at h
  rw [next]
  cases hrespond : d.respond .plain c q with
  | ok x =>
      rw [hrespond] at h
      cases h
      rfl
  | error e =>
      rw [hrespond] at h
      cases h

/-- A request as a step of a run. -/
theorem calm_next {d : Daemon} (hd : Reachable d) {c : Conn} {q : Request} {r : Reply}
    {answered : Finset LockRequest} (h : d.answerTo c q = some (r, answered))
    (hpath : q.path.length ≤ maxPathLength) :
    ∃ s updates, CalmStep d ⟨.plain, c, ofBytes (frame q.message), (c, s) :: updates⟩ (d.next c q) ∧
      Sends s r ∧ (answered = ∅ → updates = []) := by
  obtain ⟨s, updates, hstep, hsends, hnone⟩ := hd.step_of_respond (respond_of_answerTo h) hpath
  exact ⟨s, updates, ⟨hstep, calm_plain⟩, hsends, hnone⟩

theorem asked_message {q : Request} (hpath : q.path.length ≤ maxPathLength) :
    ∃ s, asked .little (ofBytes (frame q.message)) = .ok (some (operation q), s) := by
  exact ⟨_, (carries_ofBytes (Request.fits hpath)).run (gets_asked hpath)⟩

theorem CalmStep.careful {d d' : Daemon} {c : Conn} {q : Request} {sent : List Packet}
    (h : CalmStep d ⟨.plain, c, ofBytes (frame q.message), sent⟩ d')
    (hpath : q.path.length ≤ maxPathLength) (hkeeps : d.backend.keepsRequests (operation q) = true)
    (hconn : d.keepsConnection c (operation q) = true) :
    CarefulStep d ⟨.plain, c, ofBytes (frame q.message), sent⟩ d' := by
  refine ⟨h, fun op s hasked => ?_⟩
  obtain ⟨s', hmessage⟩ := asked_message hpath
  have heq : Except.ok (some (operation q), s') = Except.ok (some op, s) := hmessage.symm.trans hasked
  cases heq
  exact ⟨hkeeps, hconn⟩

/-- The requests can be handled one after the other without forgetting any. -/
def carefulAlong : List (Conn × Request) → Daemon → Bool
  | [], _ => true
  | (c, q) :: qs, d => (d.answerTo c q).isSome && decide (q.path.length ≤ maxPathLength) &&
      d.backend.keepsRequests (operation q) && d.keepsConnection c (operation q) &&
      carefulAlong qs (d.next c q)

theorem trace_of_carefulAlong {qs : List (Conn × Request)} (h : carefulAlong qs {} = true) :
    ∃ xs, Lts.Trace CarefulStep {} xs (qs.foldl (fun d x => d.next x.1 x.2) {}) := by
  have hfold : ∀ d xs, Lts.Trace CarefulStep {} xs d → carefulAlong qs d = true →
      ∃ xs, Lts.Trace CarefulStep {} xs (qs.foldl (fun d x => d.next x.1 x.2) d) := by
    clear h
    induction qs with
    | nil => exact fun d xs hd _ => ⟨xs, hd⟩
    | cons q qs ih =>
        intro d xs hd hqs
        simp only [carefulAlong, Bool.and_eq_true, decide_eq_true_eq] at hqs
        obtain ⟨⟨⟨⟨hsome, hpath⟩, hkeeps⟩, hconn⟩, hqs⟩ := hqs
        obtain ⟨⟨r, answered⟩, hanswer⟩ := Option.isSome_iff_exists.mp hsome
        obtain ⟨s, updates, hstep, -, -⟩ := calm_next (reachable_of_careful hd) hanswer hpath
        exact ih _ _ (hd.snoc (hstep.careful hpath hkeeps hconn)) hqs
  exact hfold {} [] .nil h

/-- Two processes register on connections of their own, and the first creates the lock `a` for
    itself. -/
def owned : Daemon :=
  [(0, .registerProcess 0), (1, .registerProcess 0), (0, .createLock 0 [0x61] true)].foldl
    (fun d x => d.next x.1 x.2) {}

/-- The second process wants to share the lock. -/
def sharing : Request := .acquireLock 1 [0x61] 0

/-- The second process gives up. -/
def retreating : Request := .releaseLock 1 [0x61] 0

/-- The first process lets go. -/
def leaving : Request := .releaseLock 0 [0x61] 2

theorem careful_owned : ∃ xs, Lts.Trace CarefulStep {} xs owned :=
  trace_of_carefulAlong (by decide +kernel)

/-- The request of the second process is queued. -/
theorem answer_sharing :
    owned.answerTo 1 sharing = some (.acquireUpdate 1 [0x61] 0 ResponseStatus.queued, ∅) := by
  decide +kernel

theorem step_sharing : ∃ res answered,
    owned.backend.step 1 (operation sharing) = .ok (res, answered, (owned.next 1 sharing).backend) ∧
      res.isQueued = true := ⟨_, _, rfl, rfl⟩

/-- The release comes on the connection of the first process, and the second one is told on its
    own. -/
theorem queued_followed_up_shared :
    ∃ (x : Delivery) (r : LockRequest), x.conn = 0 ∧ x.Tells 1 1 r ∧ r.path = [[0x61]] ∧
      r.createMissing = false := by
  obtain ⟨xs, hrun⟩ := careful_owned
  have hd := reachable_of_careful hrun
  obtain ⟨s, updates, hstep, -, -⟩ := calm_next hd answer_sharing (by decide)
  have hx := hstep.careful (by decide) (by decide +kernel) (by decide +kernel)
  have hsome : ((owned.next 1 sharing).answerTo 0 leaving).isSome = true := by decide +kernel
  obtain ⟨⟨r, answered⟩, hanswer⟩ := Option.isSome_iff_exists.mp hsome
  obtain ⟨s', updates', hstep', -, -⟩ := calm_next (hd.next hstep.1) hanswer (by decide)
  have hy := hstep'.careful (by decide) (by decide +kernel) (by decide +kernel)
  obtain ⟨input, hasked⟩ := asked_message (q := sharing) (by decide)
  obtain ⟨res, answered, hcall, hres⟩ := step_sharing
  have hgone : Backend.occurrences ((owned.next 1 sharing).next 0 leaving).backend.forest
      owned.backend.nextRequest = 0 := by decide +kernel
  obtain ⟨pid, path, mode, create, p, hask, hp, hwaits | ⟨y, hy, htells⟩⟩ :=
    queued_followed_up hrun hx (Lts.Trace.nil.snoc hy) _ _ _ _ hasked hcall hres
  · exact absurd hgone (Backend.occurrences_pos_iff.mpr hwaits).ne'
  · cases hask
    obtain rfl := List.mem_singleton.mp hy
    exact ⟨_, _, rfl, htells, rfl, rfl⟩

/-- The release of the second process withdraws its request, and only the release is
    answered. -/
theorem queued_request_forgotten :
    ¬ ∀ (d₀ d₁ d : Daemon) (xs₁ xs₂ : List Delivery) (x : Delivery),
      Lts.Trace CalmStep {} xs₁ d₀ → CalmStep d₀ x d₁ → Lts.Trace CalmStep d₁ xs₂ d →
      FollowedUp d₀ x d₁ xs₂ d := by
  intro h
  obtain ⟨xs, hrun⟩ := careful_owned
  have hd := reachable_of_careful hrun
  obtain ⟨s, updates, hx, -, -⟩ := calm_next hd answer_sharing (by decide)
  have hanswer : (owned.next 1 sharing).answerTo 1 retreating =
      some (.released 1 [0x61] 0 ResponseStatus.success, ∅) := by decide +kernel
  obtain ⟨s', updates', hy, hsends, hnone⟩ := calm_next (hd.next hx.1) hanswer (by decide)
  obtain rfl := hnone rfl
  obtain ⟨input, hasked⟩ := asked_message (q := sharing) (by decide)
  obtain ⟨res, answered, hcall, hres⟩ := step_sharing
  have hgone : Backend.occurrences ((owned.next 1 sharing).next 1 retreating).backend.forest
      owned.backend.nextRequest = 0 := by decide +kernel
  obtain ⟨pid, path, mode, create, p, hask, hp, hwaits | ⟨y, hy, htells⟩⟩ :=
    h _ _ _ _ _ _ (hrun.mono fun hstep => hstep.1) hx (Lts.Trace.nil.snoc hy) _ _ _ _ hasked hcall
      hres
  · exact absurd hgone (Backend.occurrences_pos_iff.mpr hwaits).ne'
  · -- the only message is the response to the release
    obtain rfl := List.mem_singleton.mp hy
    obtain ⟨out, r, hout, hsame, -, hbytes⟩ := htells
    obtain ⟨-, rfl⟩ := Prod.mk.inj (List.mem_singleton.mp hout)
    rw [hsends.1] at hbytes
    have hid := List.head_eq_of_cons_eq hbytes
    have hcreate : r.createMissing = false := by
      rw [hsame.createMissing]
      cases hask
      rfl
    rw [hcreate] at hid
    cases hid

end Daemon

end Tclm.Server
