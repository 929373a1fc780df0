/-
  Tclm.Comm.Threads

  The threads at the connection of a client: users in `Connection::send`, the thread of
  the `Communications_Manager` in `main_loop` with `Connection::data_in` and `data_out`,
  and the thread that destroys the client, in `request_quit`.

  A step leads from one mutex to the next.  Which mutexes a thread keeps meanwhile can be
  told from its place in the code: `m_epfd` (`hasEpfd`), the `m` of the connection
  (`hasM`), its `m_send` (`hasSend`) and `m_flags` (`hasFlags`).  `m_polled_fds` is only
  taken by threads that have `m_epfd`, and nothing is taken while a thread has the `m` of
  the eventfd, so that nobody waits for these two.

  A thread that nobody interrupts does what `Sending` says in one step (`send_alone`,
  `dataOut_alone`).
-/

import Tclm.Comm.Sending

open Tclm.Comm.Stream

namespace Tclm.Comm

-- ============================================================================
-- Places in the code
-- ============================================================================

/-- Where a user is in `Connection::send`. -/
inductive Sender where
  | idle
  /-- In front of `m_send`, with its stream. -/
  | arriving (s : Stream)
  /-- The stream is in the queue; in front of `m`. -/
  | queued
  /-- `out_enabled` was not set; in front of `m_epfd` in `fd_enable_out`. -/
  | asking
  /-- Has `m_epfd`; in front of `m` in `set_out_enabled`. -/
  | telling
  /-- Has `m_epfd`; in front of `m` in `get_fd`. -/
  | enabling
deriving DecidableEq, Repr

namespace Sender

def hasEpfd : Sender → Bool
  | telling | enabling => true
  | _ => false

/-- Has put something into the queue and has not seen to it yet. -/
def seeks : Sender → Bool
  | queued | asking | telling => true
  | _ => false

/-- Has found output disabled and has not enabled it yet. -/
def asks : Sender → Bool
  | asking | telling => true
  | _ => false

/-- In `fd_enable_out`. -/
def enables : Sender → Bool
  | asking | telling | enabling => true
  | _ => false

/-- The steps that are left. -/
def rank : Sender → Nat
  | idle => 0
  | enabling => 1
  | telling => 2
  | asking => 3
  | queued => 4
  | arriving _ => 5

end Sender

/-- Where the thread of the manager is in `main_loop`. -/
inductive Looper where
  /-- In front of `m_epfd`. -/
  | starting
  /-- Has `m_epfd` and an epoll instance; in front of `m` in `get_out_enabled`. -/
  | scanning
  /-- Has `m_epfd`, and `get_out_enabled` has returned; in front of `m` in `get_fd`. -/
  | adding (out : Bool)
  /-- Has `m_epfd`; the connection was added, the eventfd comes next. -/
  | creating
  /-- In front of `m_flags`. -/
  | checking
  /-- In `epoll_wait`. -/
  | waiting
  /-- In `data_in` of the eventfd. -/
  | noticing
  /-- In front of `m` in `data_in` of the connection, maybe with `EPOLLOUT` in the events. -/
  | reading (out : Bool)
  /-- In front of `m_send` in `data_out`. -/
  | writable
  /-- Has `m_send`, there is something to write; in front of `m`. -/
  | writing
  /-- Has `m_send`, the queue is empty; in front of `m`. -/
  | emptied
  /-- Has `m_send` and `m`; in front of `m_epfd` in `fd_disable_out`. -/
  | disabling
  /-- In front of `m_epfd` in `destroy_polled_fd`. -/
  | closing
  /-- Has `m_epfd`; in front of `m` in `get_fd`. -/
  | removing
  /-- `main_loop` has returned. -/
  | ended
deriving DecidableEq, Repr

namespace Looper

def hasEpfd : Looper → Bool
  | scanning | adding _ | creating | removing => true
  | _ => false

def hasM : Looper → Bool
  | disabling => true
  | _ => false

def hasSend : Looper → Bool
  | writing | emptied | disabling => true
  | _ => false

/-- Goes to `data_out`, or is in it. -/
def writes : Looper → Bool
  | reading out => out
  | writable | writing | emptied | disabling => true
  | _ => false

/-- The connection has not been added yet. -/
def early : Looper → Bool
  | starting | scanning | adding _ => true
  | _ => false

/-- The steps that are left until the events that came have been handled. -/
def rank : Looper → Nat
  | waiting | ended => 0
  | checking => 1
  | noticing | removing | creating => 2
  | closing | adding _ => 3
  | disabling | scanning => 4
  | emptied | starting => 5
  | writing => 6
  | writable => 7
  | reading _ => 8

/-- When the events have been handled: `EPOLLERR`, `EPOLLHUP` and `EPOLLRDHUP` close the
    connection. -/
def next (hup : Bool) : Looper := if hup then closing else checking

end Looper

/-- Where the thread that destroys the client is. -/
inductive Quitter where
  | idle
  /-- In front of `m_flags` in `request_quit`. -/
  | wanting
  /-- Has `m_flags`; in front of `m_epfd`. -/
  | flagged
  /-- Waits in `cm_thread.join`. -/
  | done
deriving DecidableEq, Repr

namespace Quitter

def hasFlags : Quitter → Bool
  | flagged => true
  | _ => false

def rank : Quitter → Nat
  | idle | done => 0
  | flagged => 1
  | wanting => 2

end Quitter

-- ============================================================================
-- What is done between two mutexes
-- ============================================================================

namespace Sending

/-- `send` sees whether output is enabled; without a manager it enables it itself. -/
def look (c : Sending) : Sender × Sending :=
  if c.outEnabled then (.idle, c)
  else
    match c.mgr with
    | some _ => (.asking, c)
    | none => (.idle, { c with outEnabled := true })

/-- `pfd->set_out_enabled (true)` in `fd_enable_out`, which returns if `epfd < 0`. -/
def tell (c : Sending) : Sender × Sending :=
  match c.mgr with
  | some (.polling _) => (.enabling, { c with outEnabled := true })
  | _ => (.idle, { c with outEnabled := true })

/-- `epoll_ctl (epfd, EPOLL_CTL_MOD, ...)` -/
def modifyOut (ctl out : Bool) (c : Sending) : Sending :=
  { c with mgr := c.mgr.map fun mgr => (mgr.modify ctl out).2 }

/-- `write` in `data_out`, of which the socket accepts `count` bytes, and the queue after it. -/
def wrote (count : Nat) (c : Sending) : Except SendFault (List UInt8 × Sending) :=
  match c.sendQueue with
  | [] => .ok ([], c)
  | s :: queue =>
      match writeOut count s with
      | .error fault => .error (.stream fault)
      | .ok (bs, s) =>
          .ok (bs, { c with sendQueue := if s.remainingLength = 0 then queue else s :: queue })

theorem look_eq {c : Sending} (h : c.mgr ≠ none) :
    c.look = (if c.outEnabled then .idle else .asking, c) := by
  rw [look]
  split
  · rfl
  · split
    · rfl
    · contradiction

theorem outEnabled_tell (c : Sending) : c.tell.2.outEnabled = true := by
  rw [tell]
  split
  · rfl
  · rfl

theorem mgr_tell (c : Sending) : c.tell.2.mgr = c.mgr := by
  rw [tell]
  split
  · rfl
  · rfl

theorem sendQueue_tell (c : Sending) : c.tell.2.sendQueue = c.sendQueue := by
  rw [tell]
  split
  · rfl
  · rfl

/-- There is an epoll instance, which the connection was added to. -/
def Polls (c : Sending) : Prop := ∃ out, c.mgr = some (.polling out)

theorem Polls.mgr_ne_none {c : Sending} (h : c.Polls) : c.mgr ≠ none := by
  obtain ⟨out, hout⟩ := h
  rw [hout]
  exact Option.some_ne_none _

/-- Without an epoll instance there is nothing left to do. -/
theorem place_tell (c : Sending) :
    c.tell.1 = .enabling ∧ c.Polls ∨ c.tell.1 = .idle ∧ ¬ c.Polls := by
  rw [tell]
  split
  · rename_i out hmgr
    exact .inl ⟨rfl, out, hmgr⟩
  · rename_i hmgr
    exact .inr ⟨rfl, fun ⟨out, h⟩ => hmgr out h⟩

/-- The events of the connection are changed where it was added. -/
theorem mgr_modifyOut {c : Sending} (h : c.Polls) (ctl out : Bool) :
    ∃ old, (c.modifyOut ctl out).mgr = some (.polling (if ctl then out else old)) := by
  obtain ⟨old, hold⟩ := h
  exact ⟨old, by rw [modifyOut, hold]; rfl⟩

/-- A write only takes something from the queue. -/
theorem wrote_eq {c c' : Sending} {count : Nat} {bs : List UInt8}
    (h : c.wrote count = .ok (bs, c')) : ∃ queue, c' = { c with sendQueue := queue } := by
  rw [wrote] at h
  split at h
  · rename_i hnil
    cases h
    exact ⟨[], by rw [← hnil]⟩
  · split at h
    · cases h
    · cases h
      exact ⟨_, rfl⟩

theorem Leftover.wrote {c c' : Sending} (h : c.Leftover) {count : Nat} {bs : List UInt8}
    (hrun : c.wrote count = .ok (bs, c')) : c'.Leftover ∧ bs ++ c'.unsent = c.unsent := by
  rw [Sending.wrote] at hrun
  cases hqueue : c.sendQueue with
  | nil =>
      simp only [hqueue] at hrun
      cases hrun
      exact ⟨h, rfl⟩
  | cons s queue =>
      obtain ⟨hs, hcap⟩ := h s (by rw [hqueue]; exact List.mem_cons_self)
      simp only [hqueue, run_writeOut hs hcap] at hrun
      cases hrun
      constructor
      · intro t ht
        dsimp only at ht
        split at ht
        · exact h t (by rw [hqueue]; exact List.mem_cons_of_mem s ht)
        · rename_i hend
          rcases List.mem_cons.mp ht with rfl | ht
          · rw [remainingLength] at hend
            exact ⟨by omega, hcap⟩
          · exact h t (by rw [hqueue]; exact List.mem_cons_of_mem s ht)
      · rw [unsent, unsent, hqueue]
        exact flatten_rest_advance hcap queue count

/-- Asking the manager is telling the connection and changing the events. -/
theorem requestOut_eq {c : Sending} (h : c.mgr ≠ none) (ctl : Bool) :
    c.requestOut ctl = if c.outEnabled then c else c.tell.2.modifyOut ctl true := by
  obtain ⟨mgr, hmgr⟩ := Option.ne_none_iff_exists'.mp h
  rw [requestOut, hmgr]
  cases mgr with
  | idle | polling =>
      simp [tell, hmgr, modifyOut, fdEnableOut, fdSetOut, CommunicationsManager.modify]

/-- Without an epoll instance there are no events to change. -/
theorem modifyOut_tell {c : Sending} (h : ¬ c.Polls) (ctl : Bool) :
    c.tell.2.modifyOut ctl true = c.tell.2 := by
  rw [tell]
  split
  · rename_i out hmgr
    exact absurd ⟨out, hmgr⟩ h
  · cases hmgr : c.mgr with
    | none => simp [modifyOut]
    | some mgr =>
        cases mgr with
        | idle => simp [modifyOut, CommunicationsManager.modify]
        | polling out => exact absurd ⟨out, hmgr⟩ h

end Sending

-- ============================================================================
-- Steps
-- ============================================================================

/-- The connection of a client and its threads; the users are given by `τ`. -/
structure Threads (τ : Type*) where
  sending : Sending := .attached false
  /-- Whether the connection was removed from the epoll instance. -/
  gone : Bool := false
  senders : τ → Sender := fun _ => .idle
  loop : Looper := .starting
  /-- Whether the eventfd could be added to the epoll instance, once there is one. -/
  pefd : Option Bool := none
  /-- The counter of the eventfd. -/
  counter : Nat := 0
  quitRequested : Bool := false
  quitter : Quitter := .idle

inductive ThreadEvent (τ : Type*) where
  /-- A user calls `send`. -/
  | call (t : τ) (s : Stream)
  /-- The stream of a user gets into the queue. -/
  | push (t : τ) (s : Stream)
  | sender (t : τ)
  /-- `epoll_wait` returns for the connection, or fails. -/
  | wake
  /-- `epoll_wait` returns for the eventfd. -/
  | notify
  /-- The socket accepts bytes. -/
  | write (bs : List UInt8)
  | loop
  /-- Somebody calls `request_quit`. -/
  | quit
  | quitter
deriving DecidableEq

namespace ThreadEvent

variable {τ : Type*}

/-- Whether a thread goes on with what it is doing. -/
def own : ThreadEvent τ → Bool
  | call .. | wake | notify | quit => false
  | _ => true

/-- Whether it is an event of the manager's thread. -/
def looper : ThreadEvent τ → Bool
  | wake | notify | write _ | loop => true
  | _ => false

def pushed : ThreadEvent τ → List UInt8
  | push _ s => s.bytes
  | _ => []

def accepted : ThreadEvent τ → List UInt8
  | write bs => bs
  | _ => []

end ThreadEvent

namespace Threads

variable {τ : Type*}

/-- `EPOLLOUT` is among the events of the connection that the epoll instance looks for. -/
def Watched (s : Threads τ) : Prop := s.gone = false ∧ s.sending.mgr = some (.polling true)

/-- Nobody has `m_epfd`. -/
structure EpfdFree (s : Threads τ) : Prop where
  senders : ∀ t, (s.senders t).hasEpfd = false
  loop : s.loop.hasEpfd = false

variable [DecidableEq τ]

/-- A user goes on. -/
def goes (s : Threads τ) (t : τ) (place : Sender) : Threads τ :=
  { s with senders := Function.update s.senders t place }

omit [DecidableEq τ] in
/-- The manager's thread goes on, and nothing else changes.  It never waits for `m` or `m_send`:
    nobody else keeps them. -/
inductive Goes (s : Threads τ) : Looper → Looper → Prop where
  | start {ok : Bool} (hepfd : s.EpfdFree) : Goes s .starting (if ok then .scanning else .ended)
  | scan : Goes s .scanning (.adding s.sending.outEnabled)
  /-- The connection could not be added to the epoll instance, which is closed again. -/
  | refuse {out : Bool} : Goes s (.adding out) .ended
  | check (hflags : s.quitter.hasFlags = false) :
      Goes s .checking (if s.quitRequested then .ended else .waiting)
  | readIn {out stays hup : Bool} :
      Goes s (.reading out) (if stays then if out then .writable else .next hup else .closing)
  | lockSend : Goes s .writable (if s.sending.sendQueue = [] then .emptied else .writing)
  /-- The socket accepts nothing. -/
  | retry {closes : Bool} : Goes s .writing (.next closes)
  | lockM : Goes s .emptied .disabling
  | close (hepfd : s.EpfdFree) : Goes s .closing .removing

omit [DecidableEq τ] in
/-- Where `epoll_wait` may return to, other than for the eventfd. -/
inductive Wakes (s : Threads τ) : Looper → Prop where
  | readable {out : Bool} (hgone : s.gone = false) (hout : out = true → s.Watched) :
      Wakes s (.reading out)
  | writable (hout : s.Watched) : Wakes s .writable
  | hangUp (hgone : s.gone = false) : Wakes s .closing
  | interrupted : Wakes s .checking
  | failed : Wakes s .ended

/-- `epoll_ctl` fails to change the events of a connection that was removed, and only then. -/
inductive Step (s : Threads τ) : ThreadEvent τ → Threads τ → Prop where
  | call {t : τ} {str : Stream} (hplace : s.senders t = .idle) (hne : 0 < str.length)
      (hcap : str.length ≤ str.capacity) : Step s (.call t str) (s.goes t (.arriving str))
  | push {t : τ} {str : Stream} (hplace : s.senders t = .arriving str)
      (hsend : s.loop.hasSend = false) :
      Step s (.push t str) { s.goes t .queued with sending := s.sending.push str }
  | look {t : τ} (hplace : s.senders t = .queued) (hm : s.loop.hasM = false) :
      Step s (.sender t) { s.goes t s.sending.look.1 with sending := s.sending.look.2 }
  | ask {t : τ} (hplace : s.senders t = .asking) (hepfd : s.EpfdFree) :
      Step s (.sender t) (s.goes t .telling)
  | tell {t : τ} (hplace : s.senders t = .telling) (hm : s.loop.hasM = false) :
      Step s (.sender t) { s.goes t s.sending.tell.1 with sending := s.sending.tell.2 }
  | enable {t : τ} (hplace : s.senders t = .enabling) (hm : s.loop.hasM = false) :
      Step s (.sender t) { s.goes t .idle with sending := s.sending.modifyOut (!s.gone) true }
  | go {place : Looper} (hgoes : s.Goes s.loop place) : Step s .loop { s with loop := place }
  | wake {place : Looper} (hplace : s.loop = .waiting) (hwakes : s.Wakes place) :
      Step s .wake { s with loop := place }
  | add {out : Bool} (hplace : s.loop = .adding out) :
      Step s .loop
        { s with loop := .creating, sending := { s.sending with mgr := some (.polling out) } }
  | create {ok : Bool} (hplace : s.loop = .creating) :
      Step s .loop { s with loop := .checking, pefd := some ok }
  | notify (hplace : s.loop = .waiting) (hpefd : s.pefd = some true) (hcount : 0 < s.counter) :
      Step s .notify { s with loop := .noticing }
  | notice (hplace : s.loop = .noticing) :
      Step s .loop { s with loop := .checking, counter := 0 }
  | write {count : Nat} {hup : Bool} {bs : List UInt8} {c : Sending} (hplace : s.loop = .writing)
      (hanswer : s.sending.MayAnswer (.accepted count)) (h : s.sending.wrote count = .ok (bs, c)) :
      Step s (.write bs)
        { s with loop := if c.sendQueue = [] then .emptied else .next hup, sending := c }
  | disable {hup : Bool} {mgr : CommunicationsManager} (hplace : s.loop = .disabling)
      (hepfd : s.EpfdFree) (hmgr : s.sending.mgr = some mgr) :
      Step s .loop
        { s with loop := .next hup, sending := (s.sending.fdDisableOut (!s.gone) mgr).2 }
  | remove (hplace : s.loop = .removing) : Step s .loop { s with loop := .checking, gone := true }
  | quit (hplace : s.quitter = .idle) : Step s .quit { s with quitter := .wanting }
  | takeFlags (hplace : s.quitter = .wanting) : Step s .quitter { s with quitter := .flagged }
  | post (hplace : s.quitter = .flagged) (hepfd : s.EpfdFree) :
      Step s .quitter
        { s with
          quitter := .done
          quitRequested := true
          counter := if s.pefd = none then s.counter else s.counter + 1 }

/-- The mutex `m_tcp_connection` of the client lets one user at a time into `send`. -/
def ClientStep (s : Threads τ) (e : ThreadEvent τ) (s' : Threads τ) : Prop :=
  Step s e s' ∧ ∀ t str, e = .call t str → ∀ t', s.senders t' = .idle

/-- A thread goes on with what it is doing. -/
def OwnStep (s : Threads τ) (e : ThreadEvent τ) (s' : Threads τ) : Prop :=
  Step s e s' ∧ e.own = true

omit [DecidableEq τ] in
/-- Nobody has anything to do: the manager's thread waits for events, or has ended. -/
structure AtRest (s : Threads τ) : Prop where
  senders : ∀ t, s.senders t = .idle
  loop : s.loop = .waiting ∨ s.loop = .ended
  quitter : s.quitter = .idle ∨ s.quitter = .done

variable {s s' : Threads τ} {e : ThreadEvent τ}

theorem senders_goes (s : Threads τ) (t t' : τ) (place : Sender) :
    (s.goes t place).senders t' = if t' = t then place else s.senders t' :=
  Function.update_apply ..

-- ============================================================================
-- Without interruption
-- ============================================================================

/-- Only a user has moved, and the connection is as it has left it. -/
def moved (s : Threads τ) (t : τ) (place : Sender) (c : Sending) : Threads τ :=
  { s.goes t place with sending := c }

@[simp] theorem senders_moved (s : Threads τ) (t : τ) (place : Sender) (c : Sending) :
    (s.moved t place c).senders t = place :=
  Function.update_self ..

theorem senders_moved_of_ne {t t' : τ} (h : t' ≠ t) (s : Threads τ) (place : Sender)
    (c : Sending) : (s.moved t place c).senders t' = s.senders t' :=
  Function.update_of_ne h ..

theorem goes_moved (s : Threads τ) (t : τ) (place place' : Sender) (c c' : Sending) :
    { (s.moved t place c).goes t place' with sending := c' } = s.moved t place' c' := by
  simp only [moved, goes, Function.update_idem]

theorem moved_idle {t : τ} (h : s.senders t = .idle) (c : Sending) :
    s.moved t .idle c = { s with sending := c } := by
  simp only [moved, goes, ← h, Function.update_eq_self]

theorem epfdFree_moved (h : s.EpfdFree) (t : τ) {place : Sender} (hplace : place.hasEpfd = false)
    (c : Sending) : (s.moved t place c).EpfdFree := by
  refine ⟨fun t' => ?_, h.loop⟩
  show ((s.goes t place).senders t').hasEpfd = false
  rw [senders_goes]
  split
  · exact hplace
  · exact h.senders t'

/-- A user puts its stream into the queue and sees whether output is enabled. -/
theorem look_alone (t : τ) (str : Stream) (hmgr : s.sending.mgr ≠ none)
    (hsend : s.loop.hasSend = false) (hm : s.loop.hasM = false) :
    Lts.Trace OwnStep (s.goes t (.arriving str)) [.push t str, .sender t]
      (s.moved t (if s.sending.outEnabled then .idle else .asking) (s.sending.push str)) := by
  have hpush : Step (s.moved t (.arriving str) s.sending) (.push t str)
      (s.moved t .queued (s.sending.push str)) := by
    rw [← goes_moved s t (.arriving str) .queued s.sending]
    exact .push (senders_moved ..) hsend
  have hlook : Step (s.moved t .queued (s.sending.push str)) (.sender t) _ :=
    .look (senders_moved ..) hm
  rw [show (s.moved t .queued (s.sending.push str)).sending = s.sending.push str from rfl,
    goes_moved, Sending.look_eq (c := s.sending.push str) hmgr] at hlook
  exact (Lts.Trace.nil.snoc ⟨hpush, rfl⟩).snoc ⟨hlook, rfl⟩

/-- A user that nobody interrupts does what `Sending.send` says. -/
theorem send_alone {t : τ} (str : Stream) (hmgr : s.sending.mgr ≠ none)
    (hplace : s.senders t = .idle) (hepfd : s.EpfdFree) (hsend : s.loop.hasSend = false)
    (hm : s.loop.hasM = false) :
    ∃ es, Lts.Trace OwnStep (s.goes t (.arriving str)) es
      { s with sending := s.sending.send (!s.gone) str } := by
  have hrun := look_alone t str hmgr hsend hm
  have hmgr' : (s.sending.push str).mgr ≠ none := hmgr
  rw [show s.sending.outEnabled = (s.sending.push str).outEnabled from rfl] at hrun
  rw [Sending.send, Sending.requestOut_eq hmgr']
  generalize s.sending.push str = c at hrun hmgr' ⊢
  by_cases hout : c.outEnabled = true
  · rw [if_pos hout, moved_idle hplace] at hrun
    rw [if_pos hout]
    exact ⟨_, hrun⟩
  rw [if_neg hout] at hrun
  rw [if_neg hout]
  have hask : Step (s.moved t .asking c) (.sender t) (s.moved t .telling c) := by
    rw [← goes_moved s t .asking .telling c]
    exact .ask (senders_moved ..) (epfdFree_moved hepfd t rfl c)
  have htell : Step (s.moved t .telling c) (.sender t) (s.moved t c.tell.1 c.tell.2) := by
    rw [← goes_moved s t .telling c.tell.1 c]
    exact .tell (senders_moved ..) hm
  have hrun := (hrun.snoc ⟨hask, rfl⟩).snoc ⟨htell, rfl⟩
  rcases Sending.place_tell c with ⟨hnew, -⟩ | ⟨hnew, hno⟩
  · have henable : Step (s.moved t c.tell.1 c.tell.2) (.sender t)
        (s.moved t .idle (c.tell.2.modifyOut (!s.gone) true)) := by
      rw [← goes_moved s t c.tell.1 .idle c.tell.2]
      exact .enable ((senders_moved ..).trans hnew) hm
    rw [← moved_idle hplace]
    exact ⟨_, hrun.snoc ⟨henable, rfl⟩⟩
  · rw [hnew, moved_idle hplace] at hrun
    rw [Sending.modifyOut_tell hno]
    exact ⟨_, hrun⟩

/-- Only the manager's thread has moved, and the connection is as it has left it. -/
def turned (s : Threads τ) (place : Looper) (c : Sending) : Threads τ :=
  { s with loop := place, sending := c }

omit [DecidableEq τ] in
theorem epfdFree_turned (h : s.EpfdFree) {place : Looper} (hplace : place.hasEpfd = false)
    (c : Sending) : (s.turned place c).EpfdFree :=
  ⟨h.senders, hplace⟩

/-- `data_out` has emptied the queue. -/
theorem disable_alone {c c' : Sending} (hepfd : s.EpfdFree)
    (h : c.disableOut (!s.gone) = .ok c') (hup : Bool) :
    Lts.Trace OwnStep (s.turned .emptied c) [.loop, .loop] (s.turned (.next hup) c') := by
  have hlock : Step (s.turned .emptied c) .loop (s.turned .disabling c) := .go .lockM
  rw [Sending.disableOut] at h
  split at h
  · rename_i mgr hmgr
    cases h
    have hdisable : Step (s.turned .disabling c) .loop _ :=
      @Step.disable _ _ _ hup mgr rfl (epfdFree_turned hepfd rfl c) hmgr
    exact (Lts.Trace.nil.snoc ⟨hlock, rfl⟩).snoc ⟨hdisable, rfl⟩
  · cases h

/-- The socket has accepted bytes from the front of the queue. -/
theorem write_alone {count : Nat} {bs : List UInt8} {str str' : Stream} {queue : List Stream}
    {c : Sending} (hepfd : s.EpfdFree) (hqueue : s.sending.sendQueue = str :: queue)
    (hanswer : s.sending.MayAnswer (.accepted count))
    (hwrite : Sending.writeOut count str = .ok (bs, str'))
    (h : s.sending.advance (!s.gone) str' queue = .ok c) (hup : Bool) :
    ∃ es, Lts.Trace OwnStep (s.turned .writing s.sending) es (s.turned (.next hup) c) ∧
      es.flatMap ThreadEvent.accepted = bs := by
  have hlog : ([] ++ [.write bs] : List (ThreadEvent τ)).flatMap ThreadEvent.accepted = bs :=
    List.append_nil bs
  have hstep := @Step.write _ _ (s.turned .writing s.sending) count hup bs _ rfl hanswer
    (by rw [Sending.wrote, show (s.turned .writing s.sending).sending = s.sending from rfl, hqueue]
        simp only [hwrite]
        rfl)
  have hrun : Lts.Trace OwnStep _ _ _ := .snoc .nil ⟨hstep, rfl⟩
  rw [Sending.advance] at h
  by_cases hend : str'.remainingLength = 0
  · simp only [if_pos hend] at h hrun
    by_cases hnil : queue = []
    · simp only [if_pos hnil] at h hrun
      refine ⟨_, hrun.append (disable_alone hepfd h hup), ?_⟩
      rw [List.flatMap_append, hlog]
      exact List.append_nil bs
    · simp only [if_neg hnil] at h hrun
      cases h
      exact ⟨_, hrun, hlog⟩
  · simp only [if_neg hend, if_neg (List.cons_ne_nil str' queue)] at h hrun
    cases h
    exact ⟨_, hrun, hlog⟩

/-- The thread of the manager, when nobody interrupts it, does what `Sending.dataOut` says. -/
theorem dataOut_alone {result : WriteResult} {bs : List UInt8} {c : Sending}
    (hplace : s.loop = .writable) (hepfd : s.EpfdFree) (hanswer : s.sending.MayAnswer result)
    (h : s.sending.dataOut (!s.gone) result = .ok (true, bs, c)) (hup : Bool) :
    ∃ es, Lts.Trace OwnStep s es (s.turned (.next hup) c) ∧
      es.flatMap ThreadEvent.accepted = bs := by
  have hlock : Step s .loop
      (s.turned (if s.sending.sendQueue = [] then .emptied else .writing) s.sending) := by
    refine .go ?_
    rw [hplace]
    exact .lockSend
  have hrun : Lts.Trace OwnStep s _ _ := .snoc .nil ⟨hlock, rfl⟩
  cases hqueue : s.sending.sendQueue with
  | nil =>
      rw [if_pos hqueue] at hrun
      simp only [Sending.dataOut, hqueue] at h
      cases hdis : s.sending.disableOut (!s.gone) with
      | error fault =>
          rw [hdis] at h
          cases h
      | ok c' =>
          rw [hdis] at h
          cases h
          exact ⟨_, hrun.append (disable_alone hepfd hdis hup), rfl⟩
  | cons str queue =>
      rw [if_neg (by rw [hqueue]; exact List.cons_ne_nil str queue)] at hrun
      cases result with
      | error retry =>
          simp only [Sending.dataOut, hqueue] at h
          cases h
          exact ⟨_, hrun.snoc ⟨.go (@Goes.retry _ _ hup), rfl⟩, rfl⟩
      | accepted count =>
          obtain ⟨hpos, -⟩ := hanswer str (by rw [hqueue]; rfl)
          obtain ⟨n, rfl⟩ : ∃ n, count = n + 1 := ⟨count - 1, by omega⟩
          simp only [Sending.dataOut, hqueue] at h
          cases hwrite : Sending.writeOut (n + 1) str with
          | error fault =>
              rw [hwrite] at h
              cases h
          | ok p =>
              obtain ⟨bs', str'⟩ := p
              rw [hwrite] at h
              cases hadv : s.sending.advance (!s.gone) str' queue with
              | error fault =>
                  simp only [hadv] at h
                  cases h
              | ok c' =>
                  simp only [hadv] at h
                  cases h
                  obtain ⟨es, hes, hlog⟩ := write_alone hepfd hqueue hanswer hwrite hadv hup
                  exact ⟨_, hrun.append hes, by simpa [ThreadEvent.accepted] using hlog⟩

/-- A message of one byte. -/
def ping : Stream := .ofBytes [0]

theorem call_ping {t : τ} (h : s.senders t = .idle) :
    Step s (.call t ping) (s.goes t (.arriving ping)) :=
  .call h (by decide) (by decide)

/-- A connection that has messages of one byte to send. -/
def pings (n : Nat) (out : Bool) : Sending := ⟨List.replicate n ping, out, some (.polling out)⟩

/-- The thread of the manager has added the connection and waits in `epoll_wait`. -/
def polled (c : Sending) : Threads τ := { sending := c, loop := .waiting, pefd := some true }

omit [DecidableEq τ] in
theorem epfdFree_polled (c : Sending) : (polled c : Threads τ).EpfdFree := ⟨fun _ => rfl, rfl⟩

theorem mayAnswer_pings (n : Nat) : (pings (n + 1) true).MayAnswer (.accepted 1) := by
  intro s hs
  cases hs
  decide

/-- The thread of the manager gets there by itself. -/
theorem polled_alone : ∃ es, Lts.Trace OwnStep ({} : Threads τ) es (polled (pings 0 false)) := by
  have hstart : Step ({} : Threads τ) .loop { loop := .scanning } :=
    .go (@Goes.start _ _ true ⟨fun _ => rfl, rfl⟩)
  have hscan : Step ({ loop := .scanning } : Threads τ) .loop { loop := .adding false } := .go .scan
  have hadd : Step ({ loop := .adding false } : Threads τ) .loop
      { sending := pings 0 false, loop := .creating } := .add rfl
  have hcreate : Step ({ sending := pings 0 false, loop := .creating } : Threads τ) .loop
      { sending := pings 0 false, loop := .checking, pefd := some true } :=
    @Step.create _ _ _ true rfl
  have hcheck : Step ({ sending := pings 0 false, loop := .checking, pefd := some true } :
      Threads τ) .loop (polled (pings 0 false)) := .go (.check rfl)
  have hadded : Lts.Trace OwnStep ({} : Threads τ) _ _ :=
    ((Lts.Trace.nil.snoc ⟨hstart, rfl⟩).snoc ⟨hscan, rfl⟩).snoc ⟨hadd, rfl⟩
  exact ⟨_, (hadded.snoc ⟨hcreate, rfl⟩).snoc ⟨hcheck, rfl⟩⟩

end Threads

end Tclm.Comm
