/-
  Tclm.Comm.Contention

  What the threads at a connection do to each other.

  A client lets one user at a time into `send`.  Then every call returns, whatever the order
  of the steps (`calls_return`), and a request to quit ends the manager's thread
  (`quit_ends_loop`).  With more users `data_out`, which has `m` and waits for `m_epfd`,
  and `fd_enable_out`, which has `m_epfd` and waits for `m`, can stop each other for ever
  (`stuck_of_two_users`); nothing else can stop them (`at_rest_or_deadlocked`).
-/

import Mathlib.Algebra.BigOperators.Group.Finset.Basic
import Mathlib.Algebra.Order.BigOperators.Group.Finset
import Tclm.Comm.Attention

open Tclm.Comm.Stream

namespace Tclm.Comm

/-- The steps that are left when the thread was requested to quit. -/
def Looper.left : Looper → Nat
  | .waiting => 9
  | place => place.rank

namespace Threads

variable {τ : Type*} [DecidableEq τ] {s s' : Threads τ} {e : ThreadEvent τ}

-- ============================================================================
-- Steps that are left
-- ============================================================================

omit [DecidableEq τ] in
theorem Goes.rank_lt {old place : Looper} (h : s.Goes old place) : place.rank < old.rank := by
  cases h with
  | start | scan | refuse | check | readIn | lockSend | retry | lockM | close =>
      grind [Looper.rank, Looper.next]

/-- The steps that the threads have left until they wait for something to do. -/
def size [Fintype τ] (s : Threads τ) : Nat :=
  s.loop.rank + s.quitter.rank + ∑ t, (s.senders t).rank

theorem rank_next_lt (hup : Bool) : (Looper.next hup).rank < 4 := by
  cases hup with
  | false | true => decide

/-- A user that goes on has less to do, and the others have as much as before. -/
theorem sum_rank_goes_lt [Fintype τ] {t : τ} {place : Sender}
    (h : place.rank < (s.senders t).rank) :
    ∑ t', ((s.goes t place).senders t').rank < ∑ t', (s.senders t').rank := by
  apply Finset.sum_lt_sum
  · intro t' _
    rw [senders_goes]
    split
    · rename_i heq
      rw [heq]
      exact h.le
    · exact le_rfl
  · refine ⟨t, Finset.mem_univ t, ?_⟩
    rw [senders_goes, if_pos rfl]
    exact h

theorem rank_look_lt (c : Sending) : c.look.1.rank < Sender.queued.rank := by
  rw [Sending.look]
  split
  · exact (by decide : Sender.idle.rank < Sender.queued.rank)
  · split
    · exact (by decide : Sender.asking.rank < Sender.queued.rank)
    · exact (by decide : Sender.idle.rank < Sender.queued.rank)

theorem rank_tell_lt (c : Sending) : c.tell.1.rank < Sender.telling.rank := by
  rw [Sending.tell]
  split
  · exact (by decide : Sender.enabling.rank < Sender.telling.rank)
  · exact (by decide : Sender.idle.rank < Sender.telling.rank)

theorem OwnStep.size_lt [Fintype τ] (h : OwnStep s e s') : s'.size < s.size := by
  obtain ⟨hstep, hown⟩ := h
  -- a step of a user
  have huser : ∀ {t : τ} {place old : Sender}, s.senders t = old → place.rank < old.rank →
      s.loop.rank + s.quitter.rank + ∑ t', ((s.goes t place).senders t').rank < s.size := by
    intro t place old hplace hlt
    rw [← hplace] at hlt
    exact Nat.add_lt_add_left (sum_rank_goes_lt hlt) _
  -- a step of the manager's thread
  have hloop : ∀ {place old : Looper}, s.loop = old → place.rank < old.rank →
      place.rank + s.quitter.rank + ∑ t', (s.senders t').rank < s.size := by
    intro place old hplace hlt
    rw [← hplace] at hlt
    exact Nat.add_lt_add_right (Nat.add_lt_add_right hlt _) _
  have hquit : ∀ {place old : Quitter}, s.quitter = old → place.rank < old.rank →
      s.loop.rank + place.rank + ∑ t', (s.senders t').rank < s.size := by
    intro place old hplace hlt
    rw [← hplace] at hlt
    exact Nat.add_lt_add_right (Nat.add_lt_add_left hlt _) _
  cases hstep with
  | call | wake | notify | quit => cases hown
  | push hplace => exact huser hplace (Nat.lt_succ_self 4)
  | look hplace => exact huser hplace (rank_look_lt _)
  | ask hplace => exact huser hplace (Nat.lt_succ_self 2)
  | tell hplace => exact huser hplace (rank_tell_lt _)
  | enable hplace => exact huser hplace Nat.zero_lt_one
  | go hgoes => exact hloop rfl hgoes.rank_lt
  | add hplace => exact hloop hplace (Nat.lt_succ_self 2)
  | create hplace | notice hplace | remove hplace => exact hloop hplace (Nat.lt_succ_self 1)
  | @write count hup bs c hplace =>
      refine hloop hplace ?_
      split
      · exact (by decide : Looper.emptied.rank < Looper.writing.rank)
      · exact (rank_next_lt hup).trans (by decide)
  | @disable hup mgr hplace => exact hloop hplace (rank_next_lt hup)
  | takeFlags hplace => exact hquit hplace (Nat.lt_succ_self 1)
  | post hplace => exact hquit hplace Nat.zero_lt_one

/-- The threads have at most as many steps in them as are left. -/
theorem length_le_of_own [Fintype τ] {es : List (ThreadEvent τ)} (h : Lts.Trace OwnStep s es s') :
    es.length + s'.size ≤ s.size := by
  induction h with
  | nil => rw [List.length_nil, Nat.zero_add]
  | snoc _ hstep ih =>
      have hlt := hstep.size_lt
      rw [List.length_append, List.length_singleton]
      omega

-- ============================================================================
-- Threads that wait for each other
-- ============================================================================

omit [DecidableEq τ] in
/-- The manager's thread has `m_send` and `m` in `data_out` and waits for `m_epfd`; a user has
    `m_epfd` in `fd_enable_out` and waits for `m`. -/
structure Deadlocked (s : Threads τ) : Prop where
  loop : s.loop = .disabling
  user : ∃ t, (s.senders t).hasEpfd = true

omit [DecidableEq τ] in
/-- Who waits for `m_epfd` waits for a user, if the manager's thread has not got it. -/
theorem epfdFree_or_user (h : s.loop.hasEpfd = false) :
    s.EpfdFree ∨ ∃ t, (s.senders t).hasEpfd = true := by
  by_cases hall : ∃ t, (s.senders t).hasEpfd = true
  · exact .inr hall
  · refine .inl ⟨fun t => ?_, h⟩
    rw [Bool.eq_false_iff]
    exact fun ht => hall ⟨t, ht⟩

/-- A user that has `m_epfd` can go on unless the manager's thread has `m`. -/
theorem exists_own_of_hasEpfd {t : τ} (ht : (s.senders t).hasEpfd = true)
    (hm : s.loop.hasM = false) : ∃ e s', OwnStep s e s' := by
  cases hplace : s.senders t with
  | idle | arriving | queued | asking =>
      rw [hplace] at ht
      cases ht
  | telling => exact ⟨_, _, .tell hplace hm, rfl⟩
  | enabling => exact ⟨_, _, .enable hplace hm, rfl⟩

/-- The manager's thread can go on if it does not have to wait for `m_epfd` or `m_flags`. -/
theorem exists_own_of_loop (hmgr : s.sending.mgr ≠ none) (hwait : s.loop ≠ .waiting)
    (hend : s.loop ≠ .ended) (hepfd : s.loop.hasEpfd = false → s.EpfdFree)
    (hflags : s.loop = .checking → s.quitter.hasFlags = false) : ∃ e s', OwnStep s e s' := by
  have hgo : ∀ {old place}, s.loop = old → s.Goes old place → ∃ e s', OwnStep s e s' := by
    rintro _ _ rfl hgoes
    exact ⟨_, _, .go hgoes, rfl⟩
  cases hplace : s.loop with
  | waiting => exact absurd hplace hwait
  | ended => exact absurd hplace hend
  | starting => exact hgo hplace (@Goes.start _ _ true (hepfd (by rw [hplace]; rfl)))
  | scanning => exact hgo hplace .scan
  | adding => exact ⟨_, _, .add hplace, rfl⟩
  | creating => exact ⟨_, _, @Step.create _ _ _ true hplace, rfl⟩
  | checking => exact hgo hplace (.check (hflags hplace))
  | noticing => exact ⟨_, _, .notice hplace, rfl⟩
  | reading => exact hgo hplace (@Goes.readIn _ _ _ true false)
  | writable => exact hgo hplace .lockSend
  | writing => exact hgo hplace (@Goes.retry _ _ false)
  | emptied => exact hgo hplace .lockM
  | disabling =>
      obtain ⟨mgr, hmgr⟩ := Option.ne_none_iff_exists'.mp hmgr
      exact ⟨_, _, @Step.disable _ _ _ false _ hplace (hepfd (by rw [hplace]; rfl)) hmgr, rfl⟩
  | closing => exact hgo hplace (.close (hepfd (by rw [hplace]; rfl)))
  | removing => exact ⟨_, _, .remove hplace, rfl⟩

/-- A user in `send` can go on while nobody has a mutex that it needs. -/
theorem exists_own_of_sender {t : τ} (ht : s.senders t ≠ .idle) (hepfd : s.EpfdFree)
    (hsend : s.loop.hasSend = false) (hm : s.loop.hasM = false) : ∃ e s', OwnStep s e s' := by
  cases hplace : s.senders t with
  | idle => exact absurd hplace ht
  | arriving str => exact ⟨_, _, .push hplace hsend, rfl⟩
  | queued => exact ⟨_, _, .look hplace hm, rfl⟩
  | asking => exact ⟨_, _, .ask hplace hepfd, rfl⟩
  | telling => exact ⟨_, _, .tell hplace hm, rfl⟩
  | enabling => exact ⟨_, _, .enable hplace hm, rfl⟩

/-- When no thread can go on, none has anything to do, or `data_out` and `fd_enable_out` wait for
    each other. -/
theorem at_rest_or_deadlocked (hmgr : s.sending.mgr ≠ none) (hstuck : ∀ e s', ¬ OwnStep s e s') :
    s.AtRest ∨ s.Deadlocked := by
  have hno : ¬ ∃ e s', OwnStep s e s' := fun ⟨e, s', hown⟩ => hstuck e s' hown
  by_cases hdead : s.loop = .disabling ∧ ∃ t, (s.senders t).hasEpfd = true
  · exact .inr ⟨hdead.1, hdead.2⟩
  refine .inl ?_
  have hepfd : s.EpfdFree := by
    -- who has `m_epfd` could go on
    by_cases hloop : s.loop.hasEpfd = true
    · have hat : ∀ {place : Looper}, s.loop = place → place.hasEpfd = true := by
        rintro _ rfl
        exact hloop
      exact absurd (exists_own_of_loop hmgr (fun heq => by cases hat heq)
        (fun heq => by cases hat heq) (fun hnot => by rw [hloop] at hnot; cases hnot)
        fun heq => by cases hat heq) hno
    · rcases epfdFree_or_user (Bool.eq_false_iff.mpr hloop) with hfree | ⟨t, ht⟩
      · exact hfree
      · refine absurd (exists_own_of_hasEpfd ht ?_) hno
        cases hplace : s.loop with
        | disabling => exact absurd ⟨hplace, t, ht⟩ hdead
        | _ => rfl
  have hquit : s.quitter = .idle ∨ s.quitter = .done := by
    cases hplace : s.quitter with
    | idle => exact .inl rfl
    | done => exact .inr rfl
    | wanting => exact absurd ⟨_, _, .takeFlags hplace, rfl⟩ hno
    | flagged => exact absurd ⟨_, _, .post hplace hepfd, rfl⟩ hno
  have hflags : s.quitter.hasFlags = false := by
    rcases hquit with heq | heq
    · rw [heq]
      rfl
    · rw [heq]
      rfl
  have hloop : s.loop = .waiting ∨ s.loop = .ended := by
    by_contra hnot
    rw [not_or] at hnot
    exact hno (exists_own_of_loop hmgr hnot.1 hnot.2 (fun _ => hepfd) fun _ => hflags)
  have hfree : s.loop.hasSend = false ∧ s.loop.hasM = false := by
    rcases hloop with heq | heq
    · rw [heq]
      exact ⟨rfl, rfl⟩
    · rw [heq]
      exact ⟨rfl, rfl⟩
  refine ⟨fun t => ?_, hloop, hquit⟩
  by_contra ht
  exact hno (exists_own_of_sender ht hepfd hfree.1 hfree.2)

omit [DecidableEq τ] in
theorem Deadlocked.not_epfdFree (h : s.Deadlocked) : ¬ s.EpfdFree := by
  intro hfree
  obtain ⟨t, ht⟩ := h.user
  rw [hfree.senders t] at ht
  cases ht

/-- Two threads that wait for each other do so for ever, and nobody gets through `send` again. -/
theorem Deadlocked.step (h : s.Deadlocked) (hstep : Step s e s') :
    s'.Deadlocked ∧ ∀ t, s.senders t ≠ .idle → s'.senders t = s.senders t := by
  have hloop := h.loop
  cases hstep with
  | @call t str hplace =>
      have hother : ∀ t', s.senders t' ≠ .idle →
          (s.goes t (.arriving str)).senders t' = s.senders t' := by
        intro t' ht'
        rw [senders_goes, if_neg]
        rintro rfl
        exact ht' hplace
      obtain ⟨t', ht'⟩ := h.user
      refine ⟨⟨hloop, t', ?_⟩, hother⟩
      rw [hother t' (by intro heq; rw [heq] at ht'; cases ht')]
      exact ht'
  | quit | takeFlags => exact ⟨⟨hloop, h.user⟩, fun _ _ => rfl⟩
  -- everybody else needs a mutex that one of the two has
  | push _ hsend =>
      rw [hloop] at hsend
      cases hsend
  | look _ hm | tell _ hm | enable _ hm =>
      rw [hloop] at hm
      cases hm
  | ask _ hepfd | post _ hepfd | disable _ hepfd => exact absurd hepfd h.not_epfdFree
  | go hgoes =>
      rw [hloop] at hgoes
      cases hgoes
  | wake hplace | add hplace | create hplace | notify hplace | notice hplace | write hplace
  | remove hplace =>
      rw [hloop] at hplace
      cases hplace

/-- So it stays, whatever happens. -/
theorem Deadlocked.of_trace {es : List (ThreadEvent τ)} (h : s.Deadlocked)
    (hrun : Lts.Trace Step s es s') :
    s'.Deadlocked ∧ ∀ t, s.senders t ≠ .idle → s'.senders t = s.senders t := by
  induction hrun with
  | nil => exact ⟨h, fun _ _ => rfl⟩
  | snoc _ hstep ih =>
      obtain ⟨hdead, hsame⟩ := ih.1.step hstep
      exact ⟨hdead, fun t ht => by rw [hsame t (by rw [ih.2 t ht]; exact ht), ih.2 t ht]⟩

/-- A user has found output disabled, and has not asked for it yet. -/
def asked (t : τ) (place : Looper) (c : Sending) : Threads τ :=
  ((polled c).moved t .asking c).turned place c

theorem epfdFree_asked (t : τ) {place : Looper} (hplace : place.hasEpfd = false) (c : Sending) :
    (asked t place c).EpfdFree :=
  epfdFree_turned (epfdFree_moved (epfdFree_polled c) t rfl c) hplace c

/-- A second user may find output disabled as well, and ask for it when everything that was in
    the queue has been written: it gets `m_epfd` while `data_out` has `m`.  Nobody gets on then. -/
theorem stuck_of_two_users {t t' : τ} (hne : t ≠ t') :
    ∃ es s, Lts.Trace Step ({} : Threads τ) es s ∧ s.senders t' = .telling ∧
      ∀ es' s', Lts.Trace Step s es' s' → s'.senders t' = .telling ∧ s'.loop = .disabling := by
  obtain ⟨es₀, hpolled⟩ := polled_alone (τ := τ)
  have hidle : (asked t' .waiting (pings 1 false)).senders t = .idle :=
    senders_moved_of_ne hne (polled (pings 1 false)) .asking (pings 1 false)
  -- one user finds output disabled, and the other one enables it
  have hlook : Lts.Trace OwnStep ((polled (pings 0 false) : Threads τ).goes t' (.arriving ping)) _
      (asked t' .waiting (pings 1 false)) := look_alone t' ping (fun h => by cases h) rfl rfl
  obtain ⟨es₁, hsend⟩ := send_alone (s := asked t' .waiting (pings 1 false)) ping
    (fun h => by cases h) hidle (epfdFree_asked t' rfl _) rfl rfl
  have hwake : ∀ n, Step (asked t' .waiting (pings n true)) .wake
      (asked t' .writable (pings n true)) := fun n => .wake rfl (.writable ⟨rfl, rfl⟩)
  -- the first message is written
  obtain ⟨es₂, hout, -⟩ := dataOut_alone (s := asked t' .writable (pings 2 true))
    (c := pings 1 true) rfl (epfdFree_asked t' rfl _) (mayAnswer_pings 1) rfl false
  have hcheck : Step (asked t' .checking (pings 1 true)) .loop
      (asked t' .waiting (pings 1 true)) := .go (.check rfl)
  -- the second one is written, and the queue is empty
  have hlock : Step (asked t' .writable (pings 1 true)) .loop
      (asked t' .writing (pings 1 true)) := .go .lockSend
  have hwrite : Step (asked t' .writing (pings 1 true)) (.write [0])
      (asked t' .emptied (pings 0 true)) :=
    @Step.write _ _ _ 1 false _ _ rfl (mayAnswer_pings 0) rfl
  have hempty : Step (asked t' .emptied (pings 0 true)) .loop
      (asked t' .disabling (pings 0 true)) := .go .lockM
  -- `data_out` has `m`, and the user takes `m_epfd`
  have hask : Step (asked t' .disabling (pings 0 true)) (.sender t')
      ((asked t' .disabling (pings 0 true)).goes t' .telling) :=
    .ask (senders_moved _ t' .asking (pings 0 true)) (epfdFree_asked t' rfl _)
  have htell : ((asked t' .disabling (pings 0 true)).goes t' .telling).senders t' = .telling := by
    rw [senders_goes, if_pos rfl]
  have hboth := ((((hpolled.mono And.left).snoc (call_ping (t := t') rfl)).append
    (hlook.mono And.left)).snoc (call_ping hidle)).append (hsend.mono And.left)
  have hfirst := ((hboth.snoc (hwake 2)).append (hout.mono And.left)).snoc hcheck
  have hrun := ((((hfirst.snoc (hwake 1)).snoc hlock).snoc hwrite).snoc hempty).snoc hask
  refine ⟨_, _, hrun, htell, fun es' s' hrest => ?_⟩
  obtain ⟨hdead, hsame⟩ := Deadlocked.of_trace ⟨rfl, t', by rw [htell]; rfl⟩ hrest
  refine ⟨?_, hdead.loop⟩
  rw [hsame t' (by rw [htell]; decide), htell]

/-- Two users are enough. -/
theorem stuck_of_two_users_bool : ∃ es s, Lts.Trace Step ({} : Threads Bool) es s ∧
    s.senders true = .telling ∧
      ∀ es' s', Lts.Trace Step s es' s' → s'.senders true = .telling ∧ s'.loop = .disabling :=
  stuck_of_two_users Bool.false_ne_true

-- ============================================================================
-- One user at a time
-- ============================================================================

omit [DecidableEq τ] in
/-- A user that found output disabled is the only one in `send`, and the manager's thread is not
    in `data_out` and does not get there. -/
structure Single (s : Threads τ) : Prop where
  alone : ∀ t t', s.senders t ≠ .idle → s.senders t' ≠ .idle → t = t'
  dark : ∀ t, (s.senders t).asks = true → s.sending.outEnabled = false
  apart : ∀ t, (s.senders t).enables = true → ¬ s.Watched ∧ s.loop.writes = false

/-- The only user in `send` moves. -/
theorem single_moved {t : τ} {place : Sender} {c : Sending}
    (ht : ∀ t', t' ≠ t → s.senders t' = .idle)
    (hdark : place.asks = true → c.outEnabled = false)
    (hapart : place.enables = true → ¬ (s.moved t place c).Watched ∧ s.loop.writes = false) :
    (s.moved t place c).Single := by
  have hother : ∀ t', t' ≠ t → (s.moved t place c).senders t' = .idle := fun t' hne =>
    (senders_moved_of_ne hne ..).trans (ht t' hne)
  refine ⟨fun t₁ t₂ h₁ h₂ => ?_, fun t' ht' => ?_, fun t' ht' => ?_⟩
  · have heq : ∀ t', (s.moved t place c).senders t' ≠ .idle → t' = t := fun t' ht' => by
      by_contra hne
      exact ht' (hother t' hne)
    rw [heq t₁ h₁, heq t₂ h₂]
  · by_cases heq : t' = t
    · subst heq
      rw [senders_moved] at ht'
      exact hdark ht'
    · rw [hother t' heq] at ht'
      cases ht'
  · by_cases heq : t' = t
    · subst heq
      rw [senders_moved] at ht'
      exact hapart ht'
    · rw [hother t' heq] at ht'
      cases ht'

omit [DecidableEq τ] in
theorem Single.others (h : s.Single) {t t' : τ} {place : Sender} (hplace : s.senders t = place)
    (hbusy : place ≠ .idle) (hne : t' ≠ t) : s.senders t' = .idle := by
  subst hplace
  by_contra ht'
  exact hne (h.alone t' t ht' hbusy)

omit [DecidableEq τ] in
/-- While the thread of the manager is in `data_out` nobody is about to enable output. -/
theorem Single.not_enables (h : s.Single) {place : Looper} (hplace : s.loop = place)
    (hwrites : place.writes = true) (t : τ) : (s.senders t).enables = false := by
  subst hplace
  rw [Bool.eq_false_iff]
  intro ht
  rw [(h.apart t ht).2] at hwrites
  cases hwrites

theorem Single.step (h : s.Single) (hm : s.Managed) (he : s.Exclusive) (hen : s.Enabled)
    (hstep : ClientStep s e s') : s'.Single := by
  obtain ⟨hstep, hone⟩ := hstep
  cases hstep with
  | @call t str =>
      exact single_moved (c := s.sending) (fun t' _ => hone t str rfl t')
        (fun hasks => by cases hasks) fun ht => (by cases ht)
  | push hplace =>
      exact single_moved (fun _ => h.others hplace (by intro heq; cases heq))
        (fun hasks => by cases hasks) fun ht => (by cases ht)
  | look hplace =>
      rw [Sending.look_eq hm.mgr]
      refine single_moved (fun _ => h.others hplace (by decide)) (fun hasks => ?_) fun ht => ?_
      · by_contra hout
        rw [Bool.not_eq_false] at hout
        rw [if_pos hout] at hasks
        cases hasks
      · -- output is disabled, so nobody waits to write
        have hout : s.sending.outEnabled ≠ true := by
          intro hout
          rw [if_pos hout] at ht
          cases ht
        refine ⟨fun hw => hout (hen.watched hw), ?_⟩
        rw [Bool.eq_false_iff]
        exact fun hw => hout (hen.writes hw)
  | @ask t hplace =>
      exact single_moved (c := s.sending) (fun _ => h.others hplace (by decide))
        (fun _ => h.dark t (by rw [hplace]; rfl)) fun _ => h.apart t (by rw [hplace]; rfl)
  | @tell t hplace =>
      obtain ⟨hnot, hwrites⟩ := h.apart t (by rw [hplace]; rfl)
      refine single_moved (fun _ => h.others hplace (by decide)) (fun hasks => ?_) fun _ =>
        ⟨fun hw => hnot ⟨hw.1, (Sending.mgr_tell _).symm.trans hw.2⟩, hwrites⟩
      rcases Sending.place_tell s.sending with ⟨hat, -⟩ | ⟨hat, -⟩
      · rw [hat] at hasks
        cases hasks
      · rw [hat] at hasks
        cases hasks
  | enable hplace =>
      exact single_moved (fun _ => h.others hplace (by decide)) (fun hasks => by cases hasks)
        fun ht => (by cases ht)
  | go hgoes =>
      refine ⟨h.alone, h.dark, fun t ht => ⟨(h.apart t ht).1, ?_⟩⟩
      rw [Bool.eq_false_iff]
      intro hw
      have hno := (h.apart t ht).2
      rw [hgoes.writes hw] at hno
      cases hno
  | wake _ hwakes =>
      refine ⟨h.alone, h.dark, fun t ht => ⟨(h.apart t ht).1, ?_⟩⟩
      cases hwakes with
      | @readable out _ hout =>
          cases out with
          | false => rfl
          | true => exact absurd (hout rfl) (h.apart t ht).1
      | writable hout => exact absurd hout (h.apart t ht).1
      | hangUp | interrupted | failed => rfl
  | @add out hplace =>
      refine ⟨h.alone, h.dark, fun t ht => ⟨?_, rfl⟩⟩
      rintro ⟨-, hmgr⟩
      cases hmgr
      -- output is enabled, and a user that enables it has `m_epfd`
      have hno := he.loop (by rw [hplace]; rfl) t
      cases hat : s.senders t with
      | idle | arriving | queued =>
          rw [show s.senders t = _ from hat] at ht
          cases ht
      | asking =>
          have hdark := h.dark t (by rw [hat]; rfl)
          rw [hen.adding true hplace] at hdark
          cases hdark
      | telling | enabling =>
          rw [hat] at hno
          cases hno
  | create | notify | notice =>
      exact ⟨h.alone, h.dark, fun t ht => ⟨(h.apart t ht).1, rfl⟩⟩
  | write hplace _ hwrote =>
      obtain ⟨queue, rfl⟩ := Sending.wrote_eq hwrote
      refine ⟨h.alone, h.dark, fun t ht => ?_⟩
      rw [h.not_enables hplace rfl t] at ht
      cases ht
  | disable hplace =>
      refine ⟨h.alone, fun _ _ => rfl, fun t ht => ?_⟩
      rw [h.not_enables hplace rfl t] at ht
      cases ht
  | remove => exact ⟨h.alone, h.dark, fun t ht => ⟨fun hw => (by cases hw.1), rfl⟩⟩
  | quit | takeFlags | post => exact ⟨h.alone, h.dark, h.apart⟩

omit [DecidableEq τ] in
/-- A request to quit is seen in `epoll_wait`: the eventfd is there, and something is in it. -/
structure Ending (s : Threads τ) : Prop where
  late : s.pefd = none → s.loop.early = true ∨ s.loop = .creating ∨ s.loop = .ended
  counted : s.quitRequested = true → s.loop = .waiting → s.pefd ≠ none → 0 < s.counter

omit [DecidableEq τ] in
/-- Before the eventfd is there the thread of the manager goes on to create it. -/
theorem Goes.early {place : Looper} (h : s.Goes s.loop place)
    (hlate : s.loop.early = true ∨ s.loop = .creating ∨ s.loop = .ended) :
    place.early = true ∨ place = .ended := by
  generalize s.loop = old at h hlate
  cases h with
  | @start ok =>
      cases ok with
      | false => exact .inr rfl
      | true => exact .inl rfl
  | scan => exact .inl rfl
  | refuse => exact .inr rfl
  | check | readIn | lockSend | retry | lockM | close =>
      rcases hlate with hlate | hlate | hlate
      · cases hlate
      · cases hlate
      · cases hlate

omit [DecidableEq τ] in
theorem Goes.not_waiting (h : s.Goes s.loop .waiting) : s.quitRequested = false := by
  generalize s.loop = old at h
  generalize hplace : Looper.waiting = place at h
  cases h with
  | check =>
      split at hplace
      · cases hplace
      · rename_i hquit
        exact Bool.eq_false_iff.mpr hquit
  | start | lockSend =>
      split at hplace
      · cases hplace
      · cases hplace
  | scan | refuse | lockM | close => cases hplace
  | @retry hup =>
      cases hup with
      | false | true => cases hplace
  | @readIn out stays hup =>
      cases stays with
      | false => cases hplace
      | true =>
          cases out with
          | true => cases hplace
          | false =>
              cases hup with
              | false | true => cases hplace

omit [DecidableEq τ] in
/-- The eventfd is there when the thread of the manager is in its loop. -/
theorem Ending.pefd_ne_none (h : s.Ending) {place : Looper} (hplace : s.loop = place)
    (hlate : place.early = false) (hrun : place ≠ .creating ∧ place ≠ .ended) :
    s.pefd ≠ none := by
  subst hplace
  intro hnone
  rcases h.late hnone with hearly | heq | heq
  · rw [hlate] at hearly
    cases hearly
  · exact hrun.1 heq
  · exact hrun.2 heq

theorem Ending.step (h : s.Ending) (hstep : Step s e s') : s'.Ending := by
  cases hstep with
  | call | push | look | ask | tell | enable | quit | takeFlags => exact ⟨h.late, h.counted⟩
  | go hgoes =>
      refine ⟨fun hnone => ?_, fun hquit hplace => ?_⟩
      · exact (hgoes.early (h.late hnone)).imp_right Or.inr
      · dsimp only at hplace
        subst hplace
        have hno := hgoes.not_waiting
        rw [show s.quitRequested = true from hquit] at hno
        cases hno
  | wake hplace hwakes =>
      have hsome := h.pefd_ne_none hplace rfl (by decide)
      refine ⟨fun hnone => absurd hnone hsome, fun _ hnew => ?_⟩
      cases hwakes with
      | readable | writable | hangUp | interrupted | failed => cases hnew
  | add => exact ⟨fun _ => .inr (.inl rfl), fun _ hnew => (by cases hnew)⟩
  | create => exact ⟨fun hnone => (by cases hnone), fun _ hnew => (by cases hnew)⟩
  | notify hplace | notice hplace | remove hplace =>
      have hsome := h.pefd_ne_none hplace rfl (by decide)
      exact ⟨fun hnone => absurd hnone hsome, fun _ hnew => (by cases hnew)⟩
  | @write _ hup _ _ hplace =>
      have hsome := h.pefd_ne_none hplace rfl (by decide)
      refine ⟨fun hnone => absurd hnone hsome, fun _ hnew => ?_⟩
      dsimp only at hnew
      split at hnew
      · cases hnew
      · cases hup with
        | false | true => cases hnew
  | @disable hup _ hplace =>
      have hsome := h.pefd_ne_none hplace rfl (by decide)
      refine ⟨fun hnone => absurd hnone hsome, fun _ hnew => ?_⟩
      cases hup with
      | false | true => cases hnew
  | post =>
      refine ⟨h.late, fun _ _ hsome => ?_⟩
      rw [show (_ : Nat) = s.counter + 1 from if_neg hsome]
      exact Nat.succ_pos _

/-- What holds after every step when there is one user at a time. -/
structure ClientSound (es : List (ThreadEvent τ)) (s : Threads τ) : Prop where
  sound : Sound es s
  single : s.Single
  ending : s.Ending

theorem ClientSound.of_trace {es : List (ThreadEvent τ)} (h : Lts.Trace ClientStep {} es s) :
    ClientSound es s := by
  refine h.invariant_log ClientSound ?_ fun hs hstep => ?_
  · refine ⟨sound_start, ⟨fun t _ ht => absurd rfl ht, fun t ht => ?_, fun t ht => ?_⟩, ⟨?_, ?_⟩⟩
    · cases ht
    · cases ht
    · exact fun _ => .inl rfl
    · exact fun hquit => by cases hquit
  · obtain ⟨hsound, hsingle, hending⟩ := hs
    exact ⟨hsound.step hstep.1,
      hsingle.step hsound.managed hsound.exclusive hsound.enabled hstep, hending.step hstep.1⟩

/-- Who has nothing to do does nothing. -/
theorem AtRest.not_ownStep (h : s.AtRest) : ¬ OwnStep s e s' := by
  rintro ⟨hstep, hown⟩
  obtain ⟨hsenders, hloop, hquitter⟩ := h
  cases hstep with
  | call | wake | notify | quit => cases hown
  | @push t _ hplace | @look t hplace | @ask t hplace | @tell t hplace | @enable t hplace =>
      rw [hsenders t] at hplace
      cases hplace
  | go hgoes =>
      rcases hloop with hplace | hplace
      · rw [hplace] at hgoes
        cases hgoes
      · rw [hplace] at hgoes
        cases hgoes
  | add hplace | create hplace | notice hplace | write hplace | disable hplace | remove hplace =>
      rw [hplace] at hloop
      rcases hloop with hloop | hloop
      · cases hloop
      · cases hloop
  | takeFlags hplace | post hplace =>
      rw [hplace] at hquitter
      rcases hquitter with hquitter | hquitter
      · cases hquitter
      · cases hquitter

/-- A thread that goes on is no new call. -/
theorem OwnStep.client (h : OwnStep s e s') : ClientStep s e s' := by
  refine ⟨h.1, ?_⟩
  rintro t str rfl
  cases h.2

omit [DecidableEq τ] in
/-- A user that has `m_epfd` has found output disabled, and `data_out` is not about to disable
    it. -/
theorem Single.not_deadlocked (h : s.Single) : ¬ s.Deadlocked := by
  rintro ⟨hloop, t, ht⟩
  have henables : (s.senders t).enables = true := by
    cases hplace : s.senders t with
    | telling | enabling => rfl
    | idle | arriving | queued | asking =>
        rw [hplace] at ht
        cases ht
  have hwrites := (h.apart t henables).2
  rw [hloop] at hwrites
  cases hwrites

omit [DecidableEq τ] in
theorem Single.size_le [Fintype τ] (h : s.Single) : s.size ≤ 15 := by
  have hloop : s.loop.rank ≤ 8 := by
    cases s.loop with
    | _ => simp [Looper.rank]
  have hquit : s.quitter.rank ≤ 2 := by
    cases s.quitter with
    | _ => simp [Quitter.rank]
  have husers : ∑ t, (s.senders t).rank ≤ 5 := by
    by_cases hsome : ∃ t, s.senders t ≠ .idle
    · obtain ⟨t, ht⟩ := hsome
      rw [Finset.sum_eq_single t]
      · cases s.senders t with
        | _ => simp [Sender.rank]
      · intro t' _ hne
        by_contra hrank
        refine hne (h.alone t' t (fun hidle => hrank ?_) ht)
        rw [hidle]
        rfl
      · exact fun ht => absurd (Finset.mem_univ t) ht
    · rw [Finset.sum_eq_zero]
      · exact Nat.zero_le 5
      · intro t _
        by_contra hrank
        refine hsome ⟨t, fun hidle => hrank ?_⟩
        rw [hidle]
        rfl
  rw [size]
  omega

/-- A call of a client returns: when nothing new happens the threads get on for at most 15
    steps, in whatever order, and they do not stop before all of them are done. -/
theorem calls_return [Fintype τ] {es es' : List (ThreadEvent τ)}
    (h : Lts.Trace ClientStep {} es s) (hown : Lts.Trace OwnStep s es' s') :
    es'.length ≤ 15 ∧ ((∀ e t, ¬ OwnStep s' e t) → s'.AtRest) := by
  have hrun := ClientSound.of_trace (h.append (hown.mono OwnStep.client))
  constructor
  · have hlen := length_le_of_own hown
    have hsize := (ClientSound.of_trace h).single.size_le
    omega
  · intro hstuck
    rcases at_rest_or_deadlocked hrun.sound.managed.mgr hstuck with hrest | hdead
    · exact hrest
    · exact absurd hdead hrun.single.not_deadlocked

/-- A call that finds output disabled. -/
theorem calls_return_ping : ∃ es' : List (ThreadEvent Unit),
    Lts.Trace OwnStep ((polled (pings 0 false)).goes () (.arriving ping)) es'
      (polled (pings 1 true)) ∧
    es'.length ≤ 15 ∧ (polled (pings 1 true) : Threads Unit).AtRest := by
  obtain ⟨es, hpolled⟩ := polled_alone (τ := Unit)
  have hcall : ClientStep (polled (pings 0 false) : Threads Unit) (.call () ping)
      ((polled (pings 0 false)).goes () (.arriving ping)) :=
    ⟨call_ping rfl, fun _ _ _ _ => rfl⟩
  obtain ⟨es', hsend⟩ := send_alone (s := (polled (pings 0 false) : Threads Unit)) (t := ())
    ping (fun h => by cases h) rfl (epfdFree_polled _) rfl rfl
  obtain ⟨hlen, hrest⟩ := calls_return ((hpolled.mono OwnStep.client).snoc hcall) hsend
  exact ⟨es', hsend, hlen, hrest fun _ _ => AtRest.not_ownStep ⟨fun _ => rfl, .inl rfl, .inl rfl⟩⟩

-- ============================================================================
-- Quitting
-- ============================================================================

theorem left_of_step (hquit : s.quitRequested = true) (hstep : Step s e s') :
    s'.quitRequested = true ∧
      (if e.looper then 1 else 0) + s'.loop.left ≤ s.loop.left := by
  cases hstep with
  | call | push | look | ask | tell | enable | quit | takeFlags =>
      exact ⟨hquit, by simp [ThreadEvent.looper, goes]⟩
  | post => exact ⟨rfl, by simp [ThreadEvent.looper]⟩
  | go hgoes =>
      refine ⟨hquit, ?_⟩
      generalize hold : s.loop = old at hgoes
      cases hgoes with
      | start | scan | refuse | check | readIn | lockSend | retry | lockM | close =>
          grind [Looper.left, Looper.rank, Looper.next, ThreadEvent.looper]
  | wake _ hwakes =>
      refine ⟨hquit, ?_⟩
      cases hwakes with
      | readable | writable | hangUp | interrupted | failed =>
          grind [Looper.left, Looper.rank, Looper.next, ThreadEvent.looper]
  | add | create | notify | notice | write | disable | remove =>
      refine ⟨hquit, ?_⟩
      grind [Looper.left, Looper.rank, Looper.next, ThreadEvent.looper]

theorem countP_le_left {es : List (ThreadEvent τ)} (hquit : s.quitRequested = true)
    (h : Lts.Trace Step s es s') :
    s'.quitRequested = true ∧ es.countP ThreadEvent.looper + s'.loop.left ≤ s.loop.left := by
  induction h with
  | nil => exact ⟨hquit, by simp⟩
  | snoc _ hstep ih =>
      obtain ⟨hquit', hle⟩ := ih
      obtain ⟨hquit', hstep⟩ := left_of_step hquit' hstep
      refine ⟨hquit', ?_⟩
      rw [List.countP_append, List.countP_singleton]
      omega

theorem left_le (place : Looper) : place.left ≤ 9 := by
  cases place with
  | _ => simp [Looper.left, Looper.rank]

/-- After `request_quit` the thread of the manager makes at most nine steps, whatever the users do,
    and it does not stop before it has left `main_loop`: when nobody gets on, the eventfd wakes
    it, if that could be added to the epoll instance. -/
theorem quit_ends_loop {es : List (ThreadEvent τ)} (h : Lts.Trace ClientStep {} es s)
    (hquit : s.quitRequested = true) :
    (∀ es' s', Lts.Trace ClientStep s es' s' → es'.countP ThreadEvent.looper ≤ 9) ∧
      ((∀ e s', ¬ OwnStep s e s') → s.pefd ≠ some false →
        s.loop = .ended ∨ ∃ s', ClientStep s .notify s') := by
  obtain ⟨hsound, hsingle, hending⟩ := ClientSound.of_trace h
  constructor
  · intro es' s' hrun
    have hle := (countP_le_left hquit (hrun.mono And.left)).2
    have hleft := left_le s.loop
    omega
  · intro hstuck hpefd
    have hrest := (at_rest_or_deadlocked hsound.managed.mgr hstuck).resolve_right
      hsingle.not_deadlocked
    refine hrest.loop.symm.imp_right fun hwaiting => ?_
    have hsome : s.pefd = some true := by
      cases hpefd' : s.pefd with
      | none =>
          rcases hending.late hpefd' with hearly | hplace | hplace
          · rw [hwaiting] at hearly
            cases hearly
          · rw [hwaiting] at hplace
            cases hplace
          · rw [hwaiting] at hplace
            cases hplace
      | some ok =>
          cases ok with
          | false => exact absurd hpefd' hpefd
          | true => rfl
    have hcount := hending.counted hquit hwaiting (by rw [hsome]; decide)
    refine ⟨_, .notify hwaiting hsome hcount, ?_⟩
    rintro t str heq
    cases heq

/-- The client is destroyed while the manager's thread is in `epoll_wait`. -/
def posted : Threads Unit :=
  { polled (pings 0 false) with quitter := .done, quitRequested := true, counter := 1 }

theorem quit_ends_loop_posted :
    (∀ es' s', Lts.Trace ClientStep posted es' s' → es'.countP ThreadEvent.looper ≤ 9) ∧
      (posted.loop = .ended ∨ ∃ s', ClientStep posted .notify s') := by
  obtain ⟨es, hpolled⟩ := polled_alone (τ := Unit)
  have hquit : ClientStep (polled (pings 0 false) : Threads Unit) .quit
      { polled (pings 0 false) with quitter := .wanting } := ⟨.quit rfl, fun _ _ h => by cases h⟩
  have hflags : ClientStep ({ polled (pings 0 false) with quitter := .wanting } : Threads Unit)
      .quitter { polled (pings 0 false) with quitter := .flagged } :=
    ⟨.takeFlags rfl, fun _ _ h => by cases h⟩
  have hpost : ClientStep ({ polled (pings 0 false) with quitter := .flagged } : Threads Unit)
      .quitter posted := ⟨.post rfl ⟨fun _ => rfl, rfl⟩, fun _ _ h => by cases h⟩
  have hrest : posted.AtRest := ⟨fun _ => rfl, .inl rfl, .inr rfl⟩
  obtain ⟨hcount, hwoken⟩ :=
    quit_ends_loop ((((hpolled.mono OwnStep.client).snoc hquit).snoc hflags).snoc hpost) rfl
  exact ⟨hcount, hwoken (fun _ _ => hrest.not_ownStep) (by decide)⟩

end Threads

end Tclm.Comm
