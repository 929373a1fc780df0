/-
  Tclm.Comm.Attention

  Nobody looks at the send queue and at `out_enabled` together: `send` puts its stream into the
  queue under `m_send` and asks for output later, under `m` and `m_epfd`.  That is enough all
  the same.  Whatever the order of the steps and however many users there are, what is sent
  reaches the socket in order, and no message stays in the queue unnoticed
  (`nothing_forgotten`).
-/

import Tclm.Comm.Threads

open Tclm.Comm.Stream

namespace Tclm.Comm

namespace Threads

variable {τ : Type*} [DecidableEq τ] {s s' : Threads τ} {e : ThreadEvent τ}

-- ============================================================================
-- Who has which mutex
-- ============================================================================

/-- What is true of the place of a user goes on being true of the place of some user. -/
theorem exists_goes (P : Sender → Prop) {t : τ} {place : Sender} (h : ∃ t', P (s.senders t'))
    (ht : P (s.senders t) → P place) : ∃ t', P ((s.goes t place).senders t') := by
  obtain ⟨t', ht'⟩ := h
  by_cases heq : t' = t
  · subst heq
    exact ⟨t', by rw [senders_goes, if_pos rfl]; exact ht ht'⟩
  · exact ⟨t', by rw [senders_goes, if_neg heq]; exact ht'⟩

omit [DecidableEq τ] in
theorem Goes.hasEpfd {place : Looper} (h : s.Goes s.loop place) (hepfd : place.hasEpfd = true) :
    s.loop.hasEpfd = true ∨ s.EpfdFree := by
  generalize s.loop = old at h
  cases h with
  | start hfree | close hfree => exact .inr hfree
  | scan => exact .inl rfl
  | refuse => cases hepfd
  | check | readIn | lockSend | retry | lockM => grind [Looper.hasEpfd, Looper.next]

omit [DecidableEq τ] in
theorem Goes.writes {place : Looper} (h : s.Goes s.loop place) (hwrites : place.writes = true) :
    s.loop.writes = true := by
  generalize s.loop = old at h
  cases h with
  | lockSend | retry | lockM => rfl
  | start | scan | refuse | check | readIn | close => grind [Looper.writes, Looper.next]

omit [DecidableEq τ] in
theorem Goes.adding {out : Bool} (h : s.Goes s.loop (.adding out)) :
    s.sending.outEnabled = out := by
  generalize s.loop = old at h
  generalize hplace : Looper.adding out = place at h
  cases h with
  | scan => exact (Looper.adding.inj hplace).symm
  | start | refuse | check | readIn | lockSend | retry | lockM | close => grind [Looper.next]

omit [DecidableEq τ] in
theorem Goes.late {place : Looper} (h : s.Goes s.loop place) (hlate : place.early = false)
    (hrun : place ≠ .ended) : s.loop.early = false ∧ s.loop ≠ .ended := by
  generalize s.loop = old at h
  cases h with
  | start | scan | refuse => grind [Looper.early]
  | check | readIn | lockSend | retry | lockM | close => exact ⟨rfl, by intro h; cases h⟩

omit [DecidableEq τ] in
theorem Goes.emptied {place : Looper} (h : s.Goes s.loop place)
    (hplace : place = .emptied ∨ place = .disabling) :
    s.sending.sendQueue = [] ∨ s.loop = .emptied := by
  generalize s.loop = old at h
  cases h with
  | lockM => exact .inr rfl
  | start | scan | refuse | check | readIn | lockSend | retry | close => grind [Looper.next]

omit [DecidableEq τ] in
/-- At most one thread has `m_epfd`. -/
structure Exclusive (s : Threads τ) : Prop where
  senders : ∀ t t', (s.senders t).hasEpfd = true → (s.senders t').hasEpfd = true → t = t'
  loop : s.loop.hasEpfd = true → ∀ t, (s.senders t).hasEpfd = false

/-- A user only takes `m_epfd` when nobody has it. -/
theorem Exclusive.moved (h : s.Exclusive) {t : τ} {place : Sender} {c : Sending}
    (hplace : place.hasEpfd = true → (s.senders t).hasEpfd = true ∨ s.EpfdFree) :
    (s.moved t place c).Exclusive := by
  have hold : ∀ t', ((s.moved t place c).senders t').hasEpfd = true →
      (s.senders t').hasEpfd = true ∨ t' = t ∧ s.EpfdFree := by
    intro t' ht'
    by_cases heq : t' = t
    · subst heq
      rw [senders_moved] at ht'
      exact (hplace ht').imp_right fun hfree => ⟨rfl, hfree⟩
    · rw [senders_moved_of_ne heq] at ht'
      exact .inl ht'
  refine ⟨fun t₁ t₂ h₁ h₂ => ?_, fun hloop t' => ?_⟩
  · rcases hold t₁ h₁ with hold₁ | ⟨rfl, hfree⟩
    · rcases hold t₂ h₂ with hold₂ | ⟨rfl, hfree⟩
      · exact h.senders t₁ t₂ hold₁ hold₂
      · rw [hfree.senders t₁] at hold₁
        cases hold₁
    · rcases hold t₂ h₂ with hold₂ | ⟨heq, -⟩
      · rw [hfree.senders t₂] at hold₂
        cases hold₂
      · exact heq.symm
  · rw [Bool.eq_false_iff]
    intro ht'
    rcases hold t' ht' with hold | ⟨-, hfree⟩
    · exact absurd hold (by rw [h.loop hloop t']; decide)
    · exact absurd (hfree.loop.symm.trans hloop) Bool.false_ne_true

theorem Exclusive.step (h : s.Exclusive) (hmgr : s.sending.mgr ≠ none) (hstep : Step s e s') :
    s'.Exclusive := by
  cases hstep with
  | call | push | enable => exact h.moved fun hplace => (by cases hplace)
  | look =>
      refine h.moved fun hplace => ?_
      rw [Sending.look_eq hmgr] at hplace
      split at hplace
      · cases hplace
      · cases hplace
  | ask _ hfree => exact h.moved fun _ => .inr hfree
  | tell hplace => exact h.moved fun _ => .inl (by rw [hplace]; rfl)
  | go hgoes => exact ⟨h.senders, fun hloop => (hgoes.hasEpfd hloop).elim h.loop EpfdFree.senders⟩
  | wake _ hwakes =>
      refine ⟨h.senders, fun hloop => ?_⟩
      cases hwakes with
      | readable | writable | hangUp | interrupted | failed => cases hloop
  | add hplace => exact ⟨h.senders, fun _ => h.loop (by rw [hplace]; rfl)⟩
  | create | notify | notice | remove => exact ⟨h.senders, fun hloop => (by cases hloop)⟩
  | @write _ hup =>
      refine ⟨h.senders, fun hloop => ?_⟩
      dsimp only at hloop
      split at hloop
      · cases hloop
      · cases hup with
        | false | true => cases hloop
  | @disable hup =>
      refine ⟨h.senders, fun hloop => ?_⟩
      cases hup with
      | false | true => cases hloop
  | quit | takeFlags | post => exact ⟨h.senders, h.loop⟩

omit [DecidableEq τ] in
/-- The connection has its manager, which has an epoll instance once the loop runs. -/
structure Managed (s : Threads τ) : Prop where
  mgr : s.sending.mgr ≠ none
  late : s.loop.early = false → s.loop ≠ .ended → s.sending.Polls
  enabling : ∀ t, s.senders t = .enabling → s.sending.Polls

theorem Managed.moved (h : s.Managed) {t : τ} {place : Sender} {c : Sending} (hmgr : c.mgr ≠ none)
    (hpolls : s.sending.Polls → c.Polls) (hplace : place = .enabling → c.Polls) :
    (s.moved t place c).Managed where
  mgr := hmgr
  late hlate hrun := hpolls (h.late hlate hrun)
  enabling t' ht' := by
    by_cases heq : t' = t
    · subst heq
      rw [senders_moved] at ht'
      exact hplace ht'
    · rw [senders_moved_of_ne heq] at ht'
      exact hpolls (h.enabling t' ht')

omit [DecidableEq τ] in
/-- The thread of the manager is somewhere in its loop. -/
theorem Managed.polls (h : s.Managed) {place : Looper} (hplace : s.loop = place)
    (hlate : place.early = false) (hrun : place ≠ .ended) : s.sending.Polls := by
  subst hplace
  exact h.late hlate hrun

theorem Managed.step (h : s.Managed) (hstep : Step s e s') : s'.Managed := by
  cases hstep with
  | call | push | ask => exact h.moved h.mgr id fun hplace => (by cases hplace)
  | look =>
      rw [Sending.look_eq h.mgr]
      refine h.moved h.mgr id fun hplace => ?_
      split at hplace
      · cases hplace
      · cases hplace
  | tell =>
      have hpolls : s.sending.Polls → s.sending.tell.2.Polls := fun ⟨out, hout⟩ =>
        ⟨out, by rw [Sending.mgr_tell, hout]⟩
      refine h.moved (by rw [Sending.mgr_tell]; exact h.mgr) hpolls fun hplace => ?_
      rcases Sending.place_tell s.sending with ⟨-, hsome⟩ | ⟨hidle, -⟩
      · exact hpolls hsome
      · rw [hidle] at hplace
        cases hplace
  | @enable t hplace =>
      obtain ⟨old, hold⟩ := Sending.mgr_modifyOut (h.enabling t hplace) (!s.gone) true
      have hpolls : (s.sending.modifyOut (!s.gone) true).Polls := ⟨_, hold⟩
      exact h.moved hpolls.mgr_ne_none (fun _ => hpolls) fun _ => hpolls
  | go hgoes =>
      exact ⟨h.mgr, fun hlate hrun => h.late (hgoes.late hlate hrun).1 (hgoes.late hlate hrun).2,
        h.enabling⟩
  | wake hplace => exact ⟨h.mgr, fun _ _ => h.polls hplace rfl (by decide), h.enabling⟩
  | @add out =>
      have hpolls : Sending.Polls { s.sending with mgr := some (.polling out) } := ⟨out, rfl⟩
      exact ⟨hpolls.mgr_ne_none, fun _ _ => hpolls, fun _ _ => hpolls⟩
  | create hplace | notify hplace | notice hplace | remove hplace =>
      exact ⟨h.mgr, fun _ _ => h.polls hplace rfl (by decide), h.enabling⟩
  | write hplace _ hwrote =>
      obtain ⟨queue, rfl⟩ := Sending.wrote_eq hwrote
      exact ⟨h.mgr, fun _ _ => h.polls hplace rfl (by decide), h.enabling⟩
  | disable hplace hepfd hmgr =>
      obtain ⟨out, hout⟩ := h.polls hplace rfl (by decide)
      rw [hout] at hmgr
      cases hmgr
      have hpolls : (s.sending.fdDisableOut (!s.gone) (.polling out)).2.Polls := ⟨_, rfl⟩
      exact ⟨hpolls.mgr_ne_none, fun _ _ => hpolls, fun _ _ => hpolls⟩
  | quit | takeFlags | post => exact ⟨h.mgr, h.late, h.enabling⟩

omit [DecidableEq τ] in
/-- Who relies on `out_enabled`. -/
structure Enabled (s : Threads τ) : Prop where
  adding : ∀ out, s.loop = .adding out → s.sending.outEnabled = out
  enabling : ∀ t, s.senders t = .enabling → s.sending.outEnabled = true
  watched : s.Watched → s.sending.outEnabled = true
  writes : s.loop.writes = true → s.sending.outEnabled = true

/-- A user does not touch `out_enabled`. -/
theorem Enabled.moved (h : s.Enabled) {t : τ} {place : Sender} {c : Sending}
    (hout : c.outEnabled = s.sending.outEnabled) (hmgr : c.mgr = s.sending.mgr)
    (hplace : place ≠ .enabling) : (s.moved t place c).Enabled where
  adding out hloop := hout.trans (h.adding out hloop)
  enabling t' ht' := by
    by_cases heq : t' = t
    · subst heq
      rw [senders_moved] at ht'
      exact absurd ht' hplace
    · rw [senders_moved_of_ne heq] at ht'
      exact hout.trans (h.enabling t' ht')
  watched hwatched := hout.trans (h.watched ⟨hwatched.1, hmgr.symm.trans hwatched.2⟩)
  writes hwrites := hout.trans (h.writes hwrites)

omit [DecidableEq τ] in
/-- It does no harm to enable output when the connection is not being added. -/
theorem enabled_of_outEnabled (hout : s.sending.outEnabled = true)
    (hloop : s.loop.hasEpfd = false) : s.Enabled where
  adding out hplace := by
    rw [hplace] at hloop
    cases hloop
  enabling _ _ := hout
  watched _ := hout
  writes _ := hout

omit [DecidableEq τ] in
/-- When a user has `m_epfd` the thread of the manager has not got it. -/
theorem Exclusive.loop_of_user (h : s.Exclusive) {t : τ} (ht : (s.senders t).hasEpfd = true) :
    s.loop.hasEpfd = false := by
  rw [Bool.eq_false_iff]
  intro hloop
  exact absurd ht (by rw [h.loop hloop t]; decide)

theorem Enabled.step (h : s.Enabled) (hm : s.Managed) (he : s.Exclusive) (hstep : Step s e s') :
    s'.Enabled := by
  cases hstep with
  | call | push | ask => exact h.moved rfl rfl (by intro hplace; cases hplace)
  | look =>
      rw [Sending.look_eq hm.mgr]
      refine h.moved rfl rfl fun hplace => ?_
      split at hplace
      · cases hplace
      · cases hplace
  | @tell t hplace =>
      have hloop := he.loop_of_user (t := t) (by rw [hplace]; rfl)
      exact enabled_of_outEnabled (Sending.outEnabled_tell _) hloop
  | @enable t hplace =>
      have hloop := he.loop_of_user (t := t) (by rw [hplace]; rfl)
      exact enabled_of_outEnabled (h.enabling t hplace) hloop
  | go hgoes =>
      refine ⟨fun out hplace => ?_, h.enabling, h.watched, fun hw => h.writes (hgoes.writes hw)⟩
      subst hplace
      exact hgoes.adding
  | wake _ hwakes =>
      refine ⟨?_, h.enabling, h.watched, fun hw => ?_⟩
      · rintro out rfl
        cases hwakes
      · cases hwakes with
        | readable _ hout => exact h.watched (hout hw)
        | writable hout => exact h.watched hout
        | hangUp | interrupted | failed => cases hw
  | @add out hplace =>
      refine ⟨fun _ hl => (by cases hl), h.enabling, fun hw => ?_, fun hw => (by cases hw)⟩
      obtain ⟨-, hmgr⟩ := hw
      cases hmgr
      exact h.adding true hplace
  | create | notify | notice =>
      exact ⟨fun _ hl => (by cases hl), h.enabling, h.watched, fun hw => (by cases hw)⟩
  | @write _ hup _ _ hplace _ hwrote =>
      obtain ⟨queue, rfl⟩ := Sending.wrote_eq hwrote
      have hout := h.writes (by rw [hplace]; rfl)
      refine ⟨fun out hl => ?_, fun _ _ => hout, fun _ => hout, fun _ => hout⟩
      dsimp only at hl
      split at hl
      · cases hl
      · cases hup with
        | false | true => cases hl
  | @disable hup mgr hplace hfree hmgr =>
      obtain ⟨old, hold⟩ := hm.polls hplace rfl (by decide)
      rw [hold] at hmgr
      cases hmgr
      refine ⟨fun out hl => ?_, fun t ht => ?_, fun hw => ?_, fun hw => ?_⟩
      · cases hup with
        | false | true => cases hl
      · have hno := hfree.senders t
        rw [show s.senders t = .enabling from ht] at hno
        cases hno
      · -- the epoll instance was told, unless the connection is gone
        obtain ⟨hopen, hmgr⟩ := hw
        rw [show s.gone = false from hopen] at hmgr
        cases hmgr
      · cases hup with
        | false | true => cases hw
  | remove =>
      exact ⟨fun _ hl => (by cases hl), h.enabling, fun hw => (by cases hw.1),
        fun hw => (by cases hw)⟩
  | quit | takeFlags | post => exact ⟨h.adding, h.enabling, h.watched, h.writes⟩

omit [DecidableEq τ] in
/-- What is in the queue is noticed: output is enabled, or a user is about to see to it, and
    what is enabled is looked for. -/
structure Covered (s : Threads τ) : Prop where
  emptied : s.loop = .emptied ∨ s.loop = .disabling → s.sending.sendQueue = []
  waited : s.sending.sendQueue ≠ [] →
    s.sending.outEnabled = true ∨ ∃ t, (s.senders t).seeks = true
  enabled : s.sending.outEnabled = true → s.sending.Polls →
    s.gone = true ∨ s.Watched ∨ ∃ t, s.senders t = .enabling

/-- A user goes on and leaves the connection alone. -/
theorem Covered.goes (h : s.Covered) {t : τ} {place : Sender}
    (hseeks : (s.senders t).seeks = true → place.seeks = true)
    (henabling : s.senders t ≠ .enabling) : (s.goes t place).Covered where
  emptied := h.emptied
  waited hne := (h.waited hne).imp_right fun hex => exists_goes (·.seeks = true) hex hseeks
  enabled hout hmgr := (h.enabled hout hmgr).imp_right fun hex =>
    hex.imp_right fun hex => exists_goes (· = .enabling) hex fun heq => absurd heq henabling

theorem Covered.step (h : s.Covered) (hm : s.Managed) (hen : s.Enabled) (hstep : Step s e s') :
    s'.Covered := by
  cases hstep with
  | call hplace =>
      refine h.goes (fun hseeks => ?_) (by rw [hplace]; decide)
      rw [hplace] at hseeks
      cases hseeks
  | ask hplace => exact h.goes (fun _ => rfl) (by rw [hplace]; decide)
  | @push t str hplace hsend =>
      refine ⟨fun hl => ?_, fun _ => .inr ⟨t, ?_⟩, fun hout hmgr => ?_⟩
      · rcases hl with hl | hl
        · rw [show s.loop = .emptied from hl] at hsend
          cases hsend
        · rw [show s.loop = .disabling from hl] at hsend
          cases hsend
      · rw [senders_goes, if_pos rfl]
        rfl
      · exact (h.enabled hout hmgr).imp_right fun hex => hex.imp_right fun hex =>
          exists_goes (· = .enabling) hex fun heq => by rw [hplace] at heq; cases heq
  | @look t hplace =>
      rw [Sending.look_eq hm.mgr]
      refine ⟨h.emptied, fun _ => ?_, fun hout hmgr => ?_⟩
      · by_cases hout : s.sending.outEnabled = true
        · exact .inl hout
        · refine .inr ⟨t, ?_⟩
          rw [senders_goes, if_pos rfl, if_neg hout]
          rfl
      · exact (h.enabled hout hmgr).imp_right fun hex => hex.imp_right fun hex =>
          exists_goes (· = .enabling) hex fun heq => by rw [hplace] at heq; cases heq
  | @tell t hplace =>
      refine ⟨fun hl => ?_, fun _ => .inl (Sending.outEnabled_tell _), fun _ hmgr => ?_⟩
      · rw [Sending.sendQueue_tell]
        exact h.emptied hl
      · obtain ⟨out, hout⟩ := hmgr
        have hpolls : s.sending.Polls := ⟨out, (Sending.mgr_tell _).symm.trans hout⟩
        rcases Sending.place_tell s.sending with ⟨hnew, -⟩ | ⟨-, hno⟩
        · exact .inr (.inr ⟨t, by rw [senders_goes, if_pos rfl, hnew]⟩)
        · exact absurd hpolls hno
  | @enable t hplace =>
      refine ⟨h.emptied, fun hne => (h.waited hne).imp_right fun hex => ?_, fun _ _ => ?_⟩
      · exact exists_goes (·.seeks = true) hex fun hseeks => by rw [hplace] at hseeks; cases hseeks
      · obtain ⟨old, hold⟩ := Sending.mgr_modifyOut (hm.enabling t hplace) (!s.gone) true
        by_cases hgone : s.gone = true
        · exact .inl hgone
        · rw [Bool.not_eq_true] at hgone
          refine .inr (.inl ⟨hgone, hold.trans ?_⟩)
          rw [hgone]
          rfl
  | go hgoes =>
      refine ⟨fun hl => ?_, h.waited, h.enabled⟩
      exact (hgoes.emptied hl).elim id fun heq => h.emptied (.inl heq)
  | wake _ hwakes =>
      refine ⟨fun hl => ?_, h.waited, h.enabled⟩
      rcases hl with rfl | rfl
      · cases hwakes
      · cases hwakes
  | @add out hplace =>
      refine ⟨fun hl => (by rcases hl with hl | hl <;> cases hl), h.waited, fun hout _ => ?_⟩
      rw [show s.sending.outEnabled = out from hen.adding out hplace] at hout
      subst hout
      by_cases hgone : s.gone = true
      · exact .inl hgone
      · exact .inr (.inl ⟨Bool.eq_false_iff.mpr hgone, rfl⟩)
  | create | notify | notice =>
      exact ⟨fun hl => (by rcases hl with hl | hl <;> cases hl), h.waited, h.enabled⟩
  | @write _ hup _ _ hplace _ hwrote =>
      obtain ⟨queue, rfl⟩ := Sending.wrote_eq hwrote
      refine ⟨fun hl => ?_, fun _ => .inl (hen.writes (by rw [hplace]; rfl)), h.enabled⟩
      by_contra hne
      simp only [if_neg hne] at hl
      cases hup <;> rcases hl with hl | hl <;> cases hl
  | disable hplace =>
      have hnil := h.emptied (.inr hplace)
      exact ⟨fun _ => hnil, fun hne => absurd hnil hne, fun hout => by cases hout⟩
  | remove =>
      exact ⟨fun hl => (by rcases hl with hl | hl <;> cases hl), h.waited, fun _ _ => .inl rfl⟩
  | quit | takeFlags | post => exact ⟨h.emptied, h.waited, h.enabled⟩

-- ============================================================================
-- Whole runs
-- ============================================================================

/-- What holds after every step, with what got into the queue and what the socket has accepted
    until then. -/
structure Sound (es : List (ThreadEvent τ)) (s : Threads τ) : Prop where
  exclusive : s.Exclusive
  managed : s.Managed
  enabled : s.Enabled
  covered : s.Covered
  leftover : s.sending.Leftover
  arriving : ∀ t str, s.senders t = .arriving str → 0 < str.length ∧ str.length ≤ str.capacity
  bytes : es.flatMap ThreadEvent.accepted ++ s.sending.unsent = es.flatMap ThreadEvent.pushed

omit [DecidableEq τ] in
theorem sound_start : Sound [] ({} : Threads τ) where
  exclusive := ⟨fun _ _ h => (by cases h), fun h => (by cases h)⟩
  managed := ⟨fun h => (by cases h), fun h => (by cases h), fun _ h => (by cases h)⟩
  enabled := ⟨fun _ h => (by cases h), fun _ h => (by cases h), fun h => (by cases h.2),
    fun h => (by cases h)⟩
  covered := ⟨fun _ => rfl, fun h => absurd rfl h, fun h => (by cases h)⟩
  leftover := fun _ h => (by cases h)
  arriving := fun _ _ h => (by cases h)
  bytes := rfl

/-- A user brings a stream with something in it. -/
theorem Sound.arriving_step {es : List (ThreadEvent τ)} (h : Sound es s) (hstep : Step s e s') :
    ∀ t str, s'.senders t = .arriving str → 0 < str.length ∧ str.length ≤ str.capacity := by
  have hmoved : ∀ {t : τ} {place : Sender} {c : Sending},
      (∀ str, place = .arriving str → 0 < str.length ∧ str.length ≤ str.capacity) →
      ∀ t' str, (s.moved t place c).senders t' = .arriving str →
        0 < str.length ∧ str.length ≤ str.capacity := by
    intro t place c hplace t' str ht'
    by_cases heq : t' = t
    · subst heq
      rw [senders_moved] at ht'
      exact hplace str ht'
    · rw [senders_moved_of_ne heq] at ht'
      exact h.arriving t' str ht'
  cases hstep with
  | call _ hne hcap =>
      refine hmoved (c := s.sending) fun str hplace => ?_
      cases hplace
      exact ⟨hne, hcap⟩
  | push | ask | enable => exact hmoved fun _ hplace => (by cases hplace)
  | look =>
      rw [Sending.look_eq h.managed.mgr]
      refine hmoved fun str hplace => ?_
      split at hplace
      · cases hplace
      · cases hplace
  | tell =>
      refine hmoved fun str hplace => ?_
      rcases Sending.place_tell s.sending with ⟨hnew, -⟩ | ⟨hnew, -⟩
      · rw [hnew] at hplace
        cases hplace
      · rw [hnew] at hplace
        cases hplace
  | go | wake | add | create | notify | notice | write | disable | remove | quit | takeFlags
  | post => exact h.arriving

/-- Streams and bytes are only moved by `push` and `write`. -/
theorem Sound.queue_step {es : List (ThreadEvent τ)} (h : Sound es s) (hstep : Step s e s') :
    s'.sending.Leftover ∧ e.accepted ++ s'.sending.unsent = s.sending.unsent ++ e.pushed := by
  have hsame : s'.sending.sendQueue = s.sending.sendQueue → e.accepted = [] → e.pushed = [] →
      s'.sending.Leftover ∧ e.accepted ++ s'.sending.unsent = s.sending.unsent ++ e.pushed := by
    intro hqueue haccepted hpushed
    rw [Sending.Leftover, Sending.unsent, hqueue, haccepted, hpushed, List.append_nil]
    exact ⟨h.leftover, rfl⟩
  cases hstep with
  | @push t str hplace =>
      obtain ⟨hne, hcap⟩ := h.arriving t str hplace
      exact h.leftover.push hne hcap
  | write _ _ hwrote =>
      obtain ⟨hleft, hunsent⟩ := h.leftover.wrote hwrote
      exact ⟨hleft, hunsent.trans (List.append_nil _).symm⟩
  | look => exact hsame (by rw [Sending.look_eq h.managed.mgr]) rfl rfl
  | tell => exact hsame (Sending.sendQueue_tell _) rfl rfl
  | call | ask | enable | go | wake | add | create | notify | notice | disable | remove | quit
  | takeFlags | post => exact hsame rfl rfl rfl

theorem Sound.step {es : List (ThreadEvent τ)} (h : Sound es s) (hstep : Step s e s') :
    Sound (es ++ [e]) s' := by
  obtain ⟨hleft, hbytes⟩ := h.queue_step hstep
  refine ⟨h.exclusive.step h.managed.mgr hstep, h.managed.step hstep,
    h.enabled.step h.managed h.exclusive hstep, h.covered.step h.managed h.enabled hstep, hleft,
    h.arriving_step hstep, ?_⟩
  rw [List.flatMap_append, List.flatMap_append, List.flatMap_singleton, List.flatMap_singleton,
    List.append_assoc, hbytes, ← List.append_assoc, h.bytes]

theorem Sound.of_trace {es : List (ThreadEvent τ)} (h : Lts.Trace Step {} es s) : Sound es s :=
  h.invariant_log Sound sound_start fun hsound hstep => hsound.step hstep

/-- What users send reaches the socket whole and in the order in which it got into the queue, and
    nothing is forgotten: when the users have returned and the manager's thread waits for events
    of an open connection, it waits for `EPOLLOUT` if something is left to be written. -/
theorem nothing_forgotten {es : List (ThreadEvent τ)} (h : Lts.Trace Step {} es s) :
    es.flatMap ThreadEvent.accepted ++ s.sending.unsent = es.flatMap ThreadEvent.pushed ∧
      ((∀ t, s.senders t = .idle) → s.loop = .waiting → s.gone = false →
        s.sending.unsent ≠ [] → s.Watched) := by
  have hsound := Sound.of_trace h
  refine ⟨hsound.bytes, fun hidle hloop hopen hunsent => ?_⟩
  have hqueue : s.sending.sendQueue ≠ [] := fun hnil =>
    hunsent (hsound.leftover.unsent_eq_nil.mpr hnil)
  have hout : s.sending.outEnabled = true := by
    rcases hsound.covered.waited hqueue with hout | ⟨t, ht⟩
    · exact hout
    · rw [hidle t] at ht
      cases ht
  have hmgr := hsound.managed.late (by rw [hloop]; rfl) (by rw [hloop]; decide)
  rcases hsound.covered.enabled hout hmgr with hgone | hwatched | ⟨t, ht⟩
  · rw [hopen] at hgone
    cases hgone
  · exact hwatched
  · rw [hidle t] at ht
    cases ht

/-- The first of two messages has been written. -/
theorem nothing_forgotten_pings : ∃ es : List (ThreadEvent Bool),
    es.flatMap ThreadEvent.accepted ++ (pings 1 true).unsent = es.flatMap ThreadEvent.pushed ∧
      Watched (polled (pings 1 true) : Threads Bool) := by
  obtain ⟨es₀, hpolled⟩ := polled_alone (τ := Bool)
  obtain ⟨es₁, hfirst⟩ := send_alone (s := polled (pings 0 false)) (t := false) ping
    (fun h => by cases h) rfl (epfdFree_polled _) rfl rfl
  obtain ⟨es₂, hsecond⟩ := send_alone (s := polled (pings 1 true)) (t := true) ping
    (fun h => by cases h) rfl (epfdFree_polled _) rfl rfl
  have hsent := ((((hpolled.mono And.left).snoc (call_ping (t := false) rfl)).append
    (hfirst.mono And.left)).snoc (call_ping (t := true) rfl)).append (hsecond.mono And.left)
  -- the socket has room for one byte
  have hwake : Step (polled (pings 2 true) : Threads Bool) .wake
      ((polled (pings 2 true)).turned .writable (pings 2 true)) := .wake rfl (.writable ⟨rfl, rfl⟩)
  have hfree := epfdFree_turned (epfdFree_polled (τ := Bool) (pings 2 true))
    (show Looper.writable.hasEpfd = false from rfl) (pings 2 true)
  obtain ⟨es₃, hout, -⟩ := dataOut_alone (c := pings 1 true) rfl hfree (mayAnswer_pings 1) rfl false
  have hcheck : Step ((polled (pings 2 true) : Threads Bool).turned .checking (pings 1 true)) .loop
      (polled (pings 1 true)) := .go (.check rfl)
  have hrun := ((hsent.snoc hwake).append (hout.mono And.left)).snoc hcheck
  obtain ⟨hbytes, hwatched⟩ := nothing_forgotten hrun
  exact ⟨_, hbytes, hwatched (fun _ => rfl) rfl rfl (by decide)⟩

end Threads

end Tclm.Comm
