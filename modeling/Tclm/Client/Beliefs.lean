/-
  Tclm.Client.Beliefs

  What the threads of the client believe.

  A thread believes in a lock when its request was answered with `SUCCESS`.  Requests are
  matched to replies by their keys only; still, for every set of keys there are at most as
  many requests that were answered with `SUCCESS` as there came replies that say so
  (`believed_le_delivered`).
-/

import Mathlib.Data.Finset.Card
import Tclm.Client.Session

open Tclm.Comm

namespace Tclm.Client

-- ============================================================================
-- The tables
-- ============================================================================

namespace AccessConcentrator

variable {ac : AccessConcentrator} {r : Reply} {κ : Key} {h : Handle}

/-- A reply moves no request to another key. -/
theorem pending_of_answer (hκ : (ac.answer r).2.pending κ = some h) : ac.pending κ = some h := by
  by_cases hr : Key.ofReply r = some κ
  · rcases ac.answer_of_key hr with ⟨hnone, -⟩ | ⟨h', hh', ha⟩
    · rw [answer_none hnone] at hκ
      exact hκ
    · -- the request under the key was answered, so its place is free
      exfalso
      cases r with
      | registered | unregistered => cases hr
      | createUpdate pid path status =>
          cases hr
          simp only [pending, answer, answerCreate] at hκ ha hh'
          rw [hh'] at hκ ha
          by_cases hstatus : status ≠ ResponseStatus.queued
          · simp only [if_pos hstatus, SortedMap.lookup_erase_self] at hκ
            cases hκ
          · simp only [if_neg hstatus] at ha
            cases ha
      | acquireUpdate pid path mode status =>
          cases hr
          simp only [pending, answer, answerAcquire] at hκ ha hh'
          rw [hh'] at hκ ha
          by_cases hstatus : status ≠ ResponseStatus.queued
          · simp only [if_pos hstatus, SortedMap.lookup_erase_self] at hκ
            cases hκ
          · simp only [if_neg hstatus] at ha
            cases ha
      | released pid path mode status =>
          cases hr
          simp only [pending, answer, answerRelease] at hκ hh'
          rw [hh'] at hκ
          simp only [SortedMap.lookup_erase_self] at hκ
          cases hκ
  · rw [pending_answer_ne hr] at hκ
    exact hκ

/-- A reply adds nothing to the lists of registrations. -/
theorem mem_of_answer (ac : AccessConcentrator) (r : Reply) :
    (∀ e ∈ (ac.answer r).2.registerProcessRequests, e ∈ ac.registerProcessRequests) ∧
    ∀ e ∈ (ac.answer r).2.unregisterProcessRequests, e ∈ ac.unregisterProcessRequests := by
  cases r with
  | registered nonce status id =>
      simp only [answer, answerRegister]
      split
      · rename_i pre e post hsplit
        obtain ⟨hlist, -, -⟩ := List.splitFirst_eq_some hsplit
        refine ⟨fun x hx => ?_, fun x hx => hx⟩
        rw [hlist]
        rcases List.mem_append.mp hx with hx | hx
        · exact List.mem_append_left _ hx
        · exact List.mem_append_right _ (List.mem_cons_of_mem e hx)
      · exact ⟨fun x hx => hx, fun x hx => hx⟩
  | unregistered id status =>
      simp only [answer, answerUnregister]
      split
      · rename_i pre e post hsplit
        obtain ⟨hlist, -, -⟩ := List.splitFirst_eq_some hsplit
        refine ⟨fun x hx => hx, fun x hx => ?_⟩
        rw [hlist]
        rcases List.mem_append.mp hx with hx | hx
        · exact List.mem_append_left _ hx
        · exact List.mem_append_right _ (List.mem_cons_of_mem e hx)
      · exact ⟨fun x hx => hx, fun x hx => hx⟩
  | createUpdate pid path status =>
      simp only [answer, answerCreate]
      grind
  | acquireUpdate pid path mode status =>
      simp only [answer, answerAcquire]
      grind
  | released pid path mode status =>
      simp only [answer, answerRelease]
      grind

/-- The request that a reply answers waited under its key, or it was a registration. -/
theorem answered_from {a : Answer} (ha : (ac.answer r).1 = some a) :
    (∃ κ, Key.ofReply r = some κ ∧ ac.pending κ = some a.request ∧ a.status = statusOf r) ∨
    (∃ nonce, (nonce, a.request) ∈ ac.registerProcessRequests) ∨
    ∃ id, (id, a.request) ∈ ac.unregisterProcessRequests := by
  cases hr : Key.ofReply r with
  | some κ =>
      rcases ac.answer_of_key hr with ⟨hnone, -⟩ | ⟨h, hh, hanswer⟩
      · rw [hnone] at ha
        cases ha
      · rw [hanswer] at ha
        cases ha
        exact .inl ⟨κ, rfl, hh, rfl⟩
  | none =>
      cases r with
      | createUpdate | acquireUpdate | released => cases hr
      | registered nonce status id =>
          simp only [answer, answerRegister] at ha
          split at ha
          · rename_i pre e post hsplit
            obtain ⟨hlist, -, -⟩ := List.splitFirst_eq_some hsplit
            cases ha
            refine .inr (.inl ⟨e.1, ?_⟩)
            rw [hlist]
            exact List.mem_append_right _ List.mem_cons_self
          · cases ha
      | unregistered id status =>
          simp only [answer, answerUnregister] at ha
          split at ha
          · rename_i pre e post hsplit
            obtain ⟨hlist, -, -⟩ := List.splitFirst_eq_some hsplit
            cases ha
            refine .inr (.inr ⟨e.1, ?_⟩)
            rw [hlist]
            exact List.mem_append_right _ List.mem_cons_self
          · cases ha

end AccessConcentrator

namespace Session

variable {host : ByteOrder} {s s' : Session} {es : List Event} {e : Event}

-- ============================================================================
-- Requests and their places
-- ============================================================================

/-- The waiting requests were issued for the places they wait at. -/
structure Filed (es : List Event) (s : Session) : Prop where
  registering : ∀ x ∈ s.ac.registerProcessRequests, .issued x.2 .registerProcess ∈ es
  unregistering : ∀ x ∈ s.ac.unregisterProcessRequests, .issued x.2 (.unregisterProcess x.1) ∈ es
  keyed : ∀ κ h, s.ac.pending κ = some h → ∃ call, .issued h call ∈ es ∧ call.key = some κ
  once : ∀ h call call', .issued h call ∈ es → .issued h call' ∈ es → call = call'
  lt : ∀ h call, .issued h call ∈ es → h < s.nextHandle

theorem filed_init : Filed [] {} := by
  refine ⟨nofun, nofun, fun κ h hκ => ?_, nofun, nofun⟩
  cases κ with
  | create | acquire | release => cases hκ

theorem mem_issued_append {h : Handle} {call : Call}
    (hmem : .issued h call ∈ es ++ [e]) : .issued h call ∈ es ∨ e = .issued h call := by
  rcases List.mem_append.mp hmem with hmem | hmem
  · exact .inl hmem
  · exact .inr (List.mem_singleton.mp hmem).symm

/-- The place of a request after it was issued. -/
theorem Filed.remember (hs : Filed es s) (call : Call) :
    Filed (es ++ [.issued s.nextHandle call])
      ⟨s.ac.remember s.nextHandle call, s.nextHandle + 1⟩ := by
  have hnew : .issued s.nextHandle call ∈ es ++ [.issued s.nextHandle call] := by simp
  have hold : ∀ {x}, x ∈ es → x ∈ es ++ [.issued s.nextHandle call] :=
    fun hx => List.mem_append_left _ hx
  refine ⟨?_, ?_, ?_, ?_, ?_⟩
  · intro x hx
    cases call with
    | registerProcess =>
        rcases List.mem_append.mp hx with hx | hx
        · exact hold (hs.registering x hx)
        · rw [List.mem_singleton.mp hx]
          exact hnew
    | unregisterProcess | createLock | acquireLock | releaseLock => exact hold (hs.registering x hx)
  · intro x hx
    cases call with
    | unregisterProcess id =>
        rcases List.mem_append.mp hx with hx | hx
        · exact hold (hs.unregistering x hx)
        · rw [List.mem_singleton.mp hx]
          exact hnew
    | registerProcess | createLock | acquireLock | releaseLock => exact hold (hs.unregistering x hx)
  · intro κ h hκ
    have hkeep : s.ac.pending κ = some h → ∃ call', .issued h call' ∈ es ++ [.issued s.nextHandle call] ∧
        call'.key = some κ := by
      intro hpending
      obtain ⟨call', hissued, hkey⟩ := hs.keyed κ h hpending
      exact ⟨call', hold hissued, hkey⟩
    by_cases hkey : call.key = some κ
    · rcases s.ac.free_or_dropped s.nextHandle call with hfree | hdropped
      · have hself := AccessConcentrator.pending_remember_self (h := s.nextHandle) hfree hkey
        obtain rfl := Option.some.inj (hself.symm.trans hκ)
        exact ⟨call, hnew, hkey⟩
      · rw [hdropped] at hκ
        exact hkeep hκ
    · rw [AccessConcentrator.pending_remember_ne hkey] at hκ
      exact hkeep hκ
  · intro h c c' hc hc'
    rcases mem_issued_append hc with hc | hc <;> rcases mem_issued_append hc' with hc' | hc'
    · exact hs.once h c c' hc hc'
    · cases hc'
      exact absurd (hs.lt _ _ hc) (Nat.lt_irrefl _)
    · cases hc
      exact absurd (hs.lt _ _ hc') (Nat.lt_irrefl _)
    · cases hc
      cases hc'
      rfl
  · intro h c hc
    rcases mem_issued_append hc with hc | hc
    · exact Nat.lt_succ_of_lt (hs.lt h c hc)
    · cases hc
      exact Nat.lt_succ_self _

theorem Filed.step (hs : Filed es s) (h : Step host s e s') : Filed (es ++ [e]) s' := by
  rcases h.cases with ⟨call, rfl, rfl⟩ | ⟨reply, rfl, rfl⟩
  · exact hs.remember call
  · have hissued : ∀ {h call}, .issued h call ∈ es ++ [.received reply (s.ac.accept reply).1] ↔
        .issued h call ∈ es := by
      intro h call
      rw [List.mem_append, List.mem_singleton]
      exact ⟨fun hmem => hmem.resolve_right nofun, .inl⟩
    have hsub : (∀ x ∈ (s.ac.accept reply).2.registerProcessRequests,
          x ∈ s.ac.registerProcessRequests) ∧
        (∀ x ∈ (s.ac.accept reply).2.unregisterProcessRequests,
          x ∈ s.ac.unregisterProcessRequests) ∧
        ∀ κ h, (s.ac.accept reply).2.pending κ = some h → s.ac.pending κ = some h := by
      cases reply with
      | none => exact ⟨fun x hx => hx, fun x hx => hx, fun κ h hκ => hκ⟩
      | some r =>
          obtain ⟨hreg, hunreg⟩ := s.ac.mem_of_answer r
          exact ⟨hreg, hunreg, fun κ h hκ => AccessConcentrator.pending_of_answer hκ⟩
    refine ⟨fun x hx => hissued.mpr (hs.registering x (hsub.1 x hx)),
      fun x hx => hissued.mpr (hs.unregistering x (hsub.2.1 x hx)), fun κ h hκ => ?_,
      fun h c c' hc hc' => hs.once h c c' (hissued.mp hc) (hissued.mp hc'),
      fun h c hc => hs.lt h c (hissued.mp hc)⟩
    obtain ⟨call, hcall, hkey⟩ := hs.keyed κ h (hsub.2.2 κ h hκ)
    exact ⟨call, hissued.mpr hcall, hkey⟩

-- ============================================================================
-- Counting
-- ============================================================================

/-- The requests with a key of the set. -/
def requestsFor (K : Key → Bool) (es : List Event) : List Handle :=
  es.filterMap fun
    | .issued h call => if call.key.any K then some h else none
    | .received _ _ => none

/-- How many requests with a key of the set were answered with `SUCCESS`. -/
def believed (K : Key → Bool) (es : List Event) : Nat :=
  ((requestsFor K es).toFinset.filter fun h =>
    ∃ a ∈ answers es, a.request = h ∧ a.status = ResponseStatus.success).card

/-- The reply grants a request with a key of the set. -/
def grants (K : Key → Bool) (r : Reply) : Bool :=
  (Key.ofReply r).any K && decide (statusOf r = ResponseStatus.success)

/-- How many such replies came in. -/
def delivered (K : Key → Bool) (es : List Event) : Nat :=
  es.countP fun
    | .received (some r) _ => grants K r
    | _ => false

theorem mem_requestsFor {K : Key → Bool} {h : Handle} :
    h ∈ requestsFor K es ↔ ∃ call κ, .issued h call ∈ es ∧ call.key = some κ ∧ K κ = true := by
  rw [requestsFor, List.mem_filterMap]
  constructor
  · rintro ⟨x, hx, hh⟩
    cases x with
    | received => cases hh
    | issued h' call =>
        simp only [Option.ite_none_right_eq_some, Option.any_eq_true] at hh
        obtain ⟨⟨κ, hκ, hK⟩, hh⟩ := hh
        cases hh
        exact ⟨call, κ, hx, hκ, hK⟩
  · rintro ⟨call, κ, hx, hκ, hK⟩
    refine ⟨_, hx, ?_⟩
    simp only [hκ, Option.any_some, hK, if_true]

/-- A reply that answers a request with a key of the set with `SUCCESS` grants it. -/
theorem Filed.grants_of_answer (hs : Filed es s) {r : Reply} {a : Answer}
    (ha : (s.ac.answer r).1 = some a) {K : Key → Bool} (hmem : a.request ∈ requestsFor K es)
    (hstatus : a.status = ResponseStatus.success) : grants K r = true := by
  obtain ⟨call, κ, hissued, hkey, hK⟩ := mem_requestsFor.mp hmem
  rcases AccessConcentrator.answered_from ha with
    ⟨κ', hr, hpending, hsame⟩ | ⟨nonce, hreg⟩ | ⟨id, hunreg⟩
  · obtain ⟨call', hissued', hkey'⟩ := hs.keyed κ' a.request hpending
    obtain rfl := hs.once _ _ _ hissued hissued'
    obtain rfl := Option.some.inj (hkey.symm.trans hkey')
    simp only [grants, hr, Option.any_some, hK, ← hsame, hstatus, decide_true, Bool.and_self]
  · obtain rfl := hs.once _ _ _ hissued (hs.registering _ hreg)
    cases hkey
  · obtain rfl := hs.once _ _ _ hissued (hs.unregistering _ hunreg)
    cases hkey

/-- A request that was just issued is not answered yet. -/
theorem believed_issued (hc : Consistent es s) (call : Call) (K : Key → Bool) :
    believed K (es ++ [.issued s.nextHandle call]) ≤ believed K es := by
  have hanswers : answers (es ++ [.issued s.nextHandle call]) = answers es := by simp [answers]
  apply Finset.card_le_card
  intro h hh
  rw [Finset.mem_filter, List.mem_toFinset, hanswers] at hh
  obtain ⟨hmem, a, ha, rfl, hstatus⟩ := hh
  obtain ⟨call', κ, hissued, hkey, hK⟩ := mem_requestsFor.mp hmem
  have hlt := (hc.answered a ha).1
  rcases mem_issued_append hissued with hissued | heq
  · rw [Finset.mem_filter, List.mem_toFinset]
    exact ⟨mem_requestsFor.mpr ⟨call', κ, hissued, hkey, hK⟩, a, ha, rfl, hstatus⟩
  · rw [← (Event.issued.inj heq).1] at hlt
    exact absurd hlt (Nat.lt_irrefl _)

/-- A message makes at most the request that it answers believed. -/
theorem believed_received (reply : Option Reply) (answer : Option Answer) {K : Key → Bool} {n : Nat}
    (h : ∀ a, answer = some a → a.request ∈ requestsFor K es → a.status = ResponseStatus.success →
      n = 1) : believed K (es ++ [.received reply answer]) ≤ believed K es + n := by
  have hrequests : requestsFor K (es ++ [.received reply answer]) = requestsFor K es := by
    simp [requestsFor]
  cases answer with
  | none =>
      have hanswers : answers (es ++ [.received reply none]) = answers es := by simp [answers]
      rw [believed, hrequests, hanswers]
      exact Nat.le_add_right _ n
  | some a =>
      have hanswers : answers (es ++ [.received reply (some a)]) = answers es ++ [a] := by
        simp [answers]
      have hcases : ∀ x, (x ∈ (requestsFor K es).toFinset ∧
          ∃ b ∈ answers es ++ [a], b.request = x ∧ b.status = ResponseStatus.success) →
          (x ∈ (requestsFor K es).toFinset ∧
            ∃ b ∈ answers es, b.request = x ∧ b.status = ResponseStatus.success) ∨
          (n = 1 ∧ x = a.request) := by
        rintro x ⟨hx, b, hb, rfl, hstatus⟩
        rcases List.mem_append.mp hb with hb | hb
        · exact .inl ⟨hx, b, hb, rfl, hstatus⟩
        · obtain rfl := List.mem_singleton.mp hb
          exact .inr ⟨h b rfl (List.mem_toFinset.mp hx) hstatus, rfl⟩
      rw [believed, hrequests, hanswers]
      by_cases hn : n = 1
      · rw [hn]
        refine le_trans (Finset.card_le_card fun x hx => ?_) (Finset.card_insert_le a.request _)
        rcases hcases x (Finset.mem_filter.mp hx) with hold | ⟨-, rfl⟩
        · exact Finset.mem_insert_of_mem (Finset.mem_filter.mpr hold)
        · exact Finset.mem_insert_self _ _
      · refine le_trans (Finset.card_le_card fun x hx => ?_) (Nat.le_add_right _ n)
        rcases hcases x (Finset.mem_filter.mp hx) with hold | ⟨hone, -⟩
        · exact Finset.mem_filter.mpr hold
        · exact absurd hone hn

theorem delivered_append (K : Key → Bool) (es : List Event) (e : Event) :
    delivered K (es ++ [e]) = delivered K es + delivered K [e] := List.countP_append

/-- One step: a request is answered with `SUCCESS` only when a reply says so. -/
theorem believed_step (hs : Filed es s) (hc : Consistent es s) (h : Step host s e s')
    (K : Key → Bool) : believed K (es ++ [e]) + delivered K es ≤
      believed K es + delivered K (es ++ [e]) := by
  rw [delivered_append]
  rcases h.cases with ⟨call, rfl, rfl⟩ | ⟨reply, rfl, rfl⟩
  · have hissued := believed_issued hc call K
    omega
  · have hreceived := believed_received reply (s.ac.accept reply).1 (K := K)
      (n := delivered K [.received reply (s.ac.accept reply).1]) (by
        intro a ha hmem hstatus
        cases reply with
        | none => cases ha
        | some r =>
            rw [delivered, List.countP_singleton, if_pos (hs.grants_of_answer ha hmem hstatus)])
    omega

/-- What is believed was said. -/
theorem believed_le_delivered (hrun : Lts.Trace (Step host) {} es s) (K : Key → Bool) :
    Filed es s ∧ Consistent es s ∧ believed K es ≤ delivered K es := by
  induction hrun with
  | nil => exact ⟨filed_init, consistent_init, Nat.le_refl _⟩
  | snoc _ hstep ih =>
      obtain ⟨hfiled, hconsistent, hle⟩ := ih
      have hone := believed_step hfiled hconsistent hstep K
      exact ⟨hfiled.step hstep, hconsistent.step hstep, by omega⟩

end Session

end Tclm.Client
