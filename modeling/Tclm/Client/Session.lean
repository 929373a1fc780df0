/-
  Tclm.Client.Session

  Runs of the client: threads issue requests, and messages of the server come in, in any
  order.

  A request object is used once; `nextHandle` numbers them.  The log of a run says which
  requests were issued and which replies came in with what they answered.

  The tables for creating, acquiring and releasing locks have one place for each key.  A
  request whose key is taken is dropped when it is issued, and never answered
  (`second_request_lost`).  As long as no key is taken, no reply is lost
  (`no_reply_lost`).
-/

import Mathlib.Algebra.Order.Group.Multiset
import Mathlib.Tactic.Abel
import Tclm.Lib.Trace
import Tclm.Client.AccessConcentrator

open Tclm.Comm
open Tclm.Comm.Stream

namespace Tclm.Client

-- ============================================================================
-- The tables
-- ============================================================================

/-- What a reply has in common with the request it answers. -/
inductive Key where
  | create (pid : UInt32) (path : List UInt8)
  | acquire (pid : UInt32) (path : List UInt8) (mode : UInt8)
  | release (pid : UInt32) (path : List UInt8) (mode : UInt8)
deriving DecidableEq, Repr

/-- The key of a request for a lock. -/
def Call.key : Call → Option Key
  | .createLock pid path _ => some (.create pid path)
  | .acquireLock pid path mode => some (.acquire pid path mode)
  | .releaseLock pid path mode => some (.release pid path mode)
  | _ => none

/-- The key that a reply names. -/
def Key.ofReply : Reply → Option Key
  | .createUpdate pid path _ => some (.create pid path)
  | .acquireUpdate pid path mode _ => some (.acquire pid path mode)
  | .released pid path mode _ => some (.release pid path mode)
  | _ => none

/-- The status that a reply names. -/
def statusOf : Reply → UInt16
  | .registered _ status _ | .unregistered _ status | .createUpdate _ _ status
  | .acquireUpdate _ _ _ status | .released _ _ _ status => status

theorem createKey_inj {pid pid' : UInt32} {path path' : List UInt8}
    (h : createKey pid path = createKey pid' path') : pid = pid' ∧ path = path' := by
  have hpair := congrArg ofLex h
  exact ⟨congrArg Prod.fst hpair, congrArg Prod.snd hpair⟩

theorem modeKey_inj {pid pid' : UInt32} {path path' : List UInt8} {mode mode' : UInt8}
    (h : modeKey pid path mode = modeKey pid' path' mode') :
    pid = pid' ∧ path = path' ∧ mode = mode' := by
  have hpair := congrArg ofLex h
  have hrest := congrArg (fun x => ofLex (Prod.snd x)) hpair
  exact ⟨congrArg Prod.fst hpair, congrArg Prod.fst hrest, congrArg Prod.snd hrest⟩

/-- The values of a map. -/
def values {κ : Type} [LinearOrder κ] (m : SortedMap κ Handle) : Multiset Handle :=
  (m.entries.map Prod.snd : List Handle)

section Values

variable {κ : Type} [LinearOrder κ] {m : SortedMap κ Handle} {k : κ} {h : Handle}

theorem values_insert (hm : m.lookup k = none) : values (m.insert (k, h)) = h ::ₘ values m := by
  have hperm := (SortedList.insert_perm (a := (k, h)) (SortedMap.lookup_eq_none.mp hm)).map Prod.snd
  exact Multiset.coe_eq_coe.mpr hperm

theorem values_erase (hm : m.lookup k = some h) : values m = h ::ₘ values (m.erase k) := by
  have hperm := (SortedList.erase_perm (SortedMap.lookup_eq_some.mp hm)).map Prod.snd
  exact Multiset.coe_eq_coe.mpr hperm

theorem insert_of_lookup {h' : Handle} (hm : m.lookup k = some h') : m.insert (k, h) = m :=
  SortedList.insert_of_key (SortedMap.lookup_eq_some.mp hm) rfl

end Values

namespace AccessConcentrator

/-- The request that waits under a key. -/
def pending (ac : AccessConcentrator) : Key → Option Handle
  | .create pid path => ac.createLockRequests.lookup (createKey pid path)
  | .acquire pid path mode => ac.acquireLockRequests.lookup (modeKey pid path mode)
  | .release pid path mode => ac.releaseLockRequests.lookup (modeKey pid path mode)

/-- All requests that wait. -/
def waiting (ac : AccessConcentrator) : Multiset Handle :=
  (ac.registerProcessRequests.map Prod.snd : List Handle) +
  (ac.unregisterProcessRequests.map Prod.snd : List Handle) +
  values ac.createLockRequests + values ac.acquireLockRequests + values ac.releaseLockRequests

variable {ac : AccessConcentrator} {h : Handle} {call : Call} {κ : Key}

/-- A request that is issued finds its key free. -/
def Free (ac : AccessConcentrator) (call : Call) : Prop :=
  ∀ κ, call.key = some κ → ac.pending κ = none

/-- A request whose key is taken is dropped. -/
theorem free_or_dropped (ac : AccessConcentrator) (h : Handle) (call : Call) :
    ac.Free call ∨ ac.remember h call = ac := by
  have hmap : ∀ {κ : Key}, call.key = some κ →
      (ac.pending κ ≠ none → ac.remember h call = ac) → ac.Free call ∨ ac.remember h call = ac := by
    intro κ hκ htaken
    by_cases hnone : ac.pending κ = none
    · refine .inl fun κ' hκ' => ?_
      obtain rfl := Option.some.inj (hκ.symm.trans hκ')
      exact hnone
    · exact .inr (htaken hnone)
  cases call with
  | registerProcess | unregisterProcess => exact .inl nofun
  | createLock | acquireLock | releaseLock =>
      refine hmap rfl fun htaken => ?_
      obtain ⟨h', hm⟩ := Option.ne_none_iff_exists'.mp htaken
      simp only [remember, insert_of_lookup hm]

/-- A new request that is not dropped waits. -/
theorem waiting_remember (hfree : ac.Free call) :
    (ac.remember h call).waiting = h ::ₘ ac.waiting := by
  cases call with
  | registerProcess | unregisterProcess =>
      simp only [waiting, remember, List.map_append, List.map_singleton, ← Multiset.coe_add,
        Multiset.coe_singleton, ← Multiset.singleton_add]
      abel
  | createLock | acquireLock | releaseLock =>
      simp only [waiting, remember, values_insert (hfree _ rfl), ← Multiset.singleton_add]
      abel

/-- Under the other keys the same requests wait. -/
theorem pending_remember_ne (hκ : call.key ≠ some κ) :
    (ac.remember h call).pending κ = ac.pending κ := by
  rcases free_or_dropped ac h call with hfree | hdropped
  · cases call with
    | registerProcess | unregisterProcess =>
        cases κ with
        | create | acquire | release => rfl
    | createLock pid path acquireX =>
        cases κ with
        | acquire | release => rfl
        | create pid' path' =>
            refine SortedMap.lookup_insert_ne (hfree _ rfl) fun heq => hκ ?_
            obtain ⟨rfl, rfl⟩ := createKey_inj heq
            rfl
    | acquireLock pid path mode =>
        cases κ with
        | create | release => rfl
        | acquire pid' path' mode' =>
            refine SortedMap.lookup_insert_ne (hfree _ rfl) fun heq => hκ ?_
            obtain ⟨rfl, rfl, rfl⟩ := modeKey_inj heq
            rfl
    | releaseLock pid path mode =>
        cases κ with
        | create | acquire => rfl
        | release pid' path' mode' =>
            refine SortedMap.lookup_insert_ne (hfree _ rfl) fun heq => hκ ?_
            obtain ⟨rfl, rfl, rfl⟩ := modeKey_inj heq
            rfl
  · rw [hdropped]

/-- A request that finds its key free waits under it. -/
theorem pending_remember_self (hfree : ac.Free call) (hκ : call.key = some κ) :
    (ac.remember h call).pending κ = some h := by
  have hnone := hfree κ hκ
  cases call with
  | registerProcess | unregisterProcess => cases hκ
  | createLock | acquireLock | releaseLock =>
      cases hκ
      exact SortedMap.lookup_insert_self hnone

/-- A message answers at most one request, and takes it out of its table. -/
theorem waiting_answer {r : Reply} {a : Answer} (ha : (ac.answer r).1 = some a) :
    ac.waiting = a.request ::ₘ (ac.answer r).2.waiting := by
  cases r with
  | registered nonce status id =>
      simp only [answer, answerRegister] at ha ⊢
      split at ha
      · rename_i pre e post hsplit
        obtain ⟨hlist, -, -⟩ := List.splitFirst_eq_some hsplit
        cases ha
        simp only [waiting, hlist, List.map_append, List.map_cons, ← Multiset.coe_add,
          ← Multiset.cons_coe, ← Multiset.singleton_add]
        abel
      · cases ha
  | unregistered id status =>
      simp only [answer, answerUnregister] at ha ⊢
      split at ha
      · rename_i pre e post hsplit
        obtain ⟨hlist, -, -⟩ := List.splitFirst_eq_some hsplit
        cases ha
        simp only [waiting, hlist, List.map_append, List.map_cons, ← Multiset.coe_add,
          ← Multiset.cons_coe, ← Multiset.singleton_add]
        abel
      · cases ha
  | createUpdate pid path status =>
      simp only [answer, answerCreate] at ha ⊢
      split at ha
      · rename_i h hm
        split at ha
        · rename_i hstatus
          cases ha
          simp only [if_pos hstatus, waiting]
          rw [values_erase hm]
          simp only [← Multiset.singleton_add]
          abel
        · cases ha
      · cases ha
  | acquireUpdate pid path mode status =>
      simp only [answer, answerAcquire] at ha ⊢
      split at ha
      · rename_i h hm
        split at ha
        · rename_i hstatus
          cases ha
          simp only [if_pos hstatus, waiting]
          rw [values_erase hm]
          simp only [← Multiset.singleton_add]
          abel
        · cases ha
      · cases ha
  | released pid path mode status =>
      simp only [answer, answerRelease] at ha ⊢
      split at ha
      · rename_i h hm
        cases ha
        simp only [waiting]
        rw [values_erase hm]
        simp only [← Multiset.singleton_add]
        abel
      · cases ha

/-- A message that answers nothing changes nothing. -/
theorem answer_none {r : Reply} (ha : (ac.answer r).1 = none) : (ac.answer r).2 = ac := by
  cases r with
  | registered nonce status id =>
      simp only [answer, answerRegister] at ha ⊢
      split at ha
      · cases ha
      · rfl
  | unregistered id status =>
      simp only [answer, answerUnregister] at ha ⊢
      split at ha
      · cases ha
      · rfl
  | createUpdate pid path status =>
      simp only [answer, answerCreate] at ha ⊢
      grind
  | acquireUpdate pid path mode status =>
      simp only [answer, answerAcquire] at ha ⊢
      grind
  | released pid path mode status =>
      simp only [answer, answerRelease] at ha ⊢
      grind

/-- So a message takes one request out of the tables, or leaves them alone. -/
theorem accept_cases (ac : AccessConcentrator) (reply : Option Reply) :
    ((ac.accept reply).1 = none ∧ (ac.accept reply).2 = ac) ∨
    ∃ a, (ac.accept reply).1 = some a ∧ ac.waiting = a.request ::ₘ (ac.accept reply).2.waiting := by
  cases reply with
  | none => exact .inl ⟨rfl, rfl⟩
  | some r =>
      cases ha : (ac.answer r).1 with
      | none => exact .inl ⟨ha, answer_none ha⟩
      | some a => exact .inr ⟨a, ha, waiting_answer ha⟩

/-- A reply for a lock answers the request under its key.  Only a status that is not final, or
    a key without a request, keeps it from doing so. -/
theorem answer_of_key (ac : AccessConcentrator) {r : Reply} (hκ : Key.ofReply r = some κ) :
    ((ac.answer r).1 = none ∧ (statusOf r = ResponseStatus.queued ∨ ac.pending κ = none)) ∨
    ∃ h, ac.pending κ = some h ∧ (ac.answer r).1 = some ⟨h, statusOf r, none⟩ := by
  cases r with
  | registered | unregistered => cases hκ
  | createUpdate pid path status =>
      cases hκ
      simp only [answer, answerCreate, pending, statusOf]
      grind
  | acquireUpdate pid path mode status =>
      cases hκ
      simp only [answer, answerAcquire, pending, statusOf]
      grind
  | released pid path mode status =>
      cases hκ
      simp only [answer, answerRelease, pending, statusOf]
      grind

/-- A reply leaves the requests under other keys alone. -/
theorem pending_answer_ne {r : Reply} (hκ : Key.ofReply r ≠ some κ) :
    (ac.answer r).2.pending κ = ac.pending κ := by
  cases r with
  | registered nonce status id =>
      simp only [answer, answerRegister]
      split
      · cases κ with
        | create | acquire | release => rfl
      · rfl
  | unregistered id status =>
      simp only [answer, answerUnregister]
      split
      · cases κ with
        | create | acquire | release => rfl
      · rfl
  | createUpdate pid path status =>
      simp only [answer, answerCreate]
      split
      · split
        · cases κ with
          | acquire | release => rfl
          | create pid' path' =>
              refine SortedMap.lookup_erase_ne fun heq => hκ ?_
              obtain ⟨rfl, rfl⟩ := createKey_inj heq
              rfl
        · rfl
      · rfl
  | acquireUpdate pid path mode status =>
      simp only [answer, answerAcquire]
      split
      · split
        · cases κ with
          | create | release => rfl
          | acquire pid' path' mode' =>
              refine SortedMap.lookup_erase_ne fun heq => hκ ?_
              obtain ⟨rfl, rfl, rfl⟩ := modeKey_inj heq
              rfl
        · rfl
      · rfl
  | released pid path mode status =>
      simp only [answer, answerRelease]
      split
      · cases κ with
        | create | acquire => rfl
        | release pid' path' mode' =>
            refine SortedMap.lookup_erase_ne fun heq => hκ ?_
            obtain ⟨rfl, rfl, rfl⟩ := modeKey_inj heq
            rfl
      · rfl

end AccessConcentrator

-- ============================================================================
-- Runs
-- ============================================================================

/-- The client, and the number of the next request object. -/
structure Session where
  ac : AccessConcentrator := {}
  nextHandle : Handle := 0

/-- What happens at the client. -/
inductive Event where
  | issued (h : Handle) (call : Call)
  | received (reply : Option Reply) (answer : Option Answer)

/-- The event is a reply with a key and a final status. -/
def Event.finalFor (κ : Key) : Event → Bool
  | .received (some r) _ =>
      decide (Key.ofReply r = some κ ∧ statusOf r ≠ ResponseStatus.queued)
  | _ => false

namespace Session

/-- A thread issues a request, or a message comes in. -/
inductive Step (host : ByteOrder) : Session → Event → Session → Prop
  | issue {s : Session} {heap : Heap} {call : Call} {out : Option Stream} {ac : AccessConcentrator} :
      s.ac.issue host heap s.nextHandle call = .ok (out, ac) →
      Step host s (.issued s.nextHandle call) ⟨ac, s.nextHandle + 1⟩
  | receive {s : Session} {input input' : Stream} {reply : Option Reply} {answer : Option Answer}
      {ac : AccessConcentrator} :
      (decode host).run' input = .ok reply →
      receiveMessageTcpInternal host s.ac input = .ok ((answer, ac), input') →
      Step host s (.received reply answer) ⟨ac, s.nextHandle⟩

/-- Whether the message can be sent or not, the request is remembered. -/
theorem issue_remembers {host : ByteOrder} {heap : Heap} {h : Handle} {ac ac' : AccessConcentrator}
    {call : Call} {out : Option Stream} (hissue : ac.issue host heap h call = .ok (out, ac')) :
    ac' = ac.remember h call := by
  cases call with
  | registerProcess | unregisterProcess | createLock | acquireLock | releaseLock =>
      obtain ⟨s, -, hpure⟩ := bind_eq_ok.mp hissue
      cases hpure
      rfl

variable {host : ByteOrder} {s s' : Session} {e : Event}

/-- What a step does. -/
theorem Step.cases (h : Step host s e s') :
    (∃ call, e = .issued s.nextHandle call ∧
      s' = ⟨s.ac.remember s.nextHandle call, s.nextHandle + 1⟩) ∨
    (∃ reply, e = .received reply (s.ac.accept reply).1 ∧
      s' = ⟨(s.ac.accept reply).2, s.nextHandle⟩) := by
  cases h with
  | issue hissue =>
      rw [issue_remembers hissue]
      exact .inl ⟨_, rfl, rfl⟩
  | @receive input input' reply answer ac hdecode hreceive =>
      have haccept : s.ac.accept reply = (answer, ac) := by
        rw [receiveMessageTcpInternal_eq] at hreceive
        obtain ⟨⟨reply', input''⟩, hrun, hpure⟩ := bind_eq_ok.mp hreceive
        have hreply : (decode host).run' input = .ok reply' := by
          show ((fun x => x.1) <$> decode host input) = _
          rw [hrun]
          rfl
        rw [hreply] at hdecode
        cases hdecode
        exact congrArg Prod.fst (Except.ok.inj hpure)
      refine .inr ⟨reply, ?_, ?_⟩
      · rw [haccept]
      · rw [haccept]

/-- The requests with a key that were issued. -/
def issuedWith (κ : Key) (es : List Event) : List Handle :=
  es.filterMap fun
    | .issued h call => if call.key = some κ then some h else none
    | .received _ _ => none

/-- The answers that were given. -/
def answers (es : List Event) : List Answer :=
  es.filterMap fun
    | .issued _ _ => none
    | .received _ answer => answer

/-- The number of final replies for a key. -/
def finalReplies (κ : Key) (es : List Event) : Nat := es.countP (Event.finalFor κ)

/-- What holds of a client in any run. -/
structure Consistent (es : List Event) (s : Session) : Prop where
  nodup : s.ac.waiting.Nodup
  lt : ∀ h ∈ s.ac.waiting, h < s.nextHandle
  answered : ∀ a ∈ answers es, a.request < s.nextHandle ∧ a.request ∉ s.ac.waiting

theorem consistent_init : Consistent [] {} :=
  ⟨Multiset.nodup_zero, nofun, nofun⟩

theorem Consistent.step {es : List Event} (hs : Consistent es s) (h : Step host s e s') :
    Consistent (es ++ [e]) s' := by
  rcases h.cases with ⟨call, rfl, rfl⟩ | ⟨reply, rfl, rfl⟩
  · have hanswers : answers (es ++ [.issued s.nextHandle call]) = answers es := by
      simp [answers]
    rcases s.ac.free_or_dropped s.nextHandle call with hfree | hdropped
    · have hwaiting := AccessConcentrator.waiting_remember (h := s.nextHandle) hfree
      refine ⟨?_, ?_, ?_⟩
      · rw [hwaiting]
        exact Multiset.nodup_cons.mpr ⟨fun hmem => Nat.lt_irrefl _ (hs.lt _ hmem), hs.nodup⟩
      · intro h hmem
        rw [hwaiting] at hmem
        rcases Multiset.mem_cons.mp hmem with rfl | hmem
        · exact Nat.lt_succ_self _
        · exact Nat.lt_succ_of_lt (hs.lt h hmem)
      · rw [hanswers]
        intro a ha
        obtain ⟨hlt, hnot⟩ := hs.answered a ha
        refine ⟨Nat.lt_succ_of_lt hlt, ?_⟩
        rw [hwaiting]
        intro hmem
        rcases Multiset.mem_cons.mp hmem with heq | hmem
        · exact Nat.lt_irrefl _ (heq ▸ hlt)
        · exact hnot hmem
    · rw [hdropped]
      refine ⟨hs.nodup, fun h hmem => Nat.lt_succ_of_lt (hs.lt h hmem), ?_⟩
      rw [hanswers]
      exact fun a ha => ⟨Nat.lt_succ_of_lt (hs.answered a ha).1, (hs.answered a ha).2⟩
  · have hlog : ∀ a ∈ answers (es ++ [.received reply (s.ac.accept reply).1]),
        a ∈ answers es ∨ (s.ac.accept reply).1 = some a := by
      intro a ha
      rw [answers, List.filterMap_append, List.mem_append] at ha
      rcases ha with ha | ha
      · exact .inl ha
      · obtain ⟨e, he, ha⟩ := List.mem_filterMap.mp ha
        obtain rfl := List.mem_singleton.mp he
        exact .inr ha
    rcases s.ac.accept_cases reply with ⟨hanswer, hsame⟩ | ⟨a, hanswer, hwaiting⟩
    · rw [hanswer] at hlog ⊢
      rw [hsame]
      refine ⟨hs.nodup, hs.lt, fun a ha => ?_⟩
      rcases hlog a ha with ha | ha
      · exact hs.answered a ha
      · cases ha
    · have hnodup := hs.nodup
      rw [hwaiting] at hnodup
      obtain ⟨hnot, hnodup⟩ := Multiset.nodup_cons.mp hnodup
      have hsub : ∀ h ∈ (s.ac.accept reply).2.waiting, h ∈ s.ac.waiting := by
        intro h hmem
        rw [hwaiting]
        exact Multiset.mem_cons_of_mem hmem
      rw [hanswer] at hlog ⊢
      refine ⟨hnodup, fun h hmem => hs.lt h (hsub h hmem), fun a' ha' => ?_⟩
      rcases hlog a' ha' with ha' | ha'
      · exact ⟨(hs.answered a' ha').1, fun hmem => (hs.answered a' ha').2 (hsub _ hmem)⟩
      · cases ha'
        refine ⟨hs.lt _ ?_, hnot⟩
        rw [hwaiting]
        exact Multiset.mem_cons_self _ _

/-- The request issued in a step finds its key free. -/
def KeyFree (s : Session) : Event → Prop
  | .issued _ call => s.ac.Free call
  | .received _ _ => True

/-- A step whose request finds its key free. -/
def FreeStep (host : ByteOrder) (s : Session) (e : Event) (s' : Session) : Prop :=
  s.KeyFree e ∧ Step host s e s'

/-- Every request for a lock is answered, or waits under its key. -/
def NoneDropped (es : List Event) (s : Session) : Prop :=
  ∀ κ, ∀ h ∈ issuedWith κ es,
    h ∈ (answers es).map Answer.request ∨ s.ac.pending κ = some h

theorem NoneDropped.step {es : List Event} (hs : NoneDropped es s) (h : FreeStep host s e s') :
    NoneDropped (es ++ [e]) s' := by
  obtain ⟨hfree, hstep⟩ := h
  intro κ h hissued
  rw [issuedWith, List.filterMap_append, List.mem_append] at hissued
  have hkeep : h ∈ (answers es).map Answer.request →
      h ∈ (answers (es ++ [e])).map Answer.request := by
    intro hmem
    rw [answers, List.filterMap_append, List.map_append]
    exact List.mem_append_left _ hmem
  rcases hstep.cases with ⟨call, rfl, rfl⟩ | ⟨reply, rfl, rfl⟩
  · rcases hissued with hissued | hissued
    · refine (hs κ h hissued).imp hkeep fun hpending => ?_
      show (s.ac.remember s.nextHandle call).pending κ = some h
      by_cases hκ : call.key = some κ
      · have hnone : s.ac.pending κ = none := hfree κ hκ
        rw [hnone] at hpending
        cases hpending
      · rw [AccessConcentrator.pending_remember_ne hκ]
        exact hpending
    · -- the request that was just issued
      obtain ⟨e, he, hissued⟩ := List.mem_filterMap.mp hissued
      obtain rfl := List.mem_singleton.mp he
      obtain ⟨hκ, hh⟩ : call.key = some κ ∧ s.nextHandle = h := by
        simpa using hissued
      subst hh
      exact .inr (AccessConcentrator.pending_remember_self hfree hκ)
  · have hissued : h ∈ issuedWith κ es := by
      rcases hissued with hissued | hissued
      · exact hissued
      · obtain ⟨e, he, hissued⟩ := List.mem_filterMap.mp hissued
        obtain rfl := List.mem_singleton.mp he
        cases hissued
    rcases hs κ h hissued with hanswered | hpending
    · exact .inl (hkeep hanswered)
    · cases reply with
      | none => exact .inr hpending
      | some r =>
          by_cases hκ : Key.ofReply r = some κ
          · rcases s.ac.answer_of_key hκ with ⟨hnone, -⟩ | ⟨h', hh', ha⟩
            · right
              show (s.ac.answer r).2.pending κ = some h
              rw [AccessConcentrator.answer_none hnone]
              exact hpending
            · left
              obtain rfl := Option.some.inj (hh'.symm.trans hpending)
              rw [answers, List.filterMap_append, List.map_append]
              refine List.mem_append_right _ ?_
              show h' ∈ ([Event.received (some r) (s.ac.answer r).1].filterMap _).map _
              rw [ha]
              exact List.mem_singleton.mpr rfl
          · right
            show (s.ac.answer r).2.pending κ = some h
            rw [AccessConcentrator.pending_answer_ne hκ]
            exact hpending

/-- A final reply answers the request that waits under its key. -/
theorem NoneDropped.answered {es : List Event} {κ : Key} {h : Handle} (hs : NoneDropped es s)
    (hissued : h ∈ issuedWith κ es) (hstep : Step host s e s') (hfinal : e.finalFor κ = true) :
    h ∈ (answers (es ++ [e])).map Answer.request := by
  rw [answers, List.filterMap_append, List.map_append]
  rcases hs κ h hissued with hanswered | hpending
  · exact List.mem_append_left _ hanswered
  · refine List.mem_append_right _ ?_
    rcases hstep.cases with ⟨call, rfl, rfl⟩ | ⟨reply, rfl, rfl⟩
    · cases hfinal
    · cases reply with
      | none => cases hfinal
      | some r =>
          obtain ⟨hκ, hstatus⟩ := of_decide_eq_true hfinal
          rcases s.ac.answer_of_key hκ with ⟨-, hqueued | hnone⟩ | ⟨h', hh', ha⟩
          · exact absurd hqueued hstatus
          · rw [hnone] at hpending
            cases hpending
          · obtain rfl := Option.some.inj (hh'.symm.trans hpending)
            show h' ∈ ([Event.received (some r) (s.ac.answer r).1].filterMap _).map _
            rw [ha]
            exact List.mem_singleton.mpr rfl

/-- Whenever requests with a key were issued, and as many final replies for the key came in
    afterwards, the requests are answered and do not wait any more. -/
def NoReplyLost (es : List Event) (s : Session) : Prop :=
  ∀ (es₁ es₂ : List Event) (κ : Key) (requests : List Handle), es = es₁ ++ es₂ →
    requests.Nodup → (∀ h ∈ requests, h ∈ issuedWith κ es₁) →
    requests.length ≤ finalReplies κ es₂ →
    ∀ h ∈ requests, h ∈ (answers es).map Answer.request ∧ h ∉ s.ac.waiting

/-- All requests with a key that were issued are answered once as many final replies for the key
    have come in afterwards. -/
def AllAnswered (es : List Event) (s : Session) : Prop :=
  ∀ (es₁ es₂ : List Event) (κ : Key), es = es₁ ++ es₂ →
    (issuedWith κ es₁).length ≤ finalReplies κ es₂ →
    ∀ h ∈ issuedWith κ es₁, h ∈ (answers es).map Answer.request ∧ h ∉ s.ac.waiting

/-- The events of a run can be cut anywhere: the log before an event, or before its end. -/
theorem answered_of_final {es : List Event} (hrun : Lts.Trace (FreeStep host) {} es s)
    {es₁ es₂ : List Event} {κ : Key} {h : Handle} (hcut : es = es₁ ++ es₂)
    (hissued : h ∈ issuedWith κ es₁) (hfinal : 0 < finalReplies κ es₂) :
    h ∈ (answers es).map Answer.request := by
  induction hrun generalizing es₂ with
  | nil =>
      obtain ⟨rfl, rfl⟩ := List.append_eq_nil_iff.mp hcut.symm
      cases hfinal
  | @snoc t u es e htrace hstep ih =>
      -- the last event of the run is the last one behind the cut
      rcases List.eq_nil_or_concat es₂ with rfl | ⟨es₃, e', rfl⟩
      · cases hfinal
      · rw [List.concat_eq_append, ← List.append_assoc] at hcut
        obtain ⟨rfl, hlast⟩ := List.append_inj' hcut rfl
        obtain rfl := List.singleton_inj.mp hlast
        have hdropped : NoneDropped (es₁ ++ es₃) t :=
          htrace.invariant_log NoneDropped nofun NoneDropped.step
        by_cases hbefore : 0 < finalReplies κ es₃
        · have hanswered := ih rfl hbefore
          rw [answers, List.filterMap_append, List.map_append]
          exact List.mem_append_left _ hanswered
        · have hissued' : h ∈ issuedWith κ (es₁ ++ es₃) := by
            rw [issuedWith, List.filterMap_append]
            exact List.mem_append_left _ hissued
          refine hdropped.answered hissued' hstep.2 ?_
          rw [List.concat_eq_append, finalReplies, List.countP_append] at hfinal
          rw [finalReplies] at hbefore
          by_contra hnot
          rw [List.countP_singleton, if_neg hnot] at hfinal
          exact hbefore hfinal

/-- Where allocations succeed, a thread can issue a request. -/
theorem step_of_call (s : Session) (call : Call)
    (hpath : (s.ac.request call).path.length ≤ maxPathLength) :
    Step .little s (.issued s.nextHandle call)
      ⟨s.ac.remember s.nextHandle call, s.nextHandle + 1⟩ := by
  obtain ⟨out, hissue, -⟩ := s.ac.issue_spec Heap.ample_zeros s.nextHandle call hpath
  exact .issue hissue

/-- Every reply can come in. -/
theorem step_of_reply (s : Session) {r : Reply} (hr : r.WellFormed) :
    Step .little s (.received (some r) (s.ac.answer r).1) ⟨(s.ac.answer r).2, s.nextHandle⟩ := by
  have hrest : (ofBytes (frame r.message)).rest = frame r.message ++ [] := by
    rw [rest, bytes, ofBytes, List.take_length, List.drop_zero, List.append_nil]
  have hlen : (ofBytes (frame r.message)).length ≤ (ofBytes (frame r.message)).capacity :=
    Nat.le_refl _
  have hreceive := s.ac.gets_reply hr hlen hrest
  refine .receive ?_ hreceive
  show ((fun x => x.1) <$> decode .little (ofBytes (frame r.message))) = _
  rw [gets_decode hr hlen hrest]
  rfl

/-- In every run whose requests find their keys free, no reply is lost. -/
theorem no_reply_lost {es : List Event} (hrun : Lts.Trace (FreeStep host) {} es s) :
    NoReplyLost es s ∧ AllAnswered es s := by
  have hconsistent : Consistent es s :=
    hrun.invariant_log Consistent consistent_init fun hs hstep => hs.step hstep.2
  have hone : ∀ (es₁ es₂ : List Event) (κ : Key) (requests : List Handle), es = es₁ ++ es₂ →
      (∀ h ∈ requests, h ∈ issuedWith κ es₁) → requests.length ≤ finalReplies κ es₂ →
      ∀ h ∈ requests, h ∈ (answers es).map Answer.request ∧ h ∉ s.ac.waiting := by
    intro es₁ es₂ κ requests hcut hissued hfinal h hmem
    have hpos : 0 < finalReplies κ es₂ := (List.length_pos_of_mem hmem).trans_le hfinal
    have hanswered := answered_of_final hrun hcut (hissued h hmem) hpos
    refine ⟨hanswered, ?_⟩
    obtain ⟨a, ha, rfl⟩ := List.mem_map.mp hanswered
    exact (hconsistent.answered a ha).2
  exact ⟨fun es₁ es₂ κ requests hcut _ => hone es₁ es₂ κ requests hcut,
    fun es₁ es₂ κ hcut => hone es₁ es₂ κ _ hcut fun _ h => h⟩

/-- Process 1 acquires the lock `a` in mode S. -/
def share : Call := .acquireLock 1 [0x61] 0

theorem wellFormed_granted (status : UInt16) (mode : UInt8) :
    (Reply.acquireUpdate 1 [0x61] mode status).WellFormed := by
  show [(0x61 : UInt8)].length ≤ maxPathLength
  decide

/-- Process 1 acquires `a` in two modes; the first request has to wait, the second one is granted
    before it. -/
theorem no_reply_lost_share :
    ∃ es s, Lts.Trace (FreeStep .little) {} es s ∧ issuedWith (.acquire 1 [0x61] 0) es = [0] ∧
      issuedWith (.acquire 1 [0x61] 1) es = [1] ∧
      ∀ h ∈ [0, 1], h ∈ (answers es).map Answer.request ∧ h ∉ s.ac.waiting := by
  have hissue : FreeStep .little {} (.issued 0 share) ⟨AccessConcentrator.remember 0 {} share, 1⟩ :=
    ⟨fun κ hκ => by cases hκ; rfl, step_of_call {} share (by decide)⟩
  have hfree : AccessConcentrator.Free (AccessConcentrator.remember 0 {} share)
      (.acquireLock 1 [0x61] 1) := fun κ hκ => by cases hκ; decide
  have hsecond : FreeStep .little ⟨AccessConcentrator.remember 0 {} share, 1⟩ _ _ :=
    ⟨show KeyFree _ (.issued _ (.acquireLock 1 [0x61] 1)) from hfree, step_of_call _ _ (by decide)⟩
  have hreply : ∀ (s : Session) (mode : UInt8) (status : UInt16), FreeStep .little s _ _ :=
    fun s mode status => ⟨show KeyFree _ (.received _ _) from trivial,
      step_of_reply s (wellFormed_granted status mode)⟩
  have hrun := ((((Lts.Trace.nil.snoc hissue).snoc hsecond).snoc
    (hreply _ 0 ResponseStatus.queued)).snoc (hreply _ 1 ResponseStatus.success)).snoc
      (hreply _ 0 ResponseStatus.success)
  have hall := fun κ => (no_reply_lost hrun).2
    [.issued 0 share, .issued 1 (.acquireLock 1 [0x61] 1)] _ κ rfl
  refine ⟨_, _, hrun, rfl, rfl, fun h hmem => ?_⟩
  rcases List.mem_cons.mp hmem with rfl | hmem
  · exact hall (.acquire 1 [0x61] 0) (by decide) 0 (by decide)
  · obtain rfl := List.mem_singleton.mp hmem
    exact hall (.acquire 1 [0x61] 1) (by decide) 1 (by decide)

/-- Of two requests with one key the second is dropped, and its answer with it. -/
theorem second_request_lost :
    ¬ ∀ (host : ByteOrder) (es : List Event) (s : Session),
      Lts.Trace (Step host) {} es s → AllAnswered es s := by
  intro h
  have hfirst := step_of_call {} share (by decide)
  have hsecond := step_of_call ⟨AccessConcentrator.remember 0 {} share, 1⟩ share (by decide)
  have hreply := fun s => step_of_reply s (wellFormed_granted ResponseStatus.success 0)
  have hrun := (((Lts.Trace.nil.snoc hfirst).snoc hsecond).snoc (hreply _)).snoc (hreply _)
  have hanswered := (h _ _ _ hrun [.issued 0 share, .issued 1 share] _ (.acquire 1 [0x61] 0) rfl
    (by decide) 1 (by decide)).1
  revert hanswered
  decide

end Session

end Tclm.Client
