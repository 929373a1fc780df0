/-
  Tclm.Client.Library

  The objects of the client's library, `src/client/Lock_impl.cpp`,
  `src/client/Process_impl.cpp` and `src/client/tclmc_impl.cpp`, and their users.

  A call of the library issues a request, waits until it is answered, and returns or
  throws what the status stands for.  A user who keeps account of these calls knows which
  locks his process has: those that calls have acquired and that he has not given back.

  A process is used for one call at a time, and not destroyed while a call for it runs;
  then no request of the process finds its key taken.  Different processes are used
  independently of each other.
-/

import Tclm.Client.Session
import Tclm.Server.Exchange

open Tclm.Comm
open Tclm.Server (HeldLock LockPath Mode splitPath gives gains Final)

namespace Tclm.Client

-- ============================================================================
-- What a call returns
-- ============================================================================

/-- The exceptions that the library throws for a status; the last one is `throw "???"`. -/
inductive LibraryException where
  | tooManyProcesses
  | noSuchProcess
  | parentNotHeld
  | noSuchLock
  | lockNotHeld
  | other
deriving DecidableEq, Repr

/-- `tclmc_impl::register_process` behind the wait, with the id of the request object. -/
def registerProcess (status : UInt16) (id : UInt32) : Except LibraryException UInt32 :=
  if status = ResponseStatus.success then .ok id
  else if status = ResponseStatus.tooManyProcesses then .error .tooManyProcesses
  else .error .other

/-- `Lock_impl::create` behind the wait. -/
def createResult (status : UInt16) : Except LibraryException Bool :=
  if status = ResponseStatus.success then .ok true
  else if status = ResponseStatus.lockExists then .ok false
  else if status = ResponseStatus.parentNotHeld then .error .parentNotHeld
  else .error .noSuchProcess

/-- `Lock_impl::acquire` behind the wait. -/
def acquireResult (status : UInt16) : Except LibraryException Unit :=
  if status = ResponseStatus.success then .ok ()
  else if status = ResponseStatus.noSuchProcess then .error .noSuchProcess
  else .error .noSuchLock

/-- `Lock_impl::release` behind the wait. -/
def releaseResult (status : UInt16) : Except LibraryException Unit :=
  if status = ResponseStatus.success then .ok ()
  else if status = ResponseStatus.noSuchProcess then .error .noSuchProcess
  else .error .lockNotHeld

/-- The lock that the user of a call has got, from what it returns: `create` with
    `acquire_X` returns with the lock, whether it is new or not. -/
def obtained : Request → UInt16 → Multiset HeldLock
  | .createLock _ path true, status =>
      match createResult status with
      | .ok _ => {(splitPath path, Mode.X.toByte)}
      | .error _ => 0
  | .acquireLock _ path mode, status =>
      match acquireResult status with
      | .ok _ => {(splitPath path, mode)}
      | .error _ => 0
  | _, _ => 0

/-- Users and the daemon mean the same by a status. -/
theorem obtained_eq_gains (q : Request) (status : UInt16) : obtained q status = gains q status := by
  cases q with
  | registerProcess | unregisterProcess | releaseLock => rfl
  | createLock pid path acquireX =>
      cases acquireX with
      | false => rfl
      | true =>
          rw [obtained, gains, createResult]
          split_ifs <;> simp_all
  | acquireLock pid path mode =>
      rw [obtained, gains, acquireResult]
      split_ifs <;> rfl

/-- The exception that a result is. -/
def exceptionOf {α : Type} : Except LibraryException α → Option LibraryException
  | .ok _ => none
  | .error e => some e

/-- The exception that the user of a call for a lock gets. -/
def thrown : Request → UInt16 → Option LibraryException
  | .createLock _ _ _, status => exceptionOf (createResult status)
  | .acquireLock _ _ _, status => exceptionOf (acquireResult status)
  | .releaseLock _ _ _, status => exceptionOf (releaseResult status)
  | _, _ => none

/-- A registered process is never said not to exist. -/
theorem thrown_of_final {q : Request} {status : UInt16} (h : Final q status) :
    thrown q status ≠ some .noSuchProcess := by
  cases q with
  | registerProcess | unregisterProcess => cases h
  | createLock pid path acquireX =>
      show exceptionOf (createResult status) ≠ _
      cases acquireX with
      | true =>
          rcases h with rfl | rfl
          · decide
          · decide
      | false =>
          rcases h with rfl | rfl | rfl
          · decide
          · decide
          · decide
  | acquireLock pid path mode =>
      show exceptionOf (acquireResult status) ≠ _
      rcases h with rfl | rfl
      · decide
      · decide
  | releaseLock pid path mode =>
      show exceptionOf (releaseResult status) ≠ _
      rcases h with rfl | rfl
      · decide
      · decide

theorem ne_queued_of_final {q : Request} {status : UInt16} (h : Final q status) :
    status ≠ ResponseStatus.queued := by
  cases q with
  | registerProcess | unregisterProcess => cases h
  | createLock pid path acquireX =>
      cases acquireX with
      | true =>
          rcases h with rfl | rfl
          · decide
          · decide
      | false =>
          rcases h with rfl | rfl | rfl
          · decide
          · decide
          · decide
  | acquireLock | releaseLock =>
      rcases h with rfl | rfl
      · decide
      · decide

-- ============================================================================
-- The client and its users
-- ============================================================================

/-- A `Process_impl` with what its user knows. -/
structure ProcessImpl where
  /-- The locks that calls have acquired and that were not given back. -/
  locks : Multiset HeldLock := 0
  /-- The request object that the user waits for, with its request. -/
  call : Option (Handle × Request) := none

/-- The call that issues a request. -/
def callOf : Request → Call
  | .registerProcess _ => .registerProcess
  | .unregisterProcess id => .unregisterProcess id
  | .createLock pid path acquireX => .createLock pid path acquireX
  | .acquireLock pid path mode => .acquireLock pid path mode
  | .releaseLock pid path mode => .releaseLock pid path mode

theorem request_callOf {q : Request} {pid : UInt32} (h : q.lockProcess = some pid)
    (ac : AccessConcentrator) : ac.request (callOf q) = q := by
  cases q with
  | registerProcess | unregisterProcess => cases h
  | createLock | acquireLock | releaseLock => rfl

/-- Requests for locks have a key, which their replies name. -/
theorem key_callOf {q : Request} {pid : UInt32} (h : q.lockProcess = some pid) :
    ∃ κ, (callOf q).key = some κ ∧ ∀ status, Key.ofReply (q.reply status) = some κ := by
  cases q with
  | registerProcess | unregisterProcess => cases h
  | createLock | acquireLock | releaseLock => exact ⟨_, rfl, fun _ => rfl⟩

theorem statusOf_reply {q : Request} {pid : UInt32} (h : q.lockProcess = some pid)
    {status : UInt16} : statusOf (q.reply status) = status := by
  cases q with
  | registerProcess | unregisterProcess => cases h
  | createLock | acquireLock | releaseLock => rfl

/-- A key belongs to one process. -/
theorem lockProcess_of_key {q q' : Request} {pid pid' : UInt32} (h : q.lockProcess = some pid)
    (h' : q'.lockProcess = some pid') (hkey : (callOf q).key = (callOf q').key) : pid = pid' := by
  cases q with
  | registerProcess | unregisterProcess => cases h
  | createLock | acquireLock | releaseLock =>
      cases q' with
      | registerProcess | unregisterProcess => cases h'
      | createLock | acquireLock | releaseLock =>
          cases h
          cases h'
          cases hkey <;> rfl

/-- `Lock_impl` has functions for the modes S, S+ and X. -/
def Offered : Request → Prop
  | .acquireLock _ _ mode | .releaseLock _ _ mode => ∃ m : Mode, mode = m.toByte
  | _ => True

/-- A request object is used for a call. -/
def Session.issued (s : Session) (call : Call) : Session :=
  ⟨s.ac.remember s.nextHandle call, s.nextHandle + 1⟩

/-- A `tclmc_impl`, and the processes that its users have. -/
structure Tclmc where
  session : Session := {}
  processes : UInt32 → Option ProcessImpl := fun _ => none

namespace Tclmc

/-- A user of a process makes a call for a lock.  From now on he does not count on a lock
    that he gives back. -/
def ask (c : Tclmc) (pid : UInt32) (p : ProcessImpl) (q : Request) : Tclmc where
  session := c.session.issued (callOf q)
  processes := Function.update c.processes pid
    (some ⟨p.locks - gives q, some (c.session.nextHandle, q)⟩)

/-- `tclmc_impl::register_process` up to the wait. -/
def register (c : Tclmc) : Tclmc := { c with session := c.session.issued .registerProcess }

/-- `Process_impl::~Process_impl` up to the wait. -/
def leave (c : Tclmc) (pid : UInt32) : Tclmc where
  session := c.session.issued (.unregisterProcess pid)
  processes := Function.update c.processes pid none

/-- A call returns to the user who waits for the request object. -/
def returns (a : Answer) (p : ProcessImpl) : ProcessImpl :=
  match p.call with
  | some (h, q) => if h = a.request then ⟨p.locks + obtained q a.status, none⟩ else p
  | none => p

/-- The processes after an answer: there is a new one, or a call for one returns. -/
def answered (c : Tclmc) (a : Answer) : UInt32 → Option ProcessImpl :=
  match a.id with
  | some id =>
      match registerProcess a.status id with
      | .ok id => Function.update c.processes id (some {})
      | .error _ => c.processes
  | none => fun pid => (c.processes pid).map (returns a)

/-- The processes after a message. -/
def heard (c : Tclmc) : Option Answer → UInt32 → Option ProcessImpl
  | some a => c.answered a
  | none => c.processes

/-- A message of the server comes in. -/
def accept (c : Tclmc) (r : Reply) : Tclmc where
  session := ⟨(c.session.ac.answer r).2, c.session.nextHandle⟩
  processes := c.heard (c.session.ac.answer r).1

-- ============================================================================
-- What the tables know
-- ============================================================================

/-- A user waits for an answer to a request for a lock. -/
def Asks (c : Tclmc) (pid : UInt32) (h : Handle) (q : Request) : Prop :=
  ∃ p, c.processes pid = some p ∧ p.call = some (h, q)

/-- The request objects of the other calls. -/
def others (c : Tclmc) : List Handle :=
  c.session.ac.registerProcessRequests.map Prod.snd ++
    c.session.ac.unregisterProcessRequests.map Prod.snd

/-- The tables for locks hold exactly the request objects that users wait for, each call has
    one of its own. -/
structure Tidy (c : Tclmc) : Prop where
  own : ∀ {pid h q}, c.Asks pid h q → q.lockProcess = some pid
  table : ∀ {κ h}, c.session.ac.pending κ = some h ↔
    ∃ pid q, c.Asks pid h q ∧ (callOf q).key = some κ
  fresh : ∀ {pid h q}, c.Asks pid h q → h < c.session.nextHandle
  distinct : ∀ {pid pid' h q q'}, c.Asks pid h q → c.Asks pid' h q' → pid = pid'
  others_fresh : ∀ h ∈ c.others, h < c.session.nextHandle
  apart : ∀ h ∈ c.others, ∀ pid q, ¬ c.Asks pid h q

theorem tidy_init : Tidy {} where
  own := fun ⟨p, hp, _⟩ => by cases hp
  table := by
    intro κ h
    constructor
    · intro hκ
      cases κ with
      | create | acquire | release => cases hκ
    · rintro ⟨pid, q, ⟨p, hp, -⟩, -⟩
      cases hp
  fresh := fun ⟨p, hp, _⟩ => by cases hp
  distinct := fun ⟨p, hp, _⟩ => by cases hp
  others_fresh := nofun
  apart := nofun

variable {c : Tclmc}

/-- An idle process finds the key of its request free. -/
theorem Tidy.free (hc : c.Tidy) {pid : UInt32} {p : ProcessImpl} (hp : c.processes pid = some p)
    (hidle : p.call = none) {q : Request} (hq : q.lockProcess = some pid) :
    c.session.ac.Free (callOf q) := by
  intro κ hκ
  by_contra hsome
  obtain ⟨h, hh⟩ := Option.ne_none_iff_exists'.mp hsome
  obtain ⟨pid', q', hask, hkey⟩ := hc.table.mp hh
  obtain rfl := lockProcess_of_key hq (hc.own hask) (hκ.trans hkey.symm)
  obtain ⟨p', hp', hcall⟩ := hask
  rw [hp] at hp'
  cases hp'
  rw [hidle] at hcall
  cases hcall

theorem asks_ask {pid : UInt32} {p : ProcessImpl} {q : Request} {pid' : UInt32} {h : Handle}
    {q' : Request} : (c.ask pid p q).Asks pid' h q' ↔
      (pid' = pid ∧ h = c.session.nextHandle ∧ q' = q) ∨ (pid' ≠ pid ∧ c.Asks pid' h q') := by
  by_cases hpid : pid' = pid
  · subst hpid
    simp [Asks, ask, eq_comm]
  · simp [Asks, ask, hpid]

theorem others_issued {call : Call} {κ : Key} (hκ : call.key = some κ) (s : Session) :
    (s.issued call).ac.registerProcessRequests = s.ac.registerProcessRequests ∧
      (s.issued call).ac.unregisterProcessRequests = s.ac.unregisterProcessRequests := by
  cases call with
  | registerProcess | unregisterProcess => cases hκ
  | createLock | acquireLock | releaseLock => exact ⟨rfl, rfl⟩

theorem Tidy.ask (hc : c.Tidy) {pid : UInt32} {p : ProcessImpl} (hp : c.processes pid = some p)
    (hidle : p.call = none) {q : Request} (hq : q.lockProcess = some pid) :
    (c.ask pid p q).Tidy := by
  obtain ⟨κ₀, hκ₀, -⟩ := key_callOf hq
  have hfree := hc.free hp hidle hq
  have hidle' : ∀ h q', ¬ c.Asks pid h q' := by
    rintro h q' ⟨p', hp', hcall⟩
    rw [hp] at hp'
    cases hp'
    rw [hidle] at hcall
    cases hcall
  have hothers : (c.ask pid p q).others = c.others := by
    obtain ⟨hreg, hunreg⟩ := others_issued hκ₀ c.session
    show List.map _ (c.session.issued _).ac.registerProcessRequests ++
      List.map _ (c.session.issued _).ac.unregisterProcessRequests = _
    rw [hreg, hunreg]
    rfl
  refine ⟨?_, ?_, ?_, ?_, ?_, ?_⟩
  · intro pid' h q' hask
    rcases asks_ask.mp hask with ⟨rfl, -, rfl⟩ | ⟨-, hask⟩
    · exact hq
    · exact hc.own hask
  · intro κ h
    by_cases hκ : κ = κ₀
    · subst hκ
      have hself : (c.ask pid p q).session.ac.pending κ = some c.session.nextHandle :=
        AccessConcentrator.pending_remember_self hfree hκ₀
      rw [hself]
      constructor
      · rintro ⟨⟩
        exact ⟨pid, q, asks_ask.mpr (.inl ⟨rfl, rfl, rfl⟩), hκ₀⟩
      · rintro ⟨pid', q', hask, hkey⟩
        rcases asks_ask.mp hask with ⟨-, rfl, -⟩ | ⟨hne, hask⟩
        · rfl
        · exact absurd (lockProcess_of_key (hc.own hask) hq (hkey.trans hκ₀.symm)) hne
    · have hsame : (c.ask pid p q).session.ac.pending κ = c.session.ac.pending κ :=
        AccessConcentrator.pending_remember_ne fun heq => hκ (Option.some.inj (heq.symm.trans hκ₀))
      rw [hsame, hc.table]
      constructor
      · rintro ⟨pid', q', hask, hkey⟩
        have hne : pid' ≠ pid := fun heq => hidle' h q' (heq ▸ hask)
        exact ⟨pid', q', asks_ask.mpr (.inr ⟨hne, hask⟩), hkey⟩
      · rintro ⟨pid', q', hask, hkey⟩
        rcases asks_ask.mp hask with ⟨-, -, rfl⟩ | ⟨-, hask⟩
        · exact absurd (Option.some.inj (hkey.symm.trans hκ₀)) hκ
        · exact ⟨pid', q', hask, hkey⟩
  · intro pid' h q' hask
    rcases asks_ask.mp hask with ⟨-, rfl, -⟩ | ⟨-, hask⟩
    · exact Nat.lt_succ_self _
    · exact Nat.lt_succ_of_lt (hc.fresh hask)
  · intro pid₁ pid₂ h q₁ q₂ hask₁ hask₂
    rcases asks_ask.mp hask₁ with ⟨hpid₁, hh₁, -⟩ | ⟨-, hold₁⟩ <;>
      rcases asks_ask.mp hask₂ with ⟨hpid₂, hh₂, -⟩ | ⟨-, hold₂⟩
    · rw [hpid₁, hpid₂]
    · exact absurd hh₁ (Nat.ne_of_lt (hc.fresh hold₂))
    · exact absurd hh₂ (Nat.ne_of_lt (hc.fresh hold₁))
    · exact hc.distinct hold₁ hold₂
  · rw [hothers]
    exact fun h hh => Nat.lt_succ_of_lt (hc.others_fresh h hh)
  · rw [hothers]
    intro h hh pid' q' hask
    rcases asks_ask.mp hask with ⟨-, rfl, -⟩ | ⟨-, hask⟩
    · exact Nat.lt_irrefl _ (hc.others_fresh _ hh)
    · exact hc.apart h hh pid' q' hask

/-- Nothing changes for the requests for locks. -/
theorem Tidy.of_same {c' : Tclmc} (hc : c.Tidy)
    (hpending : ∀ κ, c'.session.ac.pending κ = c.session.ac.pending κ)
    (hasks : ∀ pid h q, c'.Asks pid h q ↔ c.Asks pid h q)
    (hnext : c.session.nextHandle ≤ c'.session.nextHandle)
    (hothers : ∀ h ∈ c'.others, h ∈ c.others ∨
      (h = c.session.nextHandle ∧ h < c'.session.nextHandle)) : c'.Tidy where
  own hask := hc.own ((hasks _ _ _).mp hask)
  table {κ h} := by
    rw [hpending, hc.table]
    simp only [hasks]
  fresh hask := Nat.lt_of_lt_of_le (hc.fresh ((hasks _ _ _).mp hask)) hnext
  distinct hask hask' := hc.distinct ((hasks _ _ _).mp hask) ((hasks _ _ _).mp hask')
  others_fresh h hh := by
    rcases hothers h hh with hold | ⟨-, hlt⟩
    · exact Nat.lt_of_lt_of_le (hc.others_fresh h hold) hnext
    · exact hlt
  apart h hh pid q hask := by
    rw [hasks] at hask
    rcases hothers h hh with hold | ⟨rfl, -⟩
    · exact hc.apart h hold pid q hask
    · exact Nat.lt_irrefl _ (hc.fresh hask)

theorem pending_issued {call : Call} (hκ : call.key = none) (s : Session) (κ : Key) :
    (s.issued call).ac.pending κ = s.ac.pending κ :=
  AccessConcentrator.pending_remember_ne fun heq => by rw [hκ] at heq; cases heq

theorem Tidy.register (hc : c.Tidy) : c.register.Tidy := by
  refine hc.of_same (pending_issued rfl c.session) (fun _ _ _ => Iff.rfl) (Nat.le_succ _) ?_
  intro h hh
  have hlist : c.register.others = (c.session.ac.registerProcessRequests.map Prod.snd ++
      [c.session.nextHandle]) ++ c.session.ac.unregisterProcessRequests.map Prod.snd := by
    rw [others]
    exact congrArg (· ++ _) List.map_append
  rw [hlist, List.mem_append, List.mem_append] at hh
  rcases hh with (hh | hh) | hh
  · exact .inl (List.mem_append_left _ hh)
  · rw [List.mem_singleton.mp hh]
    exact .inr ⟨rfl, Nat.lt_succ_self _⟩
  · exact .inl (List.mem_append_right _ hh)

theorem asks_leave {pid : UInt32} {p : ProcessImpl} (hp : c.processes pid = some p)
    (hidle : p.call = none) (pid' : UInt32) (h : Handle) (q : Request) :
    (c.leave pid).Asks pid' h q ↔ c.Asks pid' h q := by
  by_cases hpid : pid' = pid
  · subst hpid
    simp [Asks, leave, hp, hidle]
  · simp [Asks, leave, hpid]

theorem Tidy.leave (hc : c.Tidy) {pid : UInt32} {p : ProcessImpl} (hp : c.processes pid = some p)
    (hidle : p.call = none) : (c.leave pid).Tidy := by
  refine hc.of_same (pending_issued rfl c.session) (asks_leave hp hidle) (Nat.le_succ _) ?_
  intro h hh
  have hlist : (c.leave pid).others = c.session.ac.registerProcessRequests.map Prod.snd ++
      (c.session.ac.unregisterProcessRequests.map Prod.snd ++ [c.session.nextHandle]) := by
    rw [others]
    exact congrArg (_ ++ ·) List.map_append
  rw [hlist, List.mem_append, List.mem_append] at hh
  rcases hh with hh | hh | hh
  · exact .inl (List.mem_append_left _ hh)
  · exact .inl (List.mem_append_right _ hh)
  · rw [List.mem_singleton.mp hh]
    exact .inr ⟨rfl, Nat.lt_succ_self _⟩

-- ============================================================================
-- What a message does
-- ============================================================================

/-- A message that answers nothing changes nothing. -/
theorem accept_of_none {r : Reply} (h : (c.session.ac.answer r).1 = none) : c.accept r = c := by
  rw [accept, h, AccessConcentrator.answer_none h]
  rfl

/-- A reply that says that the request waits changes nothing. -/
theorem accept_of_queued {q : Request} {t : Tclm.Server.Ticket} (hq : Tclm.Server.Queues q t) :
    c.accept (q.reply ResponseStatus.queued) = c := by
  apply accept_of_none
  cases q with
  | registerProcess | unregisterProcess | releaseLock => cases hq
  | createLock pid path acquireX =>
      simp only [Request.reply, AccessConcentrator.answer, AccessConcentrator.answerCreate]
      grind
  | acquireLock pid path mode =>
      simp only [Request.reply, AccessConcentrator.answer, AccessConcentrator.answerAcquire]
      grind

/-- A reply that nobody waits for changes nothing. -/
theorem accept_of_pending {r : Reply} {κ : Key} (hκ : Key.ofReply r = some κ)
    (h : c.session.ac.pending κ = none) : c.accept r = c := by
  apply accept_of_none
  rcases c.session.ac.answer_of_key hκ with ⟨hnone, -⟩ | ⟨h', hsome, -⟩
  · exact hnone
  · rw [h] at hsome
    cases hsome

theorem pending_answer_self {ac : AccessConcentrator} {r : Reply} {κ : Key}
    (hκ : Key.ofReply r = some κ) {a : Answer} (ha : (ac.answer r).1 = some a) :
    (ac.answer r).2.pending κ = none := by
  cases r with
  | registered | unregistered => cases hκ
  | createUpdate pid path status =>
      cases hκ
      simp only [AccessConcentrator.answer, AccessConcentrator.answerCreate,
        AccessConcentrator.pending] at ha ⊢
      split at ha
      · split at ha
        · rename_i hstatus
          simp only [if_pos hstatus]
          exact SortedMap.lookup_erase_self
        · cases ha
      · cases ha
  | acquireUpdate pid path mode status =>
      cases hκ
      simp only [AccessConcentrator.answer, AccessConcentrator.answerAcquire,
        AccessConcentrator.pending] at ha ⊢
      split at ha
      · split at ha
        · rename_i hstatus
          simp only [if_pos hstatus]
          exact SortedMap.lookup_erase_self
        · cases ha
      · cases ha
  | released pid path mode status =>
      cases hκ
      simp only [AccessConcentrator.answer, AccessConcentrator.answerRelease,
        AccessConcentrator.pending] at ha ⊢
      split at ha
      · exact SortedMap.lookup_erase_self
      · cases ha

/-- A reply for a lock leaves the other tables alone. -/
theorem lists_answer {ac : AccessConcentrator} {r : Reply} {κ : Key}
    (hκ : Key.ofReply r = some κ) :
    (ac.answer r).2.registerProcessRequests = ac.registerProcessRequests ∧
      (ac.answer r).2.unregisterProcessRequests = ac.unregisterProcessRequests := by
  cases r with
  | registered | unregistered => cases hκ
  | createUpdate | acquireUpdate =>
      simp only [AccessConcentrator.answer, AccessConcentrator.answerCreate,
        AccessConcentrator.answerAcquire]
      split
      · split
        · exact ⟨rfl, rfl⟩
        · exact ⟨rfl, rfl⟩
      · exact ⟨rfl, rfl⟩
  | released =>
      simp only [AccessConcentrator.answer, AccessConcentrator.answerRelease]
      split
      · exact ⟨rfl, rfl⟩
      · exact ⟨rfl, rfl⟩

/-- The last reply to a request answers the request object that the user waits for. -/
theorem answer_final (hc : c.Tidy) {pid : UInt32} {p : ProcessImpl} {h : Handle} {q : Request}
    (hp : c.processes pid = some p) (hcall : p.call = some (h, q)) {status : UInt16}
    (hstatus : status ≠ ResponseStatus.queued) :
    (c.session.ac.answer (q.reply status)).1 = some ⟨h, status, none⟩ := by
  have hask : c.Asks pid h q := ⟨p, hp, hcall⟩
  have hq := hc.own hask
  obtain ⟨κ, hκ, hreply⟩ := key_callOf hq
  have hpending : c.session.ac.pending κ = some h := hc.table.mpr ⟨pid, q, hask, hκ⟩
  have hst : statusOf (q.reply status) = status := statusOf_reply hq
  rcases c.session.ac.answer_of_key (hreply status) with ⟨-, hno | hno⟩ | ⟨h', hh', hsome⟩
  · exact absurd (hst.symm.trans hno) hstatus
  · rw [hpending] at hno
    cases hno
  · rw [hpending] at hh'
    cases hh'
    rw [hsome, hst]

/-- The last reply to a request lets the call return, to its user and to nobody else. -/
theorem accept_final (hc : c.Tidy) {pid : UInt32} {p : ProcessImpl} {h : Handle} {q : Request}
    (hp : c.processes pid = some p) (hcall : p.call = some (h, q)) {status : UInt16}
    (hstatus : status ≠ ResponseStatus.queued) :
    (c.accept (q.reply status)).processes =
        Function.update c.processes pid (some ⟨p.locks + gains q status, none⟩) ∧
      (c.accept (q.reply status)).Tidy ∧
      (c.accept (q.reply status)).session.ac.registerProcessRequests =
        c.session.ac.registerProcessRequests ∧
      (c.accept (q.reply status)).session.ac.unregisterProcessRequests =
        c.session.ac.unregisterProcessRequests := by
  have hask : c.Asks pid h q := ⟨p, hp, hcall⟩
  have hq := hc.own hask
  obtain ⟨κ, hκ, hreply⟩ := key_callOf hq
  have hanswer := answer_final hc hp hcall hstatus
  have hprocesses : (c.accept (q.reply status)).processes =
      Function.update c.processes pid (some ⟨p.locks + gains q status, none⟩) := by
    funext pid'
    have haccept : (c.accept (q.reply status)).processes pid' =
        (c.processes pid').map (returns ⟨h, status, none⟩) := by
      rw [accept, hanswer]
      rfl
    rw [haccept]
    by_cases hpid : pid' = pid
    · subst hpid
      rw [Function.update_self, hp, Option.map_some, returns, hcall]
      simp only [if_true, obtained_eq_gains]
    · rw [Function.update_of_ne hpid]
      cases hp' : c.processes pid' with
      | none => rfl
      | some p' =>
          rw [Option.map_some, returns]
          cases hcall' : p'.call with
          | none => rfl
          | some x =>
              -- another call has another request object
              have hne : x.1 ≠ h := by
                intro heq
                exact hpid (hc.distinct (q := x.2) ⟨p', hp', by rw [hcall', ← heq]⟩ hask)
              simp only [if_neg hne]
  obtain ⟨hreg, hunreg⟩ :
      (c.session.ac.answer (q.reply status)).2.registerProcessRequests =
          c.session.ac.registerProcessRequests ∧
        (c.session.ac.answer (q.reply status)).2.unregisterProcessRequests =
          c.session.ac.unregisterProcessRequests := lists_answer (hreply status)
  refine ⟨hprocesses, ?_, hreg, hunreg⟩
  have hasks : ∀ pid' h' q', (c.accept (q.reply status)).Asks pid' h' q' ↔
      pid' ≠ pid ∧ c.Asks pid' h' q' := by
    intro pid' h' q'
    rw [Asks, hprocesses]
    by_cases hpid : pid' = pid
    · subst hpid
      simp
    · simp [Asks, hpid]
  have hothers : (c.accept (q.reply status)).others = c.others := by
    show List.map _ (c.session.ac.answer _).2.registerProcessRequests ++
      List.map _ (c.session.ac.answer _).2.unregisterProcessRequests = _
    rw [hreg, hunreg]
    rfl
  refine ⟨?_, ?_, ?_, ?_, ?_, ?_⟩
  · intro pid' h' q' hask'
    exact hc.own ((hasks _ _ _).mp hask').2
  · intro κ' h'
    by_cases hκ' : κ' = κ
    · subst hκ'
      have hnone : (c.accept (q.reply status)).session.ac.pending κ' = none :=
        pending_answer_self (hreply status) hanswer
      rw [hnone]
      constructor
      · intro heq
        cases heq
      · rintro ⟨pid', q', hask', hkey⟩
        obtain ⟨hne, hask'⟩ := (hasks _ _ _).mp hask'
        exact absurd (lockProcess_of_key (hc.own hask') hq (hkey.trans hκ.symm)) hne
    · have hsame : (c.accept (q.reply status)).session.ac.pending κ' = c.session.ac.pending κ' :=
        AccessConcentrator.pending_answer_ne fun heq =>
          hκ' (Option.some.inj (heq.symm.trans (hreply status)))
      rw [hsame, hc.table]
      constructor
      · rintro ⟨pid', q', hask', hkey⟩
        refine ⟨pid', q', (hasks _ _ _).mpr ⟨?_, hask'⟩, hkey⟩
        rintro rfl
        obtain ⟨p', hp', hcall'⟩ := hask'
        rw [hp] at hp'
        cases hp'
        rw [hcall] at hcall'
        cases hcall'
        exact hκ' (Option.some.inj (hkey.symm.trans hκ))
      · rintro ⟨pid', q', hask', hkey⟩
        exact ⟨pid', q', ((hasks _ _ _).mp hask').2, hkey⟩
  · intro pid' h' q' hask'
    exact hc.fresh ((hasks _ _ _).mp hask').2
  · intro pid₁ pid₂ h' q₁ q₂ hask₁ hask₂
    exact hc.distinct ((hasks _ _ _).mp hask₁).2 ((hasks _ _ _).mp hask₂).2
  · rw [hothers]
    exact hc.others_fresh
  · rw [hothers]
    intro h' hh' pid' q' hask'
    exact hc.apart h' hh' pid' q' ((hasks _ _ _).mp hask').2

/-- The end of another call is no news for the processes. -/
theorem Tidy.answered_other (hc : c.Tidy) {h : Handle} (hh : h ∈ c.others) (status : UInt16) :
    c.answered ⟨h, status, none⟩ = c.processes := by
  funext pid
  show (c.processes pid).map (returns ⟨h, status, none⟩) = _
  cases hp : c.processes pid with
  | none => rfl
  | some p =>
      rw [Option.map_some, returns]
      cases hcall : p.call with
      | none => rfl
      | some x =>
          have hne : x.1 ≠ h := fun heq => hc.apart h hh pid x.2 ⟨p, hp, by rw [hcall, ← heq]⟩
          simp only [if_neg hne]

/-- The first registration in the table is answered. -/
theorem accept_registered {nonce : UInt32} {h : Handle} {rest : List (UInt32 × Handle)}
    (hlist : c.session.ac.registerProcessRequests = (nonce, h) :: rest) (status : UInt16)
    (id : Option UInt32) :
    c.accept (.registered nonce status id) =
      ⟨⟨{ c.session.ac with registerProcessRequests := rest }, c.session.nextHandle⟩,
        c.answered ⟨h, status, id⟩⟩ := by
  have hanswer : c.session.ac.answer (.registered nonce status id) =
      (some ⟨h, status, id⟩, { c.session.ac with registerProcessRequests := rest }) := by
    simp [AccessConcentrator.answer, AccessConcentrator.answerRegister, hlist, List.splitFirst]
  rw [accept, hanswer]
  rfl

/-- The first process in the table of those that leave is gone. -/
theorem accept_unregistered {id : UInt32} {h : Handle} {rest : List (UInt32 × Handle)}
    (hlist : c.session.ac.unregisterProcessRequests = (id, h) :: rest) (status : UInt16) :
    c.accept (.unregistered id status) =
      ⟨⟨{ c.session.ac with unregisterProcessRequests := rest }, c.session.nextHandle⟩,
        c.answered ⟨h, status, none⟩⟩ := by
  have hanswer : c.session.ac.answer (.unregistered id status) =
      (some ⟨h, status, none⟩, { c.session.ac with unregisterProcessRequests := rest }) := by
    simp [AccessConcentrator.answer, AccessConcentrator.answerUnregister, hlist, List.splitFirst]
  rw [accept, hanswer]
  rfl

theorem Tidy.registered (hc : c.Tidy) {nonce : UInt32} {h : Handle}
    {rest : List (UInt32 × Handle)}
    (hlist : c.session.ac.registerProcessRequests = (nonce, h) :: rest)
    {processes : UInt32 → Option ProcessImpl}
    (hasks : ∀ pid h q, (∃ p, processes pid = some p ∧ p.call = some (h, q)) ↔ c.Asks pid h q) :
    Tidy ⟨⟨{ c.session.ac with registerProcessRequests := rest }, c.session.nextHandle⟩,
      processes⟩ := by
  refine hc.of_same (fun κ => ?_) hasks (Nat.le_refl _) fun h' hh' => .inl ?_
  · cases κ with
    | create | acquire | release => rfl
  · rw [others, hlist, List.map_cons]
    exact List.mem_cons_of_mem _ hh'

theorem Tidy.unregistered (hc : c.Tidy) {id : UInt32} {h : Handle}
    {rest : List (UInt32 × Handle)}
    (hlist : c.session.ac.unregisterProcessRequests = (id, h) :: rest) :
    Tidy ⟨⟨{ c.session.ac with unregisterProcessRequests := rest }, c.session.nextHandle⟩,
      c.processes⟩ := by
  refine hc.of_same (fun κ => ?_) (fun _ _ _ => Iff.rfl) (Nat.le_refl _) fun h' hh' => .inl ?_
  · cases κ with
    | create | acquire | release => rfl
  · rw [others, hlist, List.map_cons]
    rcases List.mem_append.mp hh' with hh' | hh'
    · exact List.mem_append_left _ hh'
    · exact List.mem_append_right _ (List.mem_cons_of_mem _ hh')

end Tclmc

end Tclm.Client
