/-
  Tclm.Server.Decoding

  Which bytes the daemon reads of a message.

  The functions that read numbers look at the length of the message, and so does the copy
  of a request into its reply.  A path is taken from memory as long as the message says it
  is: three handlers read behind the end of the message when it says too much.
-/

import Tclm.Server.Daemon

open Tclm.Comm
open Tclm.Comm.Stream

namespace Tclm.Server

-- ============================================================================
-- Computations that do not read outside of a message
-- ============================================================================

variable {α β : Type}

/-- No byte is read that does not belong to the message. -/
def NeverReads (act : StreamM α) : Prop := ∀ s, act s ≠ .error .readOutside

theorem NeverReads.bind {act : StreamM α} {f : α → StreamM β} (h : NeverReads act)
    (hf : ∀ a, NeverReads (f a)) : NeverReads (act >>= f) := by
  intro s
  cases hact : act s with
  | error fault =>
      show (act s >>= fun p => f p.1 p.2) ≠ _
      rw [hact]
      intro heq
      apply h s
      rw [hact]
      exact congrArg Except.error (Except.error.inj heq)
  | ok p =>
      rw [run_bind hact]
      exact hf p.1 p.2

theorem neverReads_pure (a : α) : NeverReads (pure a) := fun _ => nofun

theorem neverReads_tell : NeverReads tell := fun _ => nofun

theorem neverReads_seek (p : Nat) : NeverReads (seek p) := fun _ => nofun

theorem neverReads_setLength (l : Nat) : NeverReads (setLength l) := fun _ => nofun

theorem neverReads_memcpy (bs : List UInt8) : NeverReads (memcpy bs) := by
  intro s
  rw [memcpy]
  split
  · intro h
    cases h
  · intro h
    cases h

theorem neverReads_ensure (heap : Heap) (l : Nat) :
    NeverReads (ensureRemainingCapacity heap l) := by
  intro s
  rw [ensureRemainingCapacity]
  grind

theorem neverReads_reserve (heap : Heap) (l : Nat) : NeverReads (reserve heap l) := by
  refine (neverReads_ensure heap l).bind fun enough s => ?_
  cases enough with
  | true => nofun
  | false => nofun

theorem neverReads_writeBytes (bs : List UInt8) : NeverReads (writeBytes bs) :=
  (neverReads_memcpy bs).bind fun _ => neverReads_tell.bind fun _ =>
    (neverReads_seek _).bind fun _ _ => nofun

theorem neverReads_copyLengthSeek (bs : List UInt8) : NeverReads (copyLengthSeek bs) :=
  (neverReads_memcpy bs).bind fun _ => neverReads_tell.bind fun _ =>
    (neverReads_setLength _).bind fun _ => neverReads_tell.bind fun _ => neverReads_seek _

theorem neverReads_copyExtendSeek (bs : List UInt8) : NeverReads (copyExtendSeek bs) :=
  (neverReads_memcpy bs).bind fun _ => NeverReads.bind (fun _ => nofun) fun _ =>
    neverReads_tell.bind fun _ => neverReads_seek _

theorem neverReads_writeMessageHeader (host : ByteOrder) (heap : Heap) (id : UInt8)
    (length : UInt32) : NeverReads (writeMessageHeader host heap id length) :=
  (neverReads_reserve heap 5).bind fun _ => (neverReads_writeBytes _).bind fun _ =>
    neverReads_writeBytes _

theorem neverReads_updateMessageLength (host : ByteOrder) (l : Nat) :
    NeverReads (updateMessageLength host l) :=
  (neverReads_seek 1).bind fun _ => neverReads_writeBytes _

theorem neverReads_writeRecords {write : Heap → α → StreamM Unit}
    (h : ∀ heap a, NeverReads (write heap a)) (heaps : Nat → Heap) (as : List α) :
    NeverReads (Daemon.writeRecords write heaps as) := by
  induction as generalizing heaps with
  | nil => exact neverReads_pure ()
  | cons a as ih => exact (h _ a).bind fun _ => ih _

/-- The step of a handler does not read outside of the message. -/
def Inside (act : Except DaemonFault α) : Prop := act ≠ .error (.stream .readOutside)

theorem Inside.bind {act : Except DaemonFault α} {f : α → Except DaemonFault β} (h : Inside act)
    (hf : ∀ a, Inside (f a)) : Inside (act >>= f) := by
  cases act with
  | error fault => exact fun heq => h (congrArg Except.error (Except.error.inj heq))
  | ok a => exact hf a

theorem inside_pure (a : α) : Inside (pure a) := nofun

theorem inside_onBackend (act : Except Fault α) : Inside (onBackend act) := by
  cases act with
  | error fault => nofun
  | ok a => nofun

theorem inside_onStream {act : Except StreamFault α} (h : act ≠ .error .readOutside) :
    Inside (onStream act) := by
  cases act with
  | error fault =>
      intro heq
      apply h
      exact congrArg Except.error (DaemonFault.stream.inj (Except.error.inj heq))
  | ok a => nofun

theorem inside_write {act : StreamM Unit} (h : NeverReads act) (s : Stream) :
    Inside (Daemon.write act s) :=
  (inside_onStream (h s)).bind fun _ => inside_pure _

theorem inside_newStream (heap : Heap) (n : Nat) : Inside (onStream (newStream heap n)) := by
  apply inside_onStream
  rw [newStream]
  split
  · have hensure := neverReads_ensure heap n {}
    cases hact : ensureRemainingCapacity heap n {} with
    | error fault =>
        rw [hact] at hensure
        exact fun heq => hensure (congrArg Except.error (Except.error.inj heq))
    | ok p =>
        intro h
        cases h
  · intro h
    cases h

namespace Daemon

theorem inside_newListing (env : Env) (id : UInt8) : Inside (newListing env id) := by
  rw [newListing]
  split
  · exact (inside_onStream (neverReads_writeMessageHeader env.host env.heap id 0 {})).bind
      fun _ => inside_pure _
  · nofun

theorem inside_finishListing {env : Env} {act : StreamM Unit} (h : NeverReads act) (s : Stream) :
    Inside (finishListing env act s) := by
  have hall : NeverReads (do act; updateMessageLength env.host (← tell) : StreamM Unit) :=
    h.bind fun _ => neverReads_tell.bind fun _ => neverReads_updateMessageLength _ _
  exact (inside_onStream (hall s)).bind fun _ => inside_pure _

/-- The bytes at the current position, as far as the message goes. -/
theorem run_pointerBytes {n : Nat} {s : Stream} (h : s.length ≤ s.capacity) :
    pointerBytes n s =
      if n = 0 ∨ s.pos + n ≤ s.length then .ok ((s.bytes.drop s.pos).take n, s)
      else .error .readOutside := by
  rw [pointerBytes]
  by_cases hzero : n = 0
  · rw [if_pos hzero, if_pos (Or.inl hzero), hzero, List.take_zero]
  · by_cases hroom : s.pos + n ≤ s.length
    · have hbytes : (s.bytes.drop s.pos).take n = (s.buffer.drop s.pos).take n := by
        rw [bytes, List.drop_take, List.take_take, Nat.min_eq_left (by omega)]
      rw [if_neg hzero, if_pos ⟨hroom, hroom.trans h⟩, if_pos (Or.inr hroom), hbytes]
    · rw [if_neg hzero, if_neg fun hcond => hroom hcond.1,
        if_neg fun hcond => hcond.elim hzero hroom]

/-- The copy of a request is as long as the request. -/
theorem run_readBody {input : Stream} (h : input.length ≤ input.capacity) :
    readBody input = .ok (input.bytes.drop 5, { input with pos := 5 }) := by
  have hcap : Stream.length { input with pos := 5 } ≤ capacity { input with pos := 5 } := h
  have hinside : input.length - 5 = 0 ∨ 5 + (input.length - 5) ≤ input.length := by omega
  have hlen : (input.bytes.drop 5).length ≤ input.length - 5 := by
    rw [List.length_drop, bytes]
    exact Nat.sub_le_sub_right (List.length_take_le _ _) 5
  show pointerBytes (input.length - 5) { input with pos := 5 } = _
  rw [run_pointerBytes hcap, if_pos hinside]
  show Except.ok ((input.bytes.drop 5).take (input.length - 5), _) = _
  rw [List.take_of_length_le hlen]

theorem neverReads_echo (body : List UInt8) (length : Nat) : NeverReads (echo body length) :=
  (neverReads_memcpy body).bind fun _ => (neverReads_setLength length).bind fun _ =>
    neverReads_seek length

/-- The length of a path, read at the given position. -/
def lengthField (host : ByteOrder) (p : Nat) (bs : List UInt8) : UInt16 :=
  UInt16.ofNat (host.letoh 2 (beVal ((bs.drop p).take 2)))

/-- Where the path of a message about a lock ends, as the message says.  Without enough bytes
    for the process the length of the path is read in its place; without enough bytes for
    the length there is no path. -/
def pathEnd (host : ByteOrder) (bs : List UInt8) : Nat :=
  if 11 ≤ bs.length then 11 + (lengthField host 9 bs).toNat
  else if 7 ≤ bs.length ∧ bs.length < 9 then 7 + (lengthField host 5 bs).toNat
  else bs.length

/-- From the length of the path on. -/
theorem readPath_inside_iff {s : Stream} {n : Nat} {f : PathString → UInt8 → α}
    (hcap : s.length ≤ s.capacity) (hpos : s.pos ≤ s.length) :
    (do
      let path ← pointerBytes n
      seek ((← tell) + n)
      let last ← readUInt8
      pure (f path last) : StreamM α) s ≠ .error .readOutside ↔ s.pos + n ≤ s.length := by
  by_cases hroom : s.pos + n ≤ s.length
  · have hpointer : pointerBytes n s = .ok ((s.bytes.drop s.pos).take n, s) := by
      rw [run_pointerBytes hcap, if_pos (Or.inr hroom)]
    have hcap' : Stream.length { s with pos := s.pos + n } ≤ capacity { s with pos := s.pos + n } :=
      hcap
    obtain ⟨b, p, hlast, -⟩ := readUInt8_moves hcap'
    refine ⟨fun _ => hroom, fun _ => ?_⟩
    rw [run_bind hpointer]
    show (do let last ← readUInt8; pure (f _ last) : StreamM α) { s with pos := s.pos + n } ≠ _
    rw [run_bind hlast]
    nofun
  · have hpointer : pointerBytes n s = .error .readOutside := by
      rw [run_pointerBytes hcap, if_neg (by omega)]
    refine ⟨fun h => absurd ?_ h, fun h => absurd h hroom⟩
    show (pointerBytes n s >>= _) = _
    rw [hpointer]
    rfl

/-- From the length of the path on. -/
theorem readLength_inside_iff (host : ByteOrder) {s : Stream} {f : UInt16 → PathString → UInt8 → α}
    (hcap : s.length ≤ s.capacity) (hpos : s.pos ≤ s.length) :
    (do
      let pathLength ← readUInt16 host
      let path ← pointerBytes pathLength.toNat
      seek ((← tell) + pathLength.toNat)
      let last ← readUInt8
      pure (f pathLength path last) : StreamM α) s ≠ .error .readOutside ↔
      (if s.pos + 2 ≤ s.length then s.pos + 2 + (lengthField host s.pos s.bytes).toNat
        else s.pos) ≤ s.length := by
  by_cases hroom : s.pos + 2 ≤ s.length
  · have hread : readUInt16 host s =
        .ok (lengthField host s.pos s.bytes, { s with pos := s.pos + 2 }) :=
      run_map UInt16.ofNat (run_readUInt host hcap hroom)
    rw [if_pos hroom, run_bind hread]
    exact readPath_inside_iff (s := { s with pos := s.pos + 2 }) hcap hroom
  · have hread : readUInt16 host s = .ok (0, s) :=
      run_map UInt16.ofNat (run_readUInt_short host hroom)
    rw [if_neg hroom, run_bind hread]
    exact readPath_inside_iff hcap hpos

theorem readLockRequest_inside_iff (host : ByteOrder) {s : Stream} (hpos : s.pos = 5)
    (hlen : 5 ≤ s.length) (hcap : s.length ≤ s.capacity) :
    readLockRequest host s ≠ .error .readOutside ↔ pathEnd host s.bytes ≤ s.bytes.length := by
  have hbytes : s.bytes.length = s.length := by
    rw [bytes, List.length_take]
    exact Nat.min_eq_left hcap
  rw [pathEnd, hbytes, readLockRequest]
  by_cases hroom : s.pos + 4 ≤ s.length
  · rw [readUInt32, run_bind (run_map UInt32.ofNat (run_readUInt host hcap hroom)),
      readLength_inside_iff host (s := { s with pos := s.pos + 4 }) hcap hroom]
    show (if s.pos + 4 + 2 ≤ s.length then
      s.pos + 4 + 2 + (lengthField host (s.pos + 4) s.bytes).toNat else s.pos + 4) ≤ s.length ↔ _
    rw [hpos] at hroom ⊢
    split
    · rfl
    · rw [if_neg (by omega)]
      omega
  · rw [readUInt32, run_bind (run_map UInt32.ofNat (run_readUInt_short host hroom)),
      readLength_inside_iff host hcap (by omega), hpos]
    rw [hpos] at hroom
    by_cases hseven : 7 ≤ s.length
    · rw [if_pos hseven, if_neg (by omega), if_pos (by omega)]
    · rw [if_neg hseven, if_neg (by omega), if_neg (by omega)]
      omega

-- ============================================================================
-- The handlers
-- ============================================================================

/-- What `acquireLock` and `releaseLock` have in common: the request is sent back with the
    status that a call of the backend returns. -/
def sendBack (env : Env) (c : Conn) (input : Stream) (id : UInt8) (d : Daemon)
    (act : Except Fault (UInt16 × Finset LockRequest × Daemon)) : Except DaemonFault Handled := do
  match ← onStream (newStream env.heap (input.capacity + 2)) with
  | none => pure ([], ∅, d)
  | some s => do
      let s ← write (writeMessageHeader env.host env.heap id
        (UInt32.ofNat (input.length + 2 - 5))) s
      let (body, _) ← onStream (readBody input)
      let s ← write (echo body input.length) s
      let (status, answered, d) ← onBackend act
      let s ← write (writeUInt16 env.host status) s
      pure ([(c, s)], answered, d)

section Handlers

variable (env : Env) (c : Conn) (d : Daemon)

theorem acquireLock_eq_sendBack (input : Stream) (pid : UInt32) (path : PathString) (mode : UInt8) :
    d.acquireLock env c input pid path mode =
      sendBack env c input MsgId.acquireLockUpdate (d.updatePidConnection pid c) (do
        let (res, b) ← (d.updatePidConnection pid c).backend.acquireLock pid path mode
        .ok (res.status, ∅, { d.updatePidConnection pid c with backend := b })) := by
  rw [acquireLock, sendBack]
  cases (d.updatePidConnection pid c).backend.acquireLock pid path mode with
  | error fault => rfl
  | ok x => rfl

theorem releaseLock_eq_sendBack (input : Stream) (pid : UInt32) (path : PathString) (mode : UInt8) :
    d.releaseLock env c input pid path mode =
      sendBack env c input MsgId.releaseLockResponse (d.updatePidConnection pid c) (do
        let (res, answered, b) ← (d.updatePidConnection pid c).backend.releaseLock pid path mode
        .ok (res.status, answered, { d.updatePidConnection pid c with backend := b })) := by
  rw [releaseLock, sendBack]
  cases (d.updatePidConnection pid c).backend.releaseLock pid path mode with
  | error fault => rfl
  | ok x => rfl

/-- A step that needs a new stream, and goes on without one. -/
theorem inside_withStream {heap : Heap} {n : Nat} {f : Option Stream → Except DaemonFault α}
    (hnone : Inside (f none)) (hsome : ∀ s, Inside (f (some s))) :
    Inside (onStream (newStream heap n) >>= f) := by
  refine (inside_newStream heap n).bind fun o => ?_
  cases o with
  | none => exact hnone
  | some s => exact hsome s

theorem inside_registerProcess (nonce : UInt32) : Inside (d.registerProcess env c nonce) := by
  refine inside_withStream nofun fun s => ?_
  refine (inside_write ((neverReads_writeMessageHeader _ _ _ _).bind fun _ =>
    neverReads_writeBytes _) s).bind fun s => ?_
  have hlast : ∀ id, NeverReads (writeRegistered env.host id) := by
    intro id
    cases id with
    | some id => exact (neverReads_writeBytes _).bind fun _ => neverReads_writeBytes _
    | none => exact (neverReads_writeBytes _).bind fun _ => neverReads_updateMessageLength _ _
  exact (inside_write (hlast _) s).bind fun _ => inside_pure _

theorem inside_unregisterProcess (id : UInt32) : Inside (d.unregisterProcess env c id) := by
  refine inside_withStream nofun fun s => ?_
  refine (inside_write ((neverReads_writeMessageHeader _ _ _ _).bind fun _ =>
    neverReads_writeBytes _) s).bind fun s => ?_
  refine (inside_onBackend _).bind fun r => ?_
  exact (inside_write (neverReads_writeBytes _) s).bind fun _ => inside_pure _

theorem inside_createLock (pid : UInt32) (pathLength : UInt16) (path : PathString)
    (acquireX : Bool) : Inside (d.createLock env c pid pathLength path acquireX) := by
  refine inside_withStream (inside_pure _) fun s => ?_
  refine (inside_write (neverReads_writeMessageHeader _ _ _ _) s).bind fun s => ?_
  refine (inside_onBackend _).bind fun r => ?_
  have hrest : NeverReads (do
      writeUInt32 env.host pid
      writeUInt16 env.host pathLength
      copyLengthSeek path
      writeUInt16 env.host r.1.status) :=
    (neverReads_writeBytes _).bind fun _ => (neverReads_writeBytes _).bind fun _ =>
      (neverReads_copyLengthSeek path).bind fun _ => neverReads_writeBytes _
  exact (inside_write hrest s).bind fun _ => inside_pure _

variable {input : Stream} (hcap : input.length ≤ input.capacity)

include hcap

theorem inside_sendBack (id : UInt8) (act : Except Fault (UInt16 × Finset LockRequest × Daemon)) :
    Inside (sendBack env c input id d act) := by
  refine inside_withStream (inside_pure _) fun s => ?_
  refine (inside_write (neverReads_writeMessageHeader _ _ _ _) s).bind fun s => ?_
  refine Inside.bind (by rw [run_readBody hcap]; exact inside_pure _) fun body => ?_
  refine (inside_write (neverReads_echo _ _) s).bind fun s => ?_
  refine (inside_onBackend _).bind fun r => ?_
  exact (inside_write (neverReads_writeBytes _) s).bind fun _ => inside_pure _

theorem inside_acquireLock (pid : UInt32) (path : PathString) (mode : UInt8) :
    Inside (d.acquireLock env c input pid path mode) := by
  rw [acquireLock_eq_sendBack]
  exact inside_sendBack env c _ hcap _ _

theorem inside_releaseLock (pid : UInt32) (path : PathString) (mode : UInt8) :
    Inside (d.releaseLock env c input pid path mode) := by
  rw [releaseLock_eq_sendBack]
  exact inside_sendBack env c _ hcap _ _

/-- A number at the start of a message. -/
theorem inside_readUInt32 : Inside (onStream (readUInt32 env.host input)) := by
  apply inside_onStream
  by_cases hroom : input.pos + 4 ≤ input.length
  · rw [readUInt32, run_map UInt32.ofNat (run_readUInt env.host hcap hroom)]
    nofun
  · rw [readUInt32, run_map UInt32.ofNat (run_readUInt_short env.host hroom)]
    nofun

theorem inside_listLocksOfProcess (length : UInt32) :
    Inside (d.receiveMessageListLocksOfProcess env c input length) := by
  rw [receiveMessageListLocksOfProcess]
  split
  · exact inside_pure _
  · refine (inside_readUInt32 env hcap).bind fun r => ?_
    refine (inside_newListing env _).bind fun s => ?_
    refine (inside_finishListing ?_ s).bind fun _ => inside_pure _
    cases d.backend.processes.lookup r.1 with
    | none =>
        exact (neverReads_reserve _ _).bind fun _ => (neverReads_writeBytes _).bind fun _ =>
          neverReads_writeBytes _
    | some p =>
        refine (neverReads_reserve _ _).bind fun _ => (neverReads_writeBytes _).bind fun _ =>
          (neverReads_writeBytes _).bind fun _ => neverReads_writeRecords (fun heap x => ?_) _ _
        exact (neverReads_reserve _ _).bind fun _ => (neverReads_writeBytes _).bind fun _ =>
          (neverReads_copyExtendSeek _).bind fun _ => neverReads_writeBytes _

omit hcap

theorem inside_listConnections : Inside (d.receiveMessageListConnections env c) := by
  refine (inside_newListing env _).bind fun s => (inside_finishListing ?_ s).bind fun _ =>
    inside_pure _
  refine neverReads_writeRecords (fun heap x => ?_) _ _
  exact (neverReads_reserve _ _).bind fun _ => (neverReads_writeBytes _).bind fun _ =>
    (neverReads_writeBytes _).bind fun _ => neverReads_writeBytes _

theorem inside_listProcesses : Inside (d.receiveMessageListProcesses env c) := by
  refine (inside_newListing env _).bind fun s => (inside_finishListing ?_ s).bind fun _ =>
    inside_pure _
  refine neverReads_writeRecords (fun heap x => ?_) _ _
  exact (neverReads_reserve _ _).bind fun _ => (neverReads_writeBytes _).bind fun _ =>
    neverReads_writeBytes _

theorem inside_listLocks : Inside (d.receiveMessageListLocks env c) := by
  refine (inside_newListing env _).bind fun s => (inside_finishListing ?_ s).bind fun _ =>
    inside_pure _
  refine neverReads_writeRecords (fun heap x => ?_) _ _
  exact (neverReads_reserve _ _).bind fun _ => (neverReads_writeBytes _).bind fun _ =>
    (neverReads_writeBytes _).bind fun _ => (neverReads_copyExtendSeek _).bind fun _ =>
      neverReads_writeBytes _

end Handlers

/-- Reading moves the position only. -/
def OnlyMoves (act : StreamM α) : Prop :=
  ∀ s a s', act s = .ok (a, s') → s'.buffer = s.buffer ∧ s'.length = s.length

theorem OnlyMoves.bind {act : StreamM α} {f : α → StreamM β} (h : OnlyMoves act)
    (hf : ∀ a, OnlyMoves (f a)) : OnlyMoves (act >>= f) := by
  intro s b s' hrun
  obtain ⟨⟨a, s₁⟩, hact, hrun⟩ := bind_eq_ok.mp hrun
  obtain ⟨hbuffer, hlength⟩ := h s a s₁ hact
  obtain ⟨hbuffer', hlength'⟩ := hf a s₁ b s' hrun
  exact ⟨hbuffer'.trans hbuffer, hlength'.trans hlength⟩

theorem onlyMoves_pure (a : α) : OnlyMoves (pure a) := by
  intro s b s' h
  cases h
  exact ⟨rfl, rfl⟩

theorem OnlyMoves.map {act : StreamM α} (h : OnlyMoves act) (f : α → β) : OnlyMoves (f <$> act) := by
  rw [map_eq_pure_bind]
  exact h.bind fun _ => onlyMoves_pure _

theorem onlyMoves_pointerBytes (n : Nat) : OnlyMoves (pointerBytes n) := by
  intro s bs s' h
  rw [pointerBytes] at h
  grind

theorem onlyMoves_tell : OnlyMoves tell := by
  intro s a s' h
  cases h
  exact ⟨rfl, rfl⟩

theorem onlyMoves_seek (p : Nat) : OnlyMoves (seek p) := by
  intro s a s' h
  cases h
  exact ⟨rfl, rfl⟩

theorem onlyMoves_takeBytes (n : Nat) : OnlyMoves (takeBytes n) :=
  (onlyMoves_pointerBytes n).bind fun _ => onlyMoves_tell.bind fun _ =>
    (onlyMoves_seek _).bind fun _ => onlyMoves_pure _

theorem onlyMoves_readUInt8 : OnlyMoves readUInt8 := by
  intro s b s' h
  rw [readUInt8] at h
  split at h
  · exact ((onlyMoves_takeBytes 1).bind fun _ => onlyMoves_pure _) s b s' h
  · cases h
    exact ⟨rfl, rfl⟩

theorem onlyMoves_readUInt (host : ByteOrder) (k : Nat) : OnlyMoves (readUInt host k) := by
  intro s b s' h
  rw [readUInt] at h
  split at h
  · exact ((onlyMoves_takeBytes k).bind fun _ => onlyMoves_pure _) s b s' h
  · cases h
    exact ⟨rfl, rfl⟩

theorem onlyMoves_readLockRequest (host : ByteOrder) : OnlyMoves (readLockRequest host) :=
  ((onlyMoves_readUInt host 4).map _).bind fun _ =>
    ((onlyMoves_readUInt host 2).map _).bind fun _ => (onlyMoves_pointerBytes _).bind fun _ =>
      onlyMoves_tell.bind fun _ => (onlyMoves_seek _).bind fun _ =>
        onlyMoves_readUInt8.bind fun _ => onlyMoves_pure _

/-- A handler that reads a message about a lock first. -/
theorem inside_lockRequest_iff {host : ByteOrder} {s : Stream} (hpos : s.pos = 5)
    (hlen : 5 ≤ s.length) (hcap : s.length ≤ s.capacity)
    {f : (UInt32 × UInt16 × PathString × UInt8) × Stream → Except DaemonFault α}
    (hf : ∀ r s', readLockRequest host s = .ok (r, s') → Inside (f (r, s'))) :
    Inside (onStream (readLockRequest host s) >>= f) ↔ pathEnd host s.bytes ≤ s.bytes.length := by
  rw [← readLockRequest_inside_iff host hpos hlen hcap]
  cases hread : readLockRequest host s with
  | ok r =>
      refine ⟨fun _ => nofun, fun _ => ?_⟩
      show Inside (f r)
      exact hf r.1 r.2 hread
  | error fault =>
      constructor
      · intro h heq
        apply h
        rw [heq]
        rfl
      · intro h heq
        apply h
        exact congrArg Except.error (DaemonFault.stream.inj (Except.error.inj heq))

/-- The message does not say that its path is longer than the message. -/
def pathInside (host : ByteOrder) (bs : List UInt8) : Bool :=
  if bs.headD 0 = MsgId.createLock ∨ bs.headD 0 = MsgId.releaseLock ∨
      bs.headD 0 = MsgId.acquireLock then decide (pathEnd host bs ≤ bs.length)
  else true

/-- What the handler of a message reads, behind the header. -/
theorem inside_handleMessage_iff (env : Env) (c : Conn) (id : UInt8) (length : UInt32) (d : Daemon)
    {s : Stream} (hpos : s.pos = 5) (hlen : 5 ≤ s.length) (hcap : s.length ≤ s.capacity) :
    Inside (d.handleMessage env c id length s) ↔
      (id = MsgId.createLock ∨ id = MsgId.releaseLock ∨ id = MsgId.acquireLock →
        pathEnd env.host s.bytes ≤ s.bytes.length) := by
  have hmessage : ∀ {f : (UInt32 × UInt16 × PathString × UInt8) × Stream →
      Except DaemonFault Handled},
      (∀ r s', s'.length ≤ s'.capacity → Inside (f (r, s'))) →
      (Inside (onStream (readLockRequest env.host s) >>= f) ↔
        pathEnd env.host s.bytes ≤ s.bytes.length) := by
    intro f hf
    refine inside_lockRequest_iff hpos hlen hcap fun r s' hread => hf r s' ?_
    obtain ⟨hbuffer, hlength⟩ := onlyMoves_readLockRequest env.host _ r s' hread
    rw [capacity, hbuffer, hlength]
    exact hcap
  have hrequest : ∀ {f : (UInt32 × UInt16 × PathString × UInt8) × Stream →
      Except DaemonFault Handled},
      (id = MsgId.createLock ∨ id = MsgId.releaseLock ∨ id = MsgId.acquireLock) →
      (∀ r s', s'.length ≤ s'.capacity → Inside (f (r, s'))) →
      (Inside (onStream (readLockRequest env.host s) >>= f) ↔
        (id = MsgId.createLock ∨ id = MsgId.releaseLock ∨ id = MsgId.acquireLock →
          pathEnd env.host s.bytes ≤ s.bytes.length)) := by
    intro f hid hf
    rw [hmessage hf]
    exact ⟨fun h _ => h, fun h => h hid⟩
  have hother : ∀ {act : Except DaemonFault Handled}, Inside act →
      ¬ (id = MsgId.createLock ∨ id = MsgId.releaseLock ∨ id = MsgId.acquireLock) →
      (Inside act ↔ (id = MsgId.createLock ∨ id = MsgId.releaseLock ∨ id = MsgId.acquireLock →
        pathEnd env.host s.bytes ≤ s.bytes.length)) :=
    fun hact hid => ⟨fun _ h => absurd h hid, fun _ => hact⟩
  rcases msgId_cases id with rfl | rfl | rfl | rfl | rfl | rfl | rfl | rfl | rfl | hid
  · exact hother (inside_listConnections env c d) (by decide)
  · exact hother (inside_listProcesses env c d) (by decide)
  · exact hother (inside_listLocks env c d) (by decide)
  · exact hother (inside_listLocksOfProcess env c d hcap length) (by decide)
  · refine hother ?_ (by decide)
    exact (inside_readUInt32 env hcap).bind fun r => inside_registerProcess env c d r.1
  · refine hother ?_ (by decide)
    exact (inside_readUInt32 env hcap).bind fun r => inside_unregisterProcess env c d r.1
  · exact hrequest (Or.inl rfl) fun r s' _ => inside_createLock env c d _ _ _ _
  · exact hrequest (Or.inr (Or.inl rfl)) fun r s' h => inside_releaseLock env c d h _ _ _
  · exact hrequest (Or.inr (Or.inr rfl)) fun r s' h => inside_acquireLock env c d h _ _ _
  · rw [handleMessage_of_notMem hid]
    refine hother (inside_pure _) ?_
    rintro (rfl | rfl | rfl) <;> exact hid (by decide)

/-- The header of a message that has one. -/
theorem receiveMessageInternal_eq (env : Env) (c : Conn) (d : Daemon) {input : Stream}
    (hpos : input.pos = 0) (hlen : 5 ≤ input.length) (hcap : input.length ≤ input.capacity) :
    ∃ length, d.receiveMessageInternal env c input =
      d.handleMessage env c (input.bytes.headD 0) length { input with pos := 5 } := by
  obtain ⟨length, hid, hlength⟩ := run_header env.host hpos hlen hcap
  refine ⟨length, ?_⟩
  rw [receiveMessageInternal, hid]
  show (onStream (readUInt32 env.host { input with pos := 1 }) >>= _) = _
  rw [hlength]
  rfl

/-- The daemon reads no byte behind the end of a message if and only if the message does not
    say that its path is longer than the message. -/
theorem reads_inside_iff (env : Env) (c : Conn) (d : Daemon) {input : Stream}
    (hpos : input.pos = 0) (hlen : 5 ≤ input.length) (hcap : input.length ≤ input.capacity) :
    d.receiveMessageInternal env c input ≠ .error (.stream .readOutside) ↔
      pathInside env.host input.bytes = true := by
  obtain ⟨length, hrun⟩ := receiveMessageInternal_eq env c d hpos hlen hcap
  rw [hrun]
  show Inside _ ↔ _
  rw [inside_handleMessage_iff env c _ length d (s := { input with pos := 5 }) rfl hlen hcap,
    pathInside]
  show (_ → pathEnd env.host input.bytes ≤ input.bytes.length) ↔ _
  split
  · rename_i hid
    exact ⟨fun h => decide_eq_true (h hid), fun h _ => of_decide_eq_true h⟩
  · rename_i hid
    exact ⟨fun _ => rfl, fun _ h => absurd h hid⟩

/-- A request to acquire a lock whose path is said to have a byte, and has none. -/
def overlong : List UInt8 := [MsgId.acquireLock, 0, 0, 0, 6, 0, 0, 0, 1, 0, 1]

/-- The byte behind the message is read. -/
theorem overlong_read_outside :
    ¬ ∀ (env : Env) (c : Conn) (d : Daemon) (input : Stream), input.pos = 0 → 5 ≤ input.length →
      input.length ≤ input.capacity →
        d.receiveMessageInternal env c input ≠ .error (.stream .readOutside) := by
  intro h
  exact h .plain 0 {} (ofBytes overlong) rfl (by decide) (by decide) (by rfl)

/-- Process 0 has created the lock `a` and given it back. -/
def lending : Daemon where
  backend := Backend.after 1
    [.registerProcess, .createLock 0 [0x61] true, .releaseLock 0 [0x61] 2]

/-- Process 0 asks for the lock `a` in mode S. -/
def borrowing : List UInt8 := [MsgId.acquireLock, 0, 0, 0, 8, 0, 0, 0, 0, 0, 1, 0x61, 0]

/-- The path is read, and the request is answered. -/
theorem reads_inside_iff_borrowing :
    lending.receiveMessageInternal .plain 0 (ofBytes borrowing) ≠ .error (.stream .readOutside) ∧
      ((lending.receiveMessageInternal .plain 0 (ofBytes borrowing)).toOption.map
        (·.1.length)) = some 1 := by
  refine ⟨?_, by decide +kernel⟩
  rw [reads_inside_iff .plain 0 lending rfl (by decide) (by decide)]
  decide

end Daemon

end Tclm.Server
