/-
  Tclm.Comm.Link

  One direction of a connection, from `Connection::send` on one side to the receive
  callback on the other: the send queue, the bytes that the kernel holds, and the
  receive buffer.

  The socket takes any number of bytes at a time, and a read returns any number of
  those that have arrived, so that messages are cut and joined in any way on their way.
  The link is nevertheless a queue of messages (`link_simulates`): each one is handed
  over once, in order, and as it was sent (`delivered_in_order`).
-/

import Tclm.Comm.Messages
import Tclm.Comm.Sending
import Tclm.Lib.Simulation

open Tclm.Comm.Stream

namespace Tclm.Comm

-- ============================================================================
-- The block of a stream that is handed over
-- ============================================================================

/-- A stream does not grow to more than twice what is needed. -/
theorem Stream.capacity_ensure {heap : Heap} {l : Nat} {s s' : Stream} {enough : Bool}
    (h : ensureRemainingCapacity heap l s = .ok (enough, s')) (hl : s.pos + l < 2 ^ 63) :
    s'.capacity ≤ max s.capacity (2 * (s.pos + l)) := by
  rw [ensureRemainingCapacity] at h
  split at h
  · cases h
    exact Nat.le_max_left _ _
  · rename_i hzero
    split at h
    · rename_i hempty
      have hsmall : l.testBit 63 = false := by
        rw [testBit_63 (by omega)]
        exact decide_eq_false (by omega)
      rw [hsmall] at h
      simp only [Bool.false_eq_true, if_false] at h
      split at h
      · cases h
        exact Nat.le_max_left _ _
      · rename_i block hblock
        cases h
        have hlen := heap.length_malloc _ _ hblock
        have hlog := Nat.log2_self_le hzero
        have hcap : capacity { s with buffer := block } = 2 ^ (Nat.log2 l + 1) := hlen
        rw [hcap, Nat.pow_succ]
        omega
    · split at h
      · rename_i hneed
        split at h
        · cases h
        · rename_i nc hnc
          split at h
          · cases h
            exact Nat.le_max_left _ _
          · split at h
            · cases h
              exact Nat.le_max_left _ _
            · rename_i block hblock
              cases h
              have hlen := heap.length_realloc _ _ hblock
              have hsum : ULong.add l s.pos = l + s.pos := ULong.add_eq (by omega)
              rw [hsum] at hneed hnc
              have hle : _ ≤ 2 * (s.pos + l) := doubleUntil_le
                (fun k hk => by
                  simp only [decide_not, Bool.not_eq_false', decide_eq_true_eq] at hk
                  omega) (by omega) hnc
              have hcap : capacity { s with buffer := block.overwrite 0 s.buffer } =
                  (block.overwrite 0 s.buffer).length := rfl
              rw [hcap, List.overwrite, List.take_zero, List.nil_append, List.length_append,
                List.length_drop, hlen]
              have : s.capacity = s.buffer.length := rfl
              omega
      · cases h
        exact Nat.le_max_left _ _

/-- The computation works on the block that it finds. -/
def Stream.KeepsCapacity {α : Type} (act : StreamM α) : Prop :=
  ∀ ⦃s s' : Stream⦄ ⦃a : α⦄, act s = .ok (a, s') → s'.capacity = s.capacity

theorem Stream.KeepsCapacity.bind {α β : Type} {act : StreamM α} {f : α → StreamM β}
    (h : KeepsCapacity act) (hf : ∀ a, KeepsCapacity (f a)) : KeepsCapacity (act >>= f) := by
  intro s s'' b hrun
  obtain ⟨⟨a, s'⟩, hact, hnext⟩ := bind_eq_ok.mp hrun
  exact (hf a hnext).trans (h hact)

theorem Stream.keepsCapacity_memcpy (bs : List UInt8) : KeepsCapacity (memcpy bs) := by
  intro s s' _ h
  rw [memcpy] at h
  split at h
  · rename_i hroom
    cases h
    exact List.length_overwrite hroom
  · cases h

theorem Stream.keepsCapacity_seek (p : Nat) : KeepsCapacity (seek p) := by
  intro s s' _ h
  cases h
  rfl

theorem Stream.keepsCapacity_setLength (l : Nat) : KeepsCapacity (setLength l) := by
  intro s s' _ h
  cases h
  rfl

namespace Connection

/-- The block of a stream that the callback gets has at most this size. -/
def maxBlock : Nat := 2 ^ 34

theorem capacity_deliverRest {heap : Heap} {wanted : UInt32} {s out : Stream} {c c' : Connection}
    {progress : Bool} (hpos : s.pos = 5) (hcap : s.capacity = 8)
    (h : c.deliverRest heap wanted s = .ok (progress, some out, c')) : out.capacity ≤ maxBlock := by
  have hwanted := (wanted - 5).toNat_lt
  rw [deliverRest] at h
  split at h
  · obtain ⟨⟨enough, s₁⟩, hensure, h⟩ := bind_eq_ok.mp h
    have hle := capacity_ensure hensure (by omega)
    cases enough with
    | false => cases h
    | true =>
        obtain ⟨⟨u, s₂⟩, hcopy, h⟩ := bind_eq_ok.mp h
        cases h
        have hkeeps := ((keepsCapacity_memcpy _).bind fun _ => (keepsCapacity_seek 0).bind fun _ =>
          keepsCapacity_setLength _) hcopy
        rw [hkeeps, maxBlock]
        omega
  · cases h

theorem capacity_headerTurn {heap : Heap} {out : Stream} {c c' : Connection} {progress : Bool}
    (hwf : c.receiveBuffer.Wf) (hsize : 5 ≤ c.receiveBuffer.size)
    (h : c.headerTurn heap = .ok (progress, some out, c')) : out.capacity ≤ maxBlock := by
  rw [headerTurn] at h
  split at h
  · obtain ⟨⟨enough, s₁⟩, hensure, h⟩ := bind_eq_ok.mp h
    cases enough with
    | false => cases h
    | true =>
        obtain ⟨enough', s', hensure', hfilled, hroom, -⟩ :=
          filled_new.ensure heap (l := 5) (by decide)
        have heq := hensure.symm.trans hensure'
        cases heq
        obtain ⟨s₂, hread, hfilled', hcap⟩ := readHeader_peek hwf hsize hfilled (hroom rfl)
        obtain ⟨⟨wanted, s₃⟩, hread', h⟩ := bind_eq_ok.mp h
        have heq := hread'.symm.trans hread
        cases heq
        have hpos : s₂.pos = 5 := by
          have hlen : c.pending.length = c.receiveBuffer.size := hwf.length_contents
          rw [hfilled'.pos, List.length_take]
          omega
        dsimp only at h
        split at h
        · exact capacity_deliverRest hpos (hcap.trans (capacity_header hensure)) h
        · cases h
  · cases h

theorem capacity_messageTurn {heap : Heap} {out : Stream} {c c' : Connection} {progress : Bool}
    (h : c.messageTurn heap = .ok (progress, some out, c')) : out.capacity ≤ maxBlock := by
  have hwanted := c.wantedIbSize.toNat_lt
  rw [messageTurn] at h
  split at h
  · split at h
    · obtain ⟨⟨enough, s₁⟩, hensure, h⟩ := bind_eq_ok.mp h
      have hle := capacity_ensure hensure (by show 0 + _ < _; omega)
      have hzero : capacity {} = 0 := rfl
      cases enough with
      | false => cases h
      | true =>
          obtain ⟨⟨u, s₂⟩, hcopy, h⟩ := bind_eq_ok.mp h
          cases h
          have hkeeps := ((keepsCapacity_memcpy _).bind fun _ => keepsCapacity_setLength _) hcopy
          rw [hkeeps, maxBlock]
          rw [hzero] at hle
          simp only [Nat.zero_add] at hle
          omega
    · cases h
  · cases h

theorem capacity_turn {heap : Heap} {out : Stream} {c c' : Connection} {progress : Bool}
    (hc : c.Consistent) (h : c.turn heap = .ok (progress, some out, c')) :
    out.capacity ≤ maxBlock := by
  rw [turn] at h
  split at h
  · rename_i hcond
    exact capacity_headerTurn hc.wf hcond.2 h
  · split at h
    · exact capacity_messageTurn h
    · cases h

/-- The streams that a read hands over have blocks of bounded size. -/
theorem capacity_receiveLoop {heaps : Nat → Heap} {fuel : Nat} {c c' : Connection}
    {outs : List Stream} (hc : c.Consistent) (h : receiveLoop heaps fuel c = .ok (outs, c')) :
    ∀ out ∈ outs, out.capacity ≤ maxBlock := by
  induction fuel generalizing heaps c outs with
  | zero => cases h
  | succ fuel ih =>
      have htoList : ∀ {out : Option Stream} {progress : Bool} {c₁ : Connection},
          c.turn (heaps 0) = .ok (progress, out, c₁) →
          c₁.Consistent ∧ ∀ s ∈ out.toList, s.capacity ≤ maxBlock := by
        intro out progress c₁ hturn
        obtain ⟨t, ht, hturns⟩ := turn_spec hc (heaps 0)
        cases ht.symm.trans hturn
        refine ⟨hturns.consistent hc, fun s hs => ?_⟩
        rw [Option.mem_toList] at hs
        cases hs
        exact capacity_turn hc hturn
      rw [receiveLoop] at h
      split at h
      · cases h
      · rename_i hturn
        cases h
        exact (htoList hturn).2
      · rename_i out c₁ hturn
        obtain ⟨⟨outs', c₂⟩, hloop, h⟩ := bind_eq_ok.mp h
        cases h
        obtain ⟨hc₁, hout⟩ := htoList hturn
        intro s hs
        rcases List.mem_append.mp hs with hs | hs
        · exact hout s hs
        · exact ih hc₁ hloop s hs

end Connection

/-- What the callback gets is the message. -/
theorem Stream.carries_of_view {s : Stream} {m : Message} (hview : s.view = m.view)
    (hcap : s.capacity ≤ Connection.maxBlock) : s.Carries m := by
  obtain ⟨hbytes, hrest⟩ := Prod.mk.inj hview
  obtain ⟨hpos, hlength⟩ := Prod.mk.inj hrest
  refine ⟨hpos, hbytes, ?_, ?_⟩
  · have hlen := congrArg List.length hbytes
    rw [Stream.bytes, List.length_take, length_frame] at hlen
    rw [capacity]
    omega
  · rw [Connection.maxBlock] at hcap
    omega

-- ============================================================================
-- The link
-- ============================================================================

/-- The stream holds the bytes of a message that the other side accepts. -/
def Stream.Frames (s : Stream) (m : Message) : Prop :=
  m.Fits ∧ s.bytes = frame m ∧ s.length ≤ s.capacity

/-- One direction of a connection.  One read may complete several messages; those for which
    the callback has not been called yet are in `handed`. -/
structure Link where
  sending : Sending
  wire : List UInt8 := []
  receiving : Connection := { receiveCallback := true }
  handed : List Stream := []

/-- A message is sent, or the callback is called; everything else happens in between. -/
inductive LinkEvent where
  | send (s : Stream)
  | move
  | receive (s : Stream)

/-- The bytes of the messages, as they go into a queue and come out of it. -/
def LinkEvent.view : LinkEvent → Option (Lts.QueueEvent (List UInt8))
  | send s => some (.put s.bytes)
  | move => none
  | receive s => some (.take s.bytes)

namespace Link

/-- A connection that was added to a communications manager, with a receive callback. -/
def new (epfd : Bool) : Link := { sending := .attached epfd }

/-- There is enough memory, and the connection stays open. -/
inductive Step (l : Link) : LinkEvent → Link → Prop where
  | send {ctl : Bool} {s : Stream} (hs : ∃ m, s.Frames m) :
      Step l (.send s) { l with sending := l.sending.send ctl s }
  | dataOut {ctl stays : Bool} {result : WriteResult} {bs : List UInt8} {c : Sending}
      (hanswer : l.sending.MayAnswer result)
      (hout : l.sending.dataOut ctl result = .ok (stays, bs, c)) :
      Step l .move { l with sending := c, wire := l.wire ++ bs }
  | mainLoop : Step l .move { l with sending := l.sending.mainLoop }
  | dataIn {heap : Heap} {heaps : Nat → Heap} {fuel : Nat} {chunk rest : List UInt8} {stays : Bool}
      {outs : List Stream} {c : Connection} (hheap : heap.Ample) (hheaps : ∀ i, (heaps i).Ample)
      (hwire : l.wire = chunk ++ rest) (hchunk : chunk.length ≤ 10000)
      (hfuel : l.receiving.pending.length + chunk.length < fuel)
      (hin : l.receiving.dataIn heap heaps fuel (.data chunk) = .ok (stays, outs, c)) :
      Step l .move { l with wire := rest, receiving := c, handed := l.handed ++ outs }
  | receive {s : Stream} {rest : List Stream} (hhanded : l.handed = s :: rest) :
      Step l (.receive s) { l with handed := rest }

/-- The messages are on their way: the first ones are handed over, the bytes of the others
    are somewhere between the send queue and the receive buffer. -/
structure InFlight (l : Link) (ms : List Message) : Prop where
  ordered : l.sending.Ordered
  waits : l.receiving.Waits
  fits : ∀ m ∈ ms, m.Fits
  split : ∃ done todo, ms = done ++ todo ∧ List.Forall₂ Stream.Carries l.handed done ∧
    l.receiving.pending ++ (l.wire ++ l.sending.unsent) = frames todo

theorem inFlight_new (epfd : Bool) : (new epfd).InFlight [] where
  ordered := Sending.ordered_attached epfd
  waits := ⟨Connection.Reachable.consistent (.callback true .new), rfl, nofun⟩
  fits := nofun
  split := ⟨[], [], rfl, .nil, rfl⟩

/-- No byte is on its way. -/
structure Empty (l : Link) : Prop where
  handed : l.handed = []
  pending : l.receiving.pending = []
  wire : l.wire = []
  unsent : l.sending.unsent = []

variable {l l' : Link} {ms : List Message}

theorem InFlight.empty_iff (h : l.InFlight ms) : l.Empty ↔ ms = [] := by
  obtain ⟨done, todo, rfl, hdone, htodo⟩ := h.split
  constructor
  · rintro ⟨hhanded, hpending, hwire, hunsent⟩
    rw [hhanded] at hdone
    cases hdone
    rw [hpending, hwire, hunsent] at htodo
    cases todo with
    | nil => rfl
    | cons m todo =>
        have hnone : frame m ++ frames todo = [] := htodo.symm
        have hlen := congrArg List.length (List.append_eq_nil_iff.mp hnone).1
        rw [length_frame, List.length_nil] at hlen
        omega
  · intro hnil
    obtain ⟨rfl, rfl⟩ := List.append_eq_nil_iff.mp hnil
    obtain ⟨hpending, hrest⟩ := List.append_eq_nil_iff.mp htodo
    obtain ⟨hwire, hunsent⟩ := List.append_eq_nil_iff.mp hrest
    refine ⟨?_, hpending, hwire, hunsent⟩
    generalize l.handed = handed at hdone
    cases hdone
    rfl

theorem InFlight.send {s : Stream} {m : Message} (h : l.InFlight ms) (ctl : Bool)
    (hs : s.Frames m) : InFlight { l with sending := l.sending.send ctl s } (ms ++ [m]) := by
  obtain ⟨hfits, hbytes, hcap⟩ := hs
  have hlen : 0 < s.length := by
    have := congrArg List.length hbytes
    rw [Stream.bytes, List.length_take, length_frame] at this
    omega
  obtain ⟨hordered, hunsent, -⟩ := h.ordered.send ctl hlen hcap
  obtain ⟨done, todo, rfl, hdone, htodo⟩ := h.split
  refine ⟨hordered, h.waits, ?_, done, todo ++ [m], List.append_assoc .., hdone, ?_⟩
  · intro m' hm'
    rcases List.mem_append.mp hm' with hm' | hm'
    · exact h.fits m' hm'
    · rw [List.mem_singleton.mp hm']
      exact hfits
  · show l.receiving.pending ++ (l.wire ++ (l.sending.send ctl s).unsent) = frames (todo ++ [m])
    rw [hunsent, hbytes, frames_append, ← htodo, frames_cons, frames_nil, List.append_nil]
    simp only [List.append_assoc]

theorem InFlight.dataOut {ctl stays : Bool} {result : WriteResult} {bs : List UInt8} {c : Sending}
    (h : l.InFlight ms) (hanswer : l.sending.MayAnswer result)
    (hout : l.sending.dataOut ctl result = .ok (stays, bs, c)) :
    InFlight { l with sending := c, wire := l.wire ++ bs } ms := by
  obtain ⟨bs', c', hout', hordered, hunsent, -⟩ := h.ordered.dataOut ctl hanswer
  cases hout.symm.trans hout'
  obtain ⟨done, todo, hms, hdone, htodo⟩ := h.split
  refine ⟨hordered, h.waits, h.fits, done, todo, hms, hdone, ?_⟩
  rw [← htodo, ← hunsent, List.append_assoc]

theorem InFlight.mainLoop (h : l.InFlight ms) :
    InFlight { l with sending := l.sending.mainLoop } ms := by
  obtain ⟨hordered, hunsent, -⟩ := h.ordered.mainLoop
  obtain ⟨done, todo, hms, hdone, htodo⟩ := h.split
  refine ⟨hordered, h.waits, h.fits, done, todo, hms, hdone, ?_⟩
  rw [← htodo, ← hunsent]

theorem forall₂_carries {outs : List Stream} {done : List Message}
    (hviews : outs.map Stream.view = done.map Message.view)
    (hcap : ∀ out ∈ outs, out.capacity ≤ Connection.maxBlock) :
    List.Forall₂ Stream.Carries outs done := by
  induction outs generalizing done with
  | nil =>
      obtain rfl := List.map_eq_nil_iff.mp hviews.symm
      exact .nil
  | cons out outs ih =>
      obtain ⟨m, done, rfl, hview, hviews⟩ := List.map_eq_cons_iff.mp hviews.symm
      exact .cons (Stream.carries_of_view hview.symm (hcap out List.mem_cons_self))
        (ih hviews.symm fun s hs => hcap s (List.mem_cons_of_mem out hs))

/-- A message without a body is a proper prefix of itself with one. -/
theorem properPrefix_nil : ProperPrefix [] :=
  ⟨(0, []), by decide, by decide, frame (0, []), rfl⟩

theorem InFlight.dataIn {heap : Heap} {heaps : Nat → Heap} {fuel : Nat} {chunk rest : List UInt8}
    {stays : Bool} {outs : List Stream} {c : Connection} (h : l.InFlight ms) (hheap : heap.Ample)
    (hheaps : ∀ i, (heaps i).Ample) (hwire : l.wire = chunk ++ rest)
    (hchunk : chunk.length ≤ 10000) (hfuel : l.receiving.pending.length + chunk.length < fuel)
    (hin : l.receiving.dataIn heap heaps fuel (.data chunk) = .ok (stays, outs, c)) :
    InFlight { l with wire := rest, receiving := c, handed := l.handed ++ outs } ms := by
  obtain ⟨done, todo, rfl, hdone, htodo⟩ := h.split
  rw [hwire, List.append_assoc, ← List.append_nil (frames todo)] at htodo
  obtain ⟨outs', c', new, todo', hin', rfl, hviews, hwaits, hrest⟩ :=
    Connection.dataIn_frames (fun m hm => h.fits m (List.mem_append_right done hm))
      properPrefix_nil hheap hheaps h.waits hchunk htodo hfuel
  cases hin.symm.trans hin'
  have hnew : List.Forall₂ Stream.Carries outs new := by
    refine forall₂_carries hviews ?_
    rw [Connection.dataIn] at hin
    split at hin
    · cases hin
    · rename_i rb hwrite
      obtain ⟨⟨outs₁, c₁⟩, hloop, hpure⟩ := bind_eq_ok.mp hin
      cases hpure
      exact Connection.capacity_receiveLoop (h.waits.1.receive hwrite).1 hloop
  refine ⟨h.ordered, hwaits, h.fits, done ++ new, todo', by rw [List.append_assoc],
    List.rel_append hdone hnew, ?_⟩
  rw [List.append_nil] at hrest
  exact hrest

/-- The callback gets the first of the messages. -/
theorem InFlight.receive {s : Stream} {rest : List Stream} (h : l.InFlight ms)
    (hhanded : l.handed = s :: rest) :
    ∃ m ms', ms = m :: ms' ∧ s.Carries m ∧ InFlight { l with handed := rest } ms' := by
  obtain ⟨done, todo, rfl, hdone, htodo⟩ := h.split
  rw [hhanded] at hdone
  cases hdone with
  | @cons _ m _ done hs hdone =>
      exact ⟨m, done ++ todo, rfl, hs, h.ordered, h.waits,
        fun m' hm' => h.fits m' (List.mem_cons_of_mem m hm'), done, todo, rfl, hdone, htodo⟩

/-- The queue of the messages on their way. -/
def Queues (l : Link) (q : List (List UInt8)) : Prop := ∃ ms, q = ms.map frame ∧ l.InFlight ms

theorem link_simulates : Lts.Simulation Step LinkEvent.view Lts.QueueStep Queues where
  visible := by
    rintro l l' _ e d ⟨ms, rfl, h⟩ hstep hview
    cases hstep with
    | @send ctl s hs =>
        obtain ⟨m, hm⟩ := hs
        cases hview
        have hput := Lts.QueueStep.put (ms.map frame) s.bytes
        rw [hm.2.1] at hput ⊢
        exact ⟨_, hput, ms ++ [m], by simp, h.send ctl hm⟩
    | dataOut | mainLoop | dataIn => cases hview
    | @receive s rest hhanded =>
        obtain ⟨m, ms', rfl, hs, h'⟩ := h.receive hhanded
        cases hview
        rw [hs.bytes]
        exact ⟨ms'.map frame, .take _ _, ms', rfl, h'⟩
  internal := by
    rintro l l' _ e ⟨ms, rfl, h⟩ hstep hview
    cases hstep with
    | send | receive => cases hview
    | dataOut hanswer hout => exact ⟨ms, rfl, h.dataOut hanswer hout⟩
    | mainLoop => exact ⟨ms, rfl, h.mainLoop⟩
    | dataIn hheap hheaps hwire hchunk hfuel hin =>
        exact ⟨ms, rfl, h.dataIn hheap hheaps hwire hchunk hfuel hin⟩

-- ============================================================================
-- Everything on its way can arrive
-- ============================================================================

/-- The socket takes all that is left of the first stream. -/
theorem dataOut_all {c : Sending} (h : c.Ordered) {s : Stream} {queue : List Stream}
    (hqueue : c.sendQueue = s :: queue) :
    ∃ bs c', c.MayAnswer (.accepted s.remainingLength) ∧
      c.dataOut true (.accepted s.remainingLength) = .ok (true, bs, c') ∧
      c'.sendQueue = queue := by
  obtain ⟨hpos, hcap⟩ := h.queue s (by rw [hqueue]; exact List.mem_cons_self)
  have hleft : 1 ≤ s.remainingLength := by
    rw [remainingLength]
    omega
  have hmay : c.MayAnswer (.accepted s.remainingLength) := by
    intro s' hs'
    rw [hqueue] at hs'
    cases hs'
    exact ⟨hleft, Nat.le_refl _⟩
  obtain ⟨bs, c', hout, -, -, -⟩ := h.dataOut true hmay
  refine ⟨bs, c', hmay, hout, ?_⟩
  obtain ⟨n, hn⟩ : ∃ n, s.remainingLength = n + 1 := ⟨s.remainingLength - 1, by omega⟩
  have hend : remainingLength { s with pos := s.pos + (n + 1) } = 0 := by
    rw [remainingLength] at hn ⊢
    show s.length - (s.pos + (n + 1)) = 0
    omega
  simp only [Sending.dataOut, hqueue, hn, Sending.run_writeOut hpos hcap] at hout
  obtain ⟨c₁, hadvance, hpure⟩ := bind_eq_ok.mp hout
  cases hpure
  rw [Sending.advance, if_pos hend] at hadvance
  dsimp only at hadvance
  split at hadvance
  · obtain ⟨c₂, hdisable, hswitched⟩ :=
      Sending.switched_disableOut true (c := { c with sendQueue := queue }) h.managed
    cases hadvance.symm.trans hdisable
    exact hswitched.queue
  · cases hadvance
    rfl

/-- A run without a message that is sent or handed over. -/
def Moves (l l' : Link) : Prop := ∃ k, Lts.Trace Step l (List.replicate k .move) l'

theorem Moves.refl (l : Link) : Moves l l := ⟨0, .nil⟩

theorem Moves.step {l₁ : Link} (h : Moves l l₁) (hstep : Step l₁ .move l') : Moves l l' := by
  obtain ⟨k, hrun⟩ := h
  refine ⟨k + 1, ?_⟩
  rw [List.replicate_succ']
  exact hrun.snoc hstep

theorem InFlight.flush (h : l.InFlight ms) :
    ∃ l', Moves l l' ∧ l'.InFlight ms ∧ l'.sending.unsent = [] := by
  -- every turn takes a stream out of the send queue
  have hflush : ∀ n (l₁ : Link), Moves l l₁ → l₁.InFlight ms → l₁.sending.sendQueue.length = n →
      ∃ l', Moves l l' ∧ l'.InFlight ms ∧ l'.sending.unsent = [] := by
    intro n
    induction n with
    | zero =>
        intro l₁ hmoves h₁ hlen
        have hnil := List.eq_nil_of_length_eq_zero hlen
        exact ⟨l₁, hmoves, h₁, (Sending.Leftover.unsent_eq_nil h₁.ordered.queue).mpr hnil⟩
    | succ n ih =>
        intro l₁ hmoves h₁ hlen
        obtain ⟨s, queue, hqueue⟩ := List.exists_cons_of_length_eq_add_one hlen
        obtain ⟨bs, c', hmay, hout, hqueue'⟩ := dataOut_all h₁.ordered hqueue
        refine ih _ (hmoves.step (.dataOut hmay hout)) (h₁.dataOut hmay hout) ?_
        show c'.sendQueue.length = n
        rw [hqueue, List.length_cons] at hlen
        rw [hqueue']
        omega
  exact hflush _ l (.refl l) h rfl

theorem InFlight.drain (h : l.InFlight ms) (hsent : l.sending.unsent = []) :
    ∃ l', Moves l l' ∧ l'.InFlight ms ∧ l'.sending.unsent = [] ∧ l'.wire = [] := by
  -- every read takes at least one byte off the wire
  have hread : ∀ n (l₁ : Link), Moves l l₁ → l₁.InFlight ms → l₁.sending.unsent = [] →
      l₁.wire.length ≤ n → ∃ l', Moves l l' ∧ l'.InFlight ms ∧ l'.sending.unsent = [] ∧ l'.wire = [] := by
    intro n
    induction n with
    | zero =>
        intro l₁ hmoves h₁ hsent hlen
        exact ⟨l₁, hmoves, h₁, hsent, List.eq_nil_of_length_eq_zero (by omega)⟩
    | succ n ih =>
        intro l₁ hmoves h₁ hsent hlen
        by_cases hnil : l₁.wire = []
        · exact ⟨l₁, hmoves, h₁, hsent, hnil⟩
        have hwire : l₁.wire = l₁.wire.take 10000 ++ l₁.wire.drop 10000 :=
          (List.take_append_drop ..).symm
        have hchunk : (l₁.wire.take 10000).length ≤ 10000 := List.length_take_le ..
        have hheaps : ∀ i, ((fun _ => Heap.zeros : Nat → Heap) i).Ample :=
          fun _ => Heap.ample_zeros
        obtain ⟨done, todo, hms, -, htodo⟩ := h₁.split
        rw [hwire, List.append_assoc, ← List.append_nil (frames todo)] at htodo
        obtain ⟨outs, c', -, -, hin, -, -, -, -⟩ :=
          Connection.dataIn_frames (fun m hm => h₁.fits m (hms ▸ List.mem_append_right done hm))
            properPrefix_nil Heap.ample_zeros hheaps h₁.waits hchunk htodo (Nat.lt_succ_self _)
        have hstep := Step.dataIn Heap.ample_zeros hheaps hwire hchunk
          (Nat.lt_succ_self _) hin
        refine ih _ (hmoves.step hstep) (h₁.dataIn Heap.ample_zeros (fun _ => Heap.ample_zeros) hwire
          hchunk (Nat.lt_succ_self _) hin) hsent ?_
        have hpos := List.length_pos_iff.mpr hnil
        show (l₁.wire.drop 10000).length ≤ n
        rw [List.length_drop]
        omega
  exact hread _ l (.refl l) h hsent (Nat.le_refl _)

/-- With no bytes left to read, every message has been handed over. -/
theorem InFlight.all_handed (h : l.InFlight ms) (hsent : l.sending.unsent = [])
    (hwire : l.wire = []) : List.Forall₂ Stream.Carries l.handed ms := by
  obtain ⟨done, todo, rfl, hdone, htodo⟩ := h.split
  rw [hsent, hwire, List.append_nil, List.append_nil] at htodo
  cases todo with
  | nil =>
      rw [List.append_nil]
      exact hdone
  | cons m todo =>
      -- the buffer would hold a whole message, for which the loop does not wait
      exfalso
      have hlen := congrArg List.length htodo
      rw [frames_cons, List.length_append, length_frame] at hlen
      have hfront : l.receiving.pending ++ [] = frame m ++ frames todo := by
        rw [List.append_nil, htodo, frames_cons]
      have hheader := Connection.headerLength_frame hfront
        (h.fits m (List.mem_append_right done List.mem_cons_self)) (by omega)
      have hwait := h.waits.2.2 (by omega)
      omega

theorem Moves.trans {l₁ : Link} (h : Moves l l₁) (h' : Moves l₁ l') : Moves l l' := by
  obtain ⟨k, hrun⟩ := h
  obtain ⟨k', hrun'⟩ := h'
  refine ⟨k + k', ?_⟩
  rw [List.replicate_add]
  exact hrun.append hrun'

/-- What every movement of bytes keeps. -/
theorem Moves.invariant {P : Link → Prop} (h : Moves l l') (hl : P l)
    (hstep : ∀ {l₁ l₂ : Link}, P l₁ → Step l₁ .move l₂ → P l₂) : P l' := by
  obtain ⟨k, hrun⟩ := h
  have hmove : ∀ e ∈ List.replicate k LinkEvent.move, e = .move := fun e he => List.eq_of_mem_replicate he
  generalize List.replicate k LinkEvent.move = es at hrun hmove
  induction hrun with
  | nil => exact hl
  | @snoc l₁ l₂ es e _ he ih =>
      obtain rfl := hmove e (List.mem_append_right es List.mem_cons_self)
      exact hstep (ih fun e he => hmove e (List.mem_append_left _ he)) he

/-- The first message can arrive. -/
theorem InFlight.hand {m : Message} (h : l.InFlight (m :: ms)) :
    ∃ l₁ s l₂, Moves l l₁ ∧ Step l₁ (.receive s) l₂ ∧ s.Carries m ∧ l₂.InFlight ms := by
  obtain ⟨l₁, hmoves₁, h₁, hsent₁⟩ := h.flush
  obtain ⟨l₂, hmoves₂, h₂, hsent₂, hwire₂⟩ := h₁.drain hsent₁
  obtain ⟨s, rest, -, -, hhanded⟩ := List.forall₂_cons_right_iff.mp (h₂.all_handed hsent₂ hwire₂)
  obtain ⟨m', ms', hms, hs, h₃⟩ := h₂.receive hhanded
  obtain ⟨rfl, rfl⟩ := List.cons.inj hms
  exact ⟨l₂, s, _, hmoves₁.trans hmoves₂, .receive hhanded, hs, h₃⟩

/-- The callback is called for one message after the other. -/
theorem trace_receive {ss rest : List Stream} (hhanded : l.handed = ss ++ rest) :
    Lts.Trace Step l (ss.map .receive) { l with handed := rest } := by
  induction ss using List.reverseRecOn generalizing rest with
  | nil =>
      rw [List.nil_append] at hhanded
      rw [← hhanded]
      exact .nil
  | append_singleton ss s ih =>
      rw [List.append_assoc] at hhanded
      rw [List.map_append]
      exact (ih hhanded).snoc (.receive rfl)

/-- The streams that were sent, and those that were handed over. -/
def sent (es : List LinkEvent) : List (List UInt8) :=
  es.filterMap fun e => e.view.bind Lts.QueueEvent.putIn

def received (es : List LinkEvent) : List (List UInt8) :=
  es.filterMap fun e => e.view.bind Lts.QueueEvent.takenOut

theorem sent_eq (es : List LinkEvent) :
    sent es = (es.filterMap LinkEvent.view).filterMap Lts.QueueEvent.putIn :=
  (List.filterMap_filterMap ..).symm

theorem received_eq (es : List LinkEvent) :
    received es = (es.filterMap LinkEvent.view).filterMap Lts.QueueEvent.takenOut :=
  (List.filterMap_filterMap ..).symm

theorem inFlight_of_run {epfd : Bool} {es : List LinkEvent} (h : Lts.Trace Step (new epfd) es l) :
    ∃ ms, l.InFlight ms ∧ sent es = received es ++ ms.map frame := by
  obtain ⟨q, hrun, ms, rfl, hflight⟩ :=
    link_simulates.trace (t := []) ⟨[], rfl, inFlight_new epfd⟩ h
  have horder := Lts.queue_in_order hrun
  rw [List.nil_append, ← sent_eq, ← received_eq] at horder
  exact ⟨ms, hflight, horder⟩

theorem sent_append (es es' : List LinkEvent) : sent (es ++ es') = sent es ++ sent es' :=
  List.filterMap_append

theorem received_append (es es' : List LinkEvent) :
    received (es ++ es') = received es ++ received es' := List.filterMap_append

theorem moves_silent (k : Nat) :
    sent (List.replicate k .move) = [] ∧ received (List.replicate k .move) = [] := by
  induction k with
  | zero => exact ⟨rfl, rfl⟩
  | succ k ih => exact ih

theorem receives_all (ss : List Stream) :
    sent (ss.map .receive) = [] ∧ received (ss.map .receive) = ss.map Stream.bytes := by
  induction ss with
  | nil => exact ⟨rfl, rfl⟩
  | cons s ss ih => exact ⟨ih.1, congrArg (s.bytes :: ·) ih.2⟩

theorem map_bytes_of_carries {ss : List Stream} {ms : List Message}
    (h : List.Forall₂ Stream.Carries ss ms) : ss.map Stream.bytes = ms.map frame := by
  induction h with
  | nil => rfl
  | cons hs _ ih => rw [List.map_cons, List.map_cons, hs.bytes, ih]

/-- The messages on their way can arrive, without another one being sent. -/
theorem InFlight.arrive (h : l.InFlight ms) :
    ∃ more l', Lts.Trace Step l more l' ∧ sent more = [] ∧ received more = ms.map frame := by
  obtain ⟨l₁, ⟨k₁, hrun₁⟩, h₁, hsent₁⟩ := h.flush
  obtain ⟨l₂, ⟨k₂, hrun₂⟩, h₂, hsent₂, hwire₂⟩ := h₁.drain hsent₁
  have hhanded := h₂.all_handed hsent₂ hwire₂
  have hrun₃ : Lts.Trace Step l₂ (l₂.handed.map .receive) { l₂ with handed := [] } :=
    trace_receive (List.append_nil l₂.handed).symm
  refine ⟨_, _, (hrun₁.append hrun₂).append hrun₃, ?_, ?_⟩
  · rw [sent_append, sent_append, (moves_silent k₁).1, (moves_silent k₂).1, (receives_all _).1]
    rfl
  · rw [received_append, received_append, (moves_silent k₁).2, (moves_silent k₂).2,
      (receives_all _).2, map_bytes_of_carries hhanded]
    rfl

/-- However the bytes are cut on their way, the messages are handed over in order, each one
    whole and at most once, and at any time all that were sent can still arrive. -/
theorem delivered_in_order {epfd : Bool} {es : List LinkEvent}
    (h : Lts.Trace Step (new epfd) es l) :
    received es <+: sent es ∧
      (∀ s l', Step l (.receive s) l' → ∃ m, m.Fits ∧ s.Carries m) ∧
      ∃ more l', Lts.Trace Step l more l' ∧ sent more = [] ∧ received (es ++ more) = sent es := by
  obtain ⟨ms, hflight, horder⟩ := inFlight_of_run h
  refine ⟨⟨_, horder.symm⟩, fun s l' hstep => ?_, ?_⟩
  · cases hstep with
    | receive hhanded =>
        obtain ⟨m, ms', rfl, hs, -⟩ := hflight.receive hhanded
        exact ⟨m, hflight.fits m List.mem_cons_self, hs⟩
  · obtain ⟨more, l', hrun, hsent, hreceived⟩ := hflight.arrive
    exact ⟨more, l', hrun, hsent, by rw [received_append, hreceived, horder]⟩

/-- A client registers a process. -/
def registering : Stream := .ofBytes (frame (Request.registerProcess 7).message)

theorem delivered_in_order_registering :
    ∃ more l', Lts.Trace Step { new true with sending := (new true).sending.send true registering }
      more l' ∧ sent more = [] ∧ received more = [frame (Request.registerProcess 7).message] := by
  have hframes : registering.Frames (Request.registerProcess 7).message :=
    ⟨Request.fits (Nat.zero_le _), rfl, Nat.le_refl _⟩
  have hsend : Step (new true) (.send registering)
      { new true with sending := (new true).sending.send true registering } := .send ⟨_, hframes⟩
  have hrun : Lts.Trace Step (new true) ([] ++ [.send registering]) _ := .snoc .nil hsend
  obtain ⟨more, l', hmore, hsent, hreceived⟩ := (delivered_in_order hrun).2.2
  exact ⟨more, l', hmore, hsent, hreceived⟩

end Link

end Tclm.Comm
