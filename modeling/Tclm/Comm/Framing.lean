/-
  Tclm.Comm.Framing

  Messages on a byte stream: how the bytes are split into reads does not matter
  for what the receive callback gets.

  `frame m` are the bytes of a message.  As long as the front of the stream is
  the beginning of a frame, a turn of the loop either hands the message over or
  waits for more bytes; the rest is an induction on the messages for one read and
  on the reads for the whole stream.
-/

import Tclm.Comm.Connection

namespace Tclm.Comm

/-- The kind of a message and its body. -/
abbrev Message := UInt8 × List UInt8

/-- The bytes of a message. -/
def frame (m : Message) : List UInt8 := m.1 :: beBytes 4 m.2.length ++ m.2

/-- A sequence of messages on the wire. -/
def frames (ms : List Message) : List UInt8 := (ms.map frame).flatten

/-- The length of the body leaves room for the header. -/
def Message.Fits (m : Message) : Prop := m.2.length ≤ 2 ^ 32 - 6

instance Message.decidableFits (m : Message) : Decidable m.Fits := Nat.decLe ..

/-- What the callback can see of a stream. -/
def Stream.view (s : Stream) : List UInt8 × Nat × Nat := (s.bytes, s.pos, s.length)

/-- A stream with exactly the bytes of a message, positioned at its start. -/
def Message.view (m : Message) : List UInt8 × Nat × Nat := (frame m, 0, 5 + m.2.length)

theorem length_frame (m : Message) : (frame m).length = 5 + m.2.length := by
  rw [frame, List.length_append, List.length_cons, length_beBytes]

@[simp] theorem frames_nil : frames [] = [] := rfl

@[simp] theorem frames_cons (m : Message) (ms : List Message) :
    frames (m :: ms) = frame m ++ frames ms := rfl

theorem frames_append (ms ns : List Message) : frames (ms ++ ns) = frames ms ++ frames ns := by
  rw [frames, List.map_append, List.flatten_append]
  rfl

/-- Where a message ends is seen from its header. -/
theorem frame_append_inj {m m' : Message} {rest rest' : List UInt8} (hm : m.Fits) (hm' : m'.Fits)
    (h : frame m ++ rest = frame m' ++ rest') : m = m' ∧ rest = rest' := by
  rw [Message.Fits] at hm hm'
  rw [frame, frame, List.append_assoc, List.append_assoc] at h
  obtain ⟨hheader, hbody⟩ := List.append_inj h (by simp)
  obtain ⟨hid, hfield⟩ := List.cons_eq_cons.mp hheader
  have hlen : m.2.length = m'.2.length := by
    have hval := congrArg beVal hfield
    rw [beVal_beBytes_of_lt (by omega), beVal_beBytes_of_lt (by omega)] at hval
    exact hval
  obtain ⟨hbytes, hrest⟩ := List.append_inj hbody hlen
  exact ⟨Prod.ext hid hbytes, hrest⟩

/-- Fewer messages take fewer bytes. -/
theorem length_frames_take_le (ms : List Message) {n k : Nat} (h : n ≤ k) :
    (frames (ms.take n)).length ≤ (frames (ms.take k)).length := by
  have hsplit := frames_append ((ms.take k).take n) ((ms.take k).drop n)
  rw [List.take_append_drop, List.take_take, Nat.min_eq_left h] at hsplit
  rw [hsplit, List.length_append]
  omega

/-- The bytes are the beginning of a frame, but not all of it. -/
def ProperPrefix (tail : List UInt8) : Prop :=
  ∃ m : Message, m.Fits ∧ tail.length < (frame m).length ∧ ∃ more, tail ++ more = frame m

namespace Connection

/-- Feed the reads to `data_in` one by one.  For every read, the streams that the callback
    got; `heaps i` answers the allocation for read `i`, `loops i` those of its turns. -/
def feed (heaps : Nat → Heap) (loops : Nat → Nat → Heap) (fuel : Nat) :
    Connection → List (List UInt8) → Except ReceiveFault (List (List Stream) × Connection)
  | c, [] => .ok ([], c)
  | c, chunk :: chunks => do
      let (_, outs, c') ← c.dataIn (heaps 0) (loops 0) fuel (.data chunk)
      let (outss, c'') ← feed (fun i => heaps (i + 1)) (fun i => loops (i + 1)) fuel c' chunks
      pure (outs :: outss, c'')

-- ============================================================================
-- One turn
-- ============================================================================

/-- The header of the frame at the front gives its length. -/
theorem headerLength_frame {c : Connection} {m : Message} {future rest : List UInt8}
    (h : c.pending ++ future = frame m ++ rest) (hfits : m.Fits) (hlen : 5 ≤ c.pending.length) :
    c.headerLength = m.2.length := by
  have hheader : (m.1 :: beBytes 4 m.2.length).length = 5 := by
    rw [List.length_cons, length_beBytes]
  have hfive : c.pending.take 5 = m.1 :: beBytes 4 m.2.length := by
    have htake := congrArg (List.take 5) h
    rw [List.take_append_of_le_length hlen, frame, List.append_assoc,
      List.take_append_of_le_length hheader.ge, ← hheader, List.take_length] at htake
    rw [← hheader]
    exact htake
  have hfour : (c.pending.drop 1).take 4 = beBytes 4 m.2.length := by
    have hdrop := congrArg (List.drop 1) hfive
    rw [List.drop_take] at hdrop
    exact hdrop
  rw [Message.Fits] at hfits
  rw [headerLength, hfour, beVal_beBytes_of_lt (by omega)]

/-- Where allocations succeed, the header can be read. -/
theorem seesHeader_of_ample {heap : Heap} (c : Connection) (h : heap.Ample) :
    c.seesHeader heap = true := by
  obtain ⟨enough, s, hensure, -, -, hample⟩ := Stream.filled_new.ensure heap (l := 5) (by decide)
  rw [seesHeader, hasRoom, hensure, h.1, hample h]
  exact Bool.or_true _

/-- Where allocations succeed, so does the one for the message at the front. -/
theorem allocates_of_ample {heap : Heap} (c : Connection) (h : heap.Ample) :
    c.allocates heap = true := by
  have hroom : ∀ {s : Stream} {out : List UInt8} {l : Nat}, s.Filled out →
      out.length + l ≤ 2 ^ 63 → hasRoom heap l s = true := by
    intro s out l hs hl
    obtain ⟨enough, s', hensure, -, -, hample⟩ := hs.ensure heap hl
    rw [hasRoom, hensure]
    exact hample h
  have hlt := c.headerLength_lt
  have hwanted := c.wantedIbSize.toNat_lt
  rw [allocates]
  split
  · have hzeros : Stream.Filled ⟨List.replicate 8 0, 5, 5⟩ (List.replicate 5 0) :=
      ⟨rfl, rfl, rfl, by decide⟩
    exact hroom hzeros (by rw [List.length_replicate]; omega)
  · rw [h.1, hroom Stream.filled_new (by rw [List.length_nil]; omega)]
    rfl

/-- The front of the buffer is not a whole message yet. -/
def Waits (c : Connection) : Prop :=
  c.Consistent ∧ c.receiveCallback = true ∧
    (5 ≤ c.pending.length → c.pending.length < 5 + c.headerLength)

/-- A complete message at the front is handed over. -/
theorem turn_complete {heap : Heap} {c : Connection} {m : Message} {future rest : List UInt8}
    (hc : c.Consistent) (hcb : c.receiveCallback = true) (hheap : heap.Ample)
    (h : c.pending ++ future = frame m ++ rest) (hfits : m.Fits)
    (hlen : 5 + m.2.length ≤ c.pending.length) :
    ∃ s c', c.turn heap = .ok (true, some s, c') ∧ s.view = m.view ∧ c'.Consistent ∧
      c'.receiveCallback = true ∧ c'.pending ++ future = rest ∧
      c'.pending.length + 5 ≤ c.pending.length := by
  have hhead := headerLength_frame h hfits (by omega)
  have hexp := c.toNat_expected
  rw [Message.Fits] at hfits
  rw [hhead, Nat.mod_eq_of_lt (by omega)] at hexp
  rw [hc.length_pending] at hlen
  obtain ⟨t, ht, hturns⟩ := turn_spec hc heap
  have hcons := hturns.consistent hc
  cases hturns with
  | idle hheader hrest =>
      by_cases hzero : c.wantedIbSize = 0
      · have := hheader hzero
        omega
      · have := hrest hzero
        omega
  | unread hsees =>
      rw [c.seesHeader_of_ample hheap] at hsees
      cases hsees
  | header _ hrest => omega
  | discard _ hcb' =>
      rw [hcb] at hcb'
      cases hcb'
  | starve _ _ _ _ halloc =>
      rw [c.allocates_of_ample hheap] at halloc
      cases halloc
  | @deliver rb s _ _ _ _ _ hwf hrb hpos hlength hbytes =>
      rw [hhead] at hrb
      have hfront : c.pending.take (5 + m.2.length) = frame m := by
        have htake := congrArg (List.take (5 + m.2.length)) h
        rw [List.take_append_of_le_length (by rw [hc.length_pending]; exact hlen),
          List.take_append_of_le_length (length_frame m).ge,
          List.take_of_length_le (length_frame m).le] at htake
        exact htake
      refine ⟨s, _, ht, ?_, hcons, hcb, ?_, ?_⟩
      · rw [Stream.view, Message.view, hpos, hlength, hexp, hbytes (by rw [hexp, hhead]), hhead,
          hfront]
      · show rb.contents ++ future = rest
        rw [← List.take_append_drop (5 + m.2.length) c.pending, hfront, List.append_assoc,
          List.append_cancel_left_eq] at h
        rw [hrb, h]
      · show rb.contents.length + 5 ≤ c.pending.length
        rw [hrb, List.length_drop, hc.length_pending]
        omega

/-- An incomplete message at the front stays there. -/
theorem turn_incomplete (heap : Heap) {c : Connection} {m : Message} {future rest : List UInt8}
    (hc : c.Consistent) (hcb : c.receiveCallback = true)
    (h : c.pending ++ future = frame m ++ rest) (hfits : m.Fits)
    (hlen : c.pending.length < 5 + m.2.length) :
    ∃ c', c.turn heap = .ok (false, none, c') ∧ c'.Waits ∧ c'.pending = c.pending := by
  have hwaits : ∀ {c' : Connection}, c'.Consistent → c'.receiveCallback = true →
      c'.pending = c.pending → c'.Waits := by
    intro c' hc' hcb' hsame
    refine ⟨hc', hcb', fun hfive => ?_⟩
    rw [← hsame] at h hlen
    rw [headerLength_frame h hfits hfive]
    exact hlen
  have hmsg : 5 ≤ c.receiveBuffer.size → ¬ c.expected.toNat ≤ c.receiveBuffer.size := by
    intro hfive hle
    rw [← hc.length_pending] at hfive hle
    have hhead := headerLength_frame h hfits hfive
    rw [Message.Fits] at hfits
    rw [c.toNat_expected, hhead, Nat.mod_eq_of_lt (by omega)] at hle
    omega
  obtain ⟨t, ht, hturns⟩ := turn_spec hc heap
  have hcons := hturns.consistent hc
  cases hturns with
  | idle | unread => exact ⟨c, ht, hwaits hc hcb rfl, rfl⟩
  | header => exact ⟨_, ht, hwaits hcons hcb rfl, rfl⟩
  | discard _ _ hsize hle => exact absurd hle (hmsg hsize)
  | starve _ _ hsize hle => exact absurd hle (hmsg hsize)
  | deliver _ _ hsize hle => exact absurd hle (hmsg hsize)

-- ============================================================================
-- One read
-- ============================================================================

variable {ms : List Message} {tail future : List UInt8}

/-- A message that is not complete ends the loop. -/
theorem receiveLoop_incomplete {heaps : Nat → Heap} {fuel : Nat} {c : Connection} {m : Message}
    {rest : List UInt8} (hc : c.Consistent) (hcb : c.receiveCallback = true)
    (h : c.pending ++ future = frame m ++ rest) (hfits : m.Fits)
    (hlen : c.pending.length < 5 + m.2.length) :
    ∃ c', receiveLoop heaps (fuel + 1) c = .ok ([], c') ∧ c'.Waits ∧ c'.pending = c.pending := by
  obtain ⟨c', ht, hwaits, hsame⟩ := turn_incomplete (heaps 0) hc hcb h hfits hlen
  refine ⟨c', ?_, hwaits, hsame⟩
  rw [receiveLoop, ht]
  rfl

/-- The loop hands over the complete messages at the front, and these only. -/
theorem receiveLoop_frames {heaps : Nat → Heap} {fuel : Nat} {c : Connection}
    (hms : ∀ m ∈ ms, m.Fits) (htail : ProperPrefix tail) (hheaps : ∀ i, (heaps i).Ample)
    (hc : c.Consistent) (hcb : c.receiveCallback = true)
    (h : c.pending ++ future = frames ms ++ tail) (hfuel : c.pending.length < fuel) :
    ∃ outs c' done todo, receiveLoop heaps fuel c = .ok (outs, c') ∧ ms = done ++ todo ∧
      outs.map Stream.view = done.map Message.view ∧ c'.Waits ∧
      c'.pending ++ future = frames todo ++ tail := by
  induction ms generalizing heaps fuel c with
  | nil =>
      obtain ⟨m, hfits, hlt, more, hmore⟩ := htail
      obtain ⟨fuel, rfl⟩ : ∃ k, fuel = k + 1 := ⟨fuel - 1, by omega⟩
      rw [frames_nil, List.nil_append] at h
      have hlen := congrArg List.length h
      rw [List.length_append] at hlen
      rw [length_frame] at hlt
      have hfront : c.pending ++ (future ++ more) = frame m ++ [] := by
        rw [← List.append_assoc, h, hmore, List.append_nil]
      obtain ⟨c', hloop, hwaits, hsame⟩ := receiveLoop_incomplete hc hcb hfront hfits (by omega)
      exact ⟨[], c', [], [], hloop, rfl, rfl, hwaits, by rw [hsame]; exact h⟩
  | cons m ms ih =>
      obtain ⟨fuel, rfl⟩ : ∃ k, fuel = k + 1 := ⟨fuel - 1, by omega⟩
      have hfits := hms m List.mem_cons_self
      have hfront : c.pending ++ future = frame m ++ (frames ms ++ tail) := by
        rw [h, frames_cons, List.append_assoc]
      by_cases hlen : 5 + m.2.length ≤ c.pending.length
      · obtain ⟨s, c₁, ht, hview, hc₁, hcb₁, h₁, hlt⟩ :=
          turn_complete hc hcb (hheaps 0) hfront hfits hlen
        obtain ⟨outs, c', done, todo, hloop, rfl, hviews, hwaits, hrest⟩ :=
          @ih (fun i => heaps (i + 1)) fuel c₁ (fun m' hm' => hms m' (List.mem_cons_of_mem m hm'))
            (fun i => hheaps (i + 1)) hc₁ hcb₁ h₁ (by omega)
        refine ⟨s :: outs, c', m :: done, todo, ?_, rfl, ?_, hwaits, hrest⟩
        · rw [receiveLoop, ht]
          simp only [hloop]
          rfl
        · rw [List.map_cons, List.map_cons, hview, hviews]
      · obtain ⟨c', hloop, hwaits, hsame⟩ :=
          receiveLoop_incomplete hc hcb hfront hfits (by omega)
        exact ⟨[], c', [], m :: ms, hloop, rfl, rfl, hwaits, by rw [hsame]; exact h⟩

/-- While it waits, the buffer holds less than the longest message. -/
theorem Waits.length_lt {c : Connection} (h : c.Waits) : c.pending.length < 2 ^ 32 + 5 := by
  have := c.headerLength_lt
  have := h.2.2
  omega

/-- A read of at most 10000 bytes hands over the messages that it completes. -/
theorem dataIn_frames {heap : Heap} {heaps : Nat → Heap} {fuel : Nat} {c : Connection}
    {chunk : List UInt8} (hms : ∀ m ∈ ms, m.Fits) (htail : ProperPrefix tail)
    (hheap : heap.Ample) (hheaps : ∀ i, (heaps i).Ample) (hc : c.Waits)
    (hchunk : chunk.length ≤ 10000) (h : c.pending ++ (chunk ++ future) = frames ms ++ tail)
    (hfuel : c.pending.length + chunk.length < fuel) :
    ∃ outs c' done todo, c.dataIn heap heaps fuel (.data chunk) = .ok (true, outs, c') ∧
      ms = done ++ todo ∧ outs.map Stream.view = done.map Message.view ∧ c'.Waits ∧
      c'.pending ++ future = frames todo ++ tail := by
  have hlt := hc.length_lt
  have hsize := hc.1.length_pending
  rcases hc.1.wf.write_spec heap chunk with ⟨rb, hok, -⟩ | ⟨e, rb, -, -, -, hfail⟩
  · obtain ⟨hcons, hcont⟩ := hc.1.receive hok
    have hfront : pending { c with receiveBuffer := rb } ++ future = frames ms ++ tail := by
      rw [pending, hcont, List.append_assoc, h]
    have hlen : (pending { c with receiveBuffer := rb }).length < fuel := by
      rw [pending, hcont, List.length_append]
      exact hfuel
    obtain ⟨outs, c', done, todo, hloop, hsplit, hviews, hwaits, hrest⟩ :=
      receiveLoop_frames hms htail hheaps hcons hc.2.1 hfront hlen
    refine ⟨outs, c', done, todo, ?_, hsplit, hviews, hwaits, hrest⟩
    simp only [dataIn, hok, hloop]
    rfl
  · rcases hfail with ⟨-, k, hnone⟩ | ⟨-, hbig⟩
    · have hsome := hheap.2.1 k
      rw [hnone] at hsome
      cases hsome
    · omega

-- ============================================================================
-- All reads
-- ============================================================================

/-- Reads one by one hand over the messages that they complete. -/
theorem feed_frames {heaps : Nat → Heap} {loops : Nat → Nat → Heap} {fuel : Nat} {c : Connection}
    {chunks : List (List UInt8)} (hms : ∀ m ∈ ms, m.Fits) (htail : ProperPrefix tail)
    (hheaps : ∀ i, (heaps i).Ample) (hloops : ∀ i j, (loops i j).Ample) (hc : c.Waits)
    (hchunks : ∀ chunk ∈ chunks, chunk.length ≤ 10000)
    (h : c.pending ++ (chunks.flatten ++ future) = frames ms ++ tail)
    (hfuel : c.pending.length + chunks.flatten.length < fuel) :
    ∃ outss c' done todo, feed heaps loops fuel c chunks = .ok (outss, c') ∧
      outss.length = chunks.length ∧ ms = done ++ todo ∧
      outss.flatten.map Stream.view = done.map Message.view ∧ c'.Waits ∧
      c'.pending ++ future = frames todo ++ tail := by
  induction chunks generalizing heaps loops c ms with
  | nil => exact ⟨[], c, [], ms, rfl, rfl, rfl, rfl, hc, by simpa using h⟩
  | cons chunk chunks ih =>
      rw [List.flatten_cons, List.length_append] at hfuel
      rw [List.flatten_cons, List.append_assoc] at h
      have hfuel₁ : c.pending.length + chunk.length < fuel := by omega
      obtain ⟨outs, c₁, done₁, todo₁, hread, rfl, hviews₁, hwaits₁, h₁⟩ :=
        dataIn_frames hms htail (hheaps 0) (hloops 0) hc (hchunks chunk List.mem_cons_self) h hfuel₁
      have hlen : c₁.pending.length ≤ c.pending.length + chunk.length := by
        have hall := congrArg List.length h
        have hrest := congrArg List.length h₁
        simp only [frames_append, List.length_append] at hall hrest
        omega
      obtain ⟨outss, c', done, todo, hfeed, hcount, rfl, hviews, hwaits, hrest⟩ :=
        @ih todo₁ (fun i => heaps (i + 1)) (fun i => loops (i + 1)) c₁
          (fun m hm => hms m (List.mem_append_right done₁ hm)) (fun i => hheaps (i + 1))
          (fun i => hloops (i + 1)) hwaits₁
          (fun chunk' hmem => hchunks chunk' (List.mem_cons_of_mem chunk hmem)) h₁ (by omega)
      refine ⟨outs :: outss, c', done₁ ++ done, todo, ?_, ?_, (List.append_assoc ..).symm, ?_,
        hwaits, hrest⟩
      · simp only [feed, hread, bind, Except.bind, hfeed]
        rfl
      · rw [List.length_cons, List.length_cons, hcount]
      · rw [List.flatten_cons, List.map_append, List.map_append, hviews₁, hviews]

/-- The first reads do not depend on the later ones. -/
theorem feed_take {heaps : Nat → Heap} {loops : Nat → Nat → Heap} {fuel : Nat} {c c' : Connection}
    {chunks : List (List UInt8)} {outss : List (List Stream)}
    (h : feed heaps loops fuel c chunks = .ok (outss, c')) (k : Nat) :
    ∃ c₁, feed heaps loops fuel c (chunks.take k) = .ok (outss.take k, c₁) := by
  induction k generalizing heaps loops c chunks outss with
  | zero => exact ⟨c, by rw [List.take_zero, List.take_zero]; rfl⟩
  | succ k ih =>
      cases chunks with
      | nil =>
          cases h
          exact ⟨_, rfl⟩
      | cons chunk chunks =>
          rw [feed] at h
          obtain ⟨⟨open', outs, c₁⟩, hread, h⟩ := bind_eq_ok.mp h
          obtain ⟨⟨outss', c₂⟩, hfeed, hpure⟩ := bind_eq_ok.mp h
          cases hpure
          obtain ⟨c₃, hfeed'⟩ := ih hfeed
          refine ⟨c₃, ?_⟩
          simp only [List.take_succ_cons, feed, hread, bind, Except.bind, hfeed']
          rfl

/-- A message is among the first ones that were handed over exactly when all its bytes are
    among those that came in. -/
theorem Waits.handed_over_iff {c : Connection} {done todo : List Message} {received : List UInt8}
    (hc : c.Waits) (hms : ∀ m ∈ todo, m.Fits) (h : c.pending ++ future = frames todo ++ tail)
    (hreceived : received.length = (frames done).length + c.pending.length) {n : Nat}
    (hn : n ≤ (done ++ todo).length) :
    n ≤ done.length ↔ (frames ((done ++ todo).take n)).length ≤ received.length := by
  constructor
  · intro hle
    have := length_frames_take_le (done ++ todo) hle
    rw [List.take_left] at this
    omega
  · intro hle
    by_contra hlt
    cases todo with
    | nil =>
        rw [List.append_nil] at hn
        exact hlt hn
    | cons m todo =>
        -- the next message is not complete
        have hnext := length_frames_take_le (done ++ m :: todo) (n := done.length + 1) (k := n)
          (by omega)
        have htake : (done ++ m :: todo).take (done.length + 1) = done ++ [m] := by
          rw [List.take_length_add_append]
          rfl
        rw [htake, frames_append, List.length_append, frames_cons, frames_nil, List.append_nil,
          length_frame] at hnext
        rw [frames_cons, List.append_assoc] at h
        have hincomplete : c.pending.length < 5 + m.2.length := by
          by_cases hfive : 5 ≤ c.pending.length
          · rw [← headerLength_frame h (hms m List.mem_cons_self) hfive]
            exact hc.2.2 hfive
          · omega
        omega

/-- However the bytes of a sequence of messages are split into reads, the callback gets exactly
    these messages, each in the read that completes it, and the rest stays in the buffer. -/
theorem framing_independent_of_reads {heaps : Nat → Heap} {loops : Nat → Nat → Heap} {fuel : Nat}
    {chunks : List (List UInt8)} (hms : ∀ m ∈ ms, m.Fits) (htail : ProperPrefix tail)
    (hheaps : ∀ i, (heaps i).Ample) (hloops : ∀ i j, (loops i j).Ample)
    (hchunks : ∀ chunk ∈ chunks, chunk ≠ [] ∧ chunk.length ≤ 10000)
    (hsplit : chunks.flatten = frames ms ++ tail) (hfuel : chunks.flatten.length < fuel) :
    ∃ outss c', feed heaps loops fuel { receiveCallback := true } chunks = .ok (outss, c') ∧
      outss.length = chunks.length ∧
      outss.flatten.map Stream.view = ms.map Message.view ∧
      c'.pending = tail ∧
      ∀ k n, n ≤ ms.length → (n ≤ (outss.take k).flatten.length ↔
        (frames (ms.take n)).length ≤ (chunks.take k).flatten.length) := by
  have hnew : Waits { receiveCallback := true } := ⟨⟨.inl rfl, .inl rfl⟩, rfl, nofun⟩
  -- what holds after any number of reads
  have hrun : ∀ k, ∃ outss c' done todo,
      feed heaps loops fuel { receiveCallback := true } (chunks.take k) = .ok (outss, c') ∧
      outss.length = (chunks.take k).length ∧ ms = done ++ todo ∧
      outss.flatten.map Stream.view = done.map Message.view ∧ c'.Waits ∧
      c'.pending ++ (chunks.drop k).flatten = frames todo ++ tail := by
    intro k
    have hflat : (chunks.take k).flatten ++ (chunks.drop k).flatten = chunks.flatten := by
      rw [← List.flatten_append, List.take_append_drop]
    have hlen := congrArg List.length hflat
    rw [List.length_append] at hlen
    refine feed_frames hms htail hheaps hloops hnew
      (fun chunk hmem => (hchunks chunk (List.mem_of_mem_take hmem)).2) ?_ ?_
    · show [] ++ _ = _
      rw [List.nil_append, hflat, hsplit]
    · show 0 + _ < _
      omega
  -- the messages that were handed over after any number of reads
  have htime : ∀ {k : Nat} {done todo : List Message} {c' : Connection}, c'.Waits →
      ms = done ++ todo → c'.pending ++ (chunks.drop k).flatten = frames todo ++ tail →
      ∀ n, n ≤ ms.length → (n ≤ done.length ↔
        (frames (ms.take n)).length ≤ (chunks.take k).flatten.length) := by
    intro k done todo c' hwaits hdone hrest n hn
    subst hdone
    have hreceived : (chunks.take k).flatten.length =
        (frames done).length + c'.pending.length := by
      have hall := congrArg List.length hsplit
      have hlater := congrArg List.length hrest
      rw [← List.take_append_drop k chunks, List.flatten_append] at hall
      simp only [frames_append, List.length_append] at hall hlater
      omega
    exact hwaits.handed_over_iff (fun m hm => hms m (List.mem_append_right done hm)) hrest
      hreceived hn
  obtain ⟨outss, c', done, todo, hfeed, hcount, hdone, hviews, hwaits, hrest⟩ :=
    hrun chunks.length
  have htodo : todo = [] := by
    have hlast := (htime hwaits hdone hrest ms.length (Nat.le_refl _)).mpr (by
      rw [List.take_length, List.take_length, hsplit, List.length_append]
      omega)
    rw [hdone, List.length_append] at hlast
    exact List.eq_nil_of_length_eq_zero (by omega)
  rw [List.take_length] at hfeed hcount
  rw [htodo, List.drop_length, List.flatten_nil, List.append_nil] at hrest
  rw [htodo, List.append_nil] at hdone
  refine ⟨outss, c', hfeed, hcount, by rw [hviews, hdone], hrest, fun k n hn => ?_⟩
  obtain ⟨c₁, htake⟩ := feed_take hfeed k
  obtain ⟨outss₁, c₂, done₁, todo₁, hfeed₁, -, hdone₁, hviews₁, hwaits₁, hrest₁⟩ := hrun k
  rw [htake] at hfeed₁
  cases hfeed₁
  have hlen := congrArg List.length hviews₁
  rw [List.length_map, List.length_map] at hlen
  rw [hlen]
  exact htime hwaits₁ hdone₁ hrest₁ n hn

/-- Two messages in three reads: an empty one that is complete after the second read, and one
    with a body that is complete after the third, which also holds the start of another. -/
theorem framing_independent_of_reads_three :
    ∃ outss c', feed (fun _ => .zeros) (fun _ _ => .zeros) 14 { receiveCallback := true }
        [[1, 0, 0], [0, 0, 2, 0], [0, 0, 1, 7, 3]] = .ok (outss, c') ∧
      outss.length = 3 ∧
      outss.flatten.map Stream.view = [(1, []), (2, [7])].map Message.view ∧
      c'.pending = [3] ∧
      ∀ k n, n ≤ 2 → (n ≤ (outss.take k).flatten.length ↔
        (frames ([(1, []), (2, [7])].take n)).length ≤
          (([[1, 0, 0], [0, 0, 2, 0], [0, 0, 1, 7, 3]] : List (List UInt8)).take k).flatten.length)
    := by
  have htail : ProperPrefix [3] := ⟨(3, []), by decide, by decide, [0, 0, 0, 0], by decide⟩
  have hms : ∀ m : Message, m ∈ [((1, []) : Message), (2, [7])] → m.Fits := by decide
  have hchunks : ∀ chunk ∈ ([[1, 0, 0], [0, 0, 2, 0], [0, 0, 1, 7, 3]] : List (List UInt8)),
      chunk ≠ [] ∧ chunk.length ≤ 10000 := by decide
  exact framing_independent_of_reads hms htail (fun _ => Heap.ample_zeros)
    (fun _ _ => Heap.ample_zeros) hchunks (by decide) (show 12 < 14 by decide)

end Connection

end Tclm.Comm
