/-
  Tclm.Comm.Connection

  The receiving side of a connection, `Connection::data_in` of
  `src/Connection.{h,cpp}`: bytes are collected in a ring buffer until a message
  is complete, which is then handed to the receive callback.

  A message is one byte for its kind, a 32-bit length and a body of that length.
  `wanted_ib_size` is a `uint32_t` and so are the sums with it.  The host is
  little-endian.  Every turn of the loop gets its own answers of the allocator.
-/

import Tclm.Comm.Ringbuffer
import Tclm.Comm.Stream

open Tclm.Comm.Stream

namespace Tclm.Comm

/-- The receive state of a `Connection`. -/
structure Connection where
  receiveBuffer : Ringbuffer := {}
  wantedIbSize : UInt32 := 0
  /-- Whether a receive callback is set. -/
  receiveCallback : Bool := false
deriving DecidableEq, Repr

/-- What `read (fd, ...)` returns. -/
inductive ReadResult where
  | data (bytes : List UInt8)
  | endOfFile
  | error (retry : Bool)
deriving DecidableEq, Repr

/-- `data_in` goes wrong: a stream operation, or writing to the ring buffer; or it has not
    ended within its fuel. -/
inductive ReceiveFault where
  | stream (fault : StreamFault)
  | write (error : WriteError)
  | outOfFuel
deriving DecidableEq, Repr

/-- A turn of the loop: whether there was progress, the stream that the callback got, and
    the connection afterwards. -/
abbrev Turn := Bool × Option Stream × Connection

namespace Connection

/-- Put the header into a new stream and read the size of the message from it. -/
def readHeader (header : List UInt8) : StreamM UInt32 := do
  memcpy header
  setLength 5
  let _ ← readUInt8
  let len ← readUInt32 .little
  pure (5 + len)

/-- Hand over a message right after its header was seen: `s` holds the header, the rest of
    the message goes behind it. -/
def deliverRest (heap : Heap) (wanted : UInt32) (s : Stream) (c : Connection) :
    Except StreamFault Turn :=
  if c.receiveCallback then do
    let (enough, s) ← ensureRemainingCapacity heap (wanted - 5).toNat s
    if enough then do
      let (bs, rb) := (c.receiveBuffer.remove 5).read (wanted - 5).toNat
      let ((), s) ← (do memcpy bs; seek 0; setLength wanted.toNat : StreamM Unit) s
      pure (true, some s, { c with receiveBuffer := rb, wantedIbSize := 0 })
    else pure (true, none, { c with wantedIbSize := 0 })
  else
    let rb := c.receiveBuffer.remove wanted.toNat
    pure (true, none, { c with receiveBuffer := rb, wantedIbSize := 0 })

/-- The branch of the loop for a message whose header has not been seen yet. -/
def headerTurn (heap : Heap) (c : Connection) : Except StreamFault Turn :=
  if heap.calloc then do
    let (enough, s) ← ensureRemainingCapacity heap 5 {}
    if enough then do
      let (wanted, s) ← readHeader (c.receiveBuffer.peek 5) s
      if wanted.toNat ≤ c.receiveBuffer.size then deliverRest heap wanted s c
      else pure (false, none, { c with wantedIbSize := wanted })
    else pure (false, none, c)
  else pure (false, none, c)

/-- The branch of the loop for a message whose header was seen in an earlier read. -/
def messageTurn (heap : Heap) (c : Connection) : Except StreamFault Turn :=
  let wanted := c.wantedIbSize
  if c.receiveCallback then
    if heap.calloc then do
      let (enough, s) ← ensureRemainingCapacity heap wanted.toNat {}
      if enough then do
        let (bs, rb) := c.receiveBuffer.read wanted.toNat
        let ((), s) ← (do memcpy bs; setLength wanted.toNat : StreamM Unit) s
        pure (true, some s, { c with receiveBuffer := rb, wantedIbSize := 0 })
      else pure (true, none, { c with wantedIbSize := 0 })
    else pure (true, none, { c with wantedIbSize := 0 })
  else
    let rb := c.receiveBuffer.remove wanted.toNat
    pure (true, none, { c with receiveBuffer := rb, wantedIbSize := 0 })

/-- One turn of `while (progress)`. -/
def turn (heap : Heap) (c : Connection) : Except StreamFault Turn :=
  if c.wantedIbSize = 0 ∧ 5 ≤ c.receiveBuffer.size then c.headerTurn heap
  else if 0 < c.wantedIbSize ∧ c.wantedIbSize.toNat ≤ c.receiveBuffer.size then c.messageTurn heap
  else .ok (false, none, c)

/-- `while (progress)`, with the streams that the callback gets. -/
def receiveLoop (heaps : Nat → Heap) : Nat → Connection →
    Except ReceiveFault (List Stream × Connection)
  | 0, _ => .error .outOfFuel
  | fuel + 1, c =>
      match c.turn (heaps 0) with
      | .error fault => .error (.stream fault)
      | .ok (false, out, c') => .ok (out.toList, c')
      | .ok (true, out, c') => do
          let (outs, c'') ← receiveLoop (fun i => heaps (i + 1)) fuel c'
          pure (out.toList ++ outs, c'')

/-- `Connection::data_in`; the result says whether the connection stays open. -/
def dataIn (heap : Heap) (heaps : Nat → Heap) (fuel : Nat) (c : Connection) :
    ReadResult → Except ReceiveFault (Bool × List Stream × Connection)
  | .data bytes =>
      match c.receiveBuffer.write heap bytes with
      | (.error e, _) => .error (.write e)
      | (.ok (), rb) => do
          let (outs, c') ← receiveLoop heaps fuel { c with receiveBuffer := rb }
          pure (true, outs, c')
  | .endOfFile => .ok (false, [], c)
  | .error retry => .ok (retry, [], c)

/-- The bytes that have been received and not yet handed over. -/
def pending (c : Connection) : List UInt8 := c.receiveBuffer.contents

/-- The length field of the header at the front. -/
def headerLength (c : Connection) : Nat := beVal ((c.pending.drop 1).take 4)

/-- The size of the message at the front, as the code computes it. -/
def expected (c : Connection) : UInt32 := 5 + UInt32.ofNat c.headerLength

/-- The size is either unknown or that of the message at the front. -/
structure Consistent (c : Connection) : Prop where
  wf : c.receiveBuffer.Wf
  wanted : c.wantedIbSize = 0 ∨
    5 ≤ c.receiveBuffer.size ∧ c.wantedIbSize.toNat = 5 + c.headerLength

-- ============================================================================
-- What a turn does
-- ============================================================================

theorem headerLength_lt (c : Connection) : c.headerLength < 2 ^ 32 := by
  have hlt := beVal_lt ((c.pending.drop 1).take 4)
  have hle : ((c.pending.drop 1).take 4).length ≤ 4 := List.length_take_le 4 _
  have hpow : 256 ^ ((c.pending.drop 1).take 4).length ≤ 256 ^ 4 :=
    Nat.pow_le_pow_right (by decide) hle
  rw [headerLength]
  omega

theorem toNat_expected (c : Connection) : c.expected.toNat = (5 + c.headerLength) % 2 ^ 32 := by
  have hfive : (5 : UInt32).toNat = 5 := rfl
  rw [expected, UInt32.toNat_add, UInt32.toNat_ofNat', hfive]
  omega

/-- The rest of the message behind the header: the sum with 5 may wrap, the difference
    wraps back. -/
theorem toNat_expected_sub (c : Connection) : (c.expected - 5).toNat = c.headerLength := by
  have hlt := c.headerLength_lt
  have hfive : (5 : UInt32).toNat = 5 := rfl
  rw [UInt32.toNat_sub, toNat_expected, hfive]
  omega

/-- Whether there is enough memory for `l` more bytes in a stream. -/
def hasRoom (heap : Heap) (l : Nat) (s : Stream) : Bool :=
  match ensureRemainingCapacity heap l s with
  | .ok (enough, _) => enough
  | .error _ => false

/-- Whether the stream for the message at the front can be allocated.  After the header
    alone the stream has a block of eight bytes and is positioned behind the header. -/
def allocates (heap : Heap) (c : Connection) : Bool :=
  if c.wantedIbSize = 0 then hasRoom heap c.headerLength ⟨List.replicate 8 0, 5, 5⟩
  else heap.calloc && hasRoom heap c.wantedIbSize.toNat {}

/-- Whether the header at the front is known, or can be read. -/
def seesHeader (heap : Heap) (c : Connection) : Bool :=
  c.wantedIbSize ≠ 0 || heap.calloc && hasRoom heap 5 {}

/-- What one turn of the loop can do. -/
inductive Turns (heap : Heap) (c : Connection) : Turn → Prop where
  /-- The header, or the rest of the message, is not there yet. -/
  | idle (hheader : c.wantedIbSize = 0 → c.receiveBuffer.size < 5)
      (hrest : c.wantedIbSize ≠ 0 → c.receiveBuffer.size < 5 + c.headerLength) :
      Turns heap c (false, none, c)
  /-- There is no memory for the header. -/
  | unread (hsees : c.seesHeader heap = false) : Turns heap c (false, none, c)
  /-- The header is there, the rest of the message is not. -/
  | header (hsize : 5 ≤ c.receiveBuffer.size) (hrest : c.receiveBuffer.size < c.expected.toNat) :
      Turns heap c (false, none, { c with wantedIbSize := c.expected })
  /-- Without a callback the message is thrown away. -/
  | discard {rb : Ringbuffer} (hsees : c.seesHeader heap = true) (hcb : c.receiveCallback = false)
      (hsize : 5 ≤ c.receiveBuffer.size) (hmsg : c.expected.toNat ≤ c.receiveBuffer.size)
      (hwf : rb.Wf)
      (hrb : rb.contents = c.pending.drop c.expected.toNat) :
      Turns heap c (true, none, { c with receiveBuffer := rb, wantedIbSize := 0 })
  /-- There is no memory for the message. -/
  | starve (hsees : c.seesHeader heap = true) (hcb : c.receiveCallback = true)
      (hsize : 5 ≤ c.receiveBuffer.size) (hmsg : c.expected.toNat ≤ c.receiveBuffer.size)
      (halloc : c.allocates heap = false) :
      Turns heap c (true, none, { c with wantedIbSize := 0 })
  /-- The callback gets the message. -/
  | deliver {rb : Ringbuffer} {s : Stream} (hsees : c.seesHeader heap = true)
      (hcb : c.receiveCallback = true) (hsize : 5 ≤ c.receiveBuffer.size)
      (hmsg : c.expected.toNat ≤ c.receiveBuffer.size) (halloc : c.allocates heap = true)
      (hwf : rb.Wf)
      (hrb : rb.contents = c.pending.drop (5 + c.headerLength))
      (hpos : s.pos = 0) (hlength : s.length = c.expected.toNat)
      (hbytes : c.expected.toNat = 5 + c.headerLength →
        s.bytes = c.pending.take (5 + c.headerLength)) :
      Turns heap c (true, some s, { c with receiveBuffer := rb, wantedIbSize := 0 })

/-- The header in a new stream. -/
theorem run_readHeader {s : Stream} {header : List UInt8} (hs : s.Filled [])
    (hroom : 5 ≤ s.capacity) (hlen : header.length = 5) :
    ∃ s', readHeader header s = .ok (5 + UInt32.ofNat (beVal (header.drop 1)), s') ∧
      s'.Filled header ∧ s'.capacity = s.capacity := by
  have hpos : s.pos = 0 := hs.pos
  have hover : 0 + header.length ≤ s.buffer.length := by
    rw [hlen, Nat.zero_add]
    exact hroom
  have htake : (s.buffer.overwrite 0 header).take header.length = header := by
    have := @List.take_overwrite_end _ s.buffer header 0 (by omega)
    rwa [List.take_zero, List.nil_append, Nat.zero_add] at this
  have hcap : (s.buffer.overwrite 0 header).length = s.buffer.length := List.length_overwrite hover
  obtain ⟨id, len, rfl⟩ : ∃ id len, header = id :: len := by
    cases header with
    | nil => simp at hlen
    | cons id len => exact ⟨id, len, rfl⟩
  have hlen4 : len.length = 4 := by simpa using hlen
  have hread : Gets (do let _ ← readUInt8; let l ← readUInt32 .little; pure (5 + l)) ([id] ++ len)
      (5 + UInt32.ofNat (beVal len)) := by
    refine (gets_readUInt8 id).bind ?_
    have hlen := (gets_readUInt hlen4).map UInt32.ofNat
    have hsum := hlen.bind (f := fun l => pure (5 + l)) (gets_pure _)
    rwa [List.append_nil] at hsum
  refine ⟨⟨s.buffer.overwrite 0 (id :: len), 5, 5⟩, ?_, ⟨hlen.symm, hlen.symm, htake, ?_⟩, hcap⟩
  · rw [readHeader, run_bind (run_memcpy (by rw [hpos]; exact hover)), hpos]
    have hrest : rest ⟨s.buffer.overwrite 0 (id :: len), 0, 5⟩ = (id :: len) ++ [] := by
      rw [List.append_nil, ← hlen]
      exact htake
    have hcap5 : Stream.length ⟨s.buffer.overwrite 0 (id :: len), 0, 5⟩ ≤
        capacity ⟨s.buffer.overwrite 0 (id :: len), 0, 5⟩ := by
      rw [capacity, hcap]
      exact hroom
    have hgets := hread hcap5 hrest
    have hfive : ([id] ++ len).length = 5 := hlen
    rw [hfive] at hgets
    exact hgets
  · rw [capacity, hcap]
    exact hs.bound

/-- A stream that holds a header only gets its room where `allocates` says so. -/
theorem hasRoom_header {heap : Heap} {s s' : Stream} {header : List UInt8} {l : Nat} {enough : Bool}
    (hs : s.Filled header) (hlen : header.length = 5) (hcap : s.capacity = 8) (hl : l ≤ 2 ^ 32)
    (h : ensureRemainingCapacity heap l s = .ok (enough, s')) :
    hasRoom heap l ⟨List.replicate 8 0, 5, 5⟩ = enough := by
  have hzeros : Filled ⟨List.replicate 8 0, 5, 5⟩ (List.replicate 5 0) :=
    ⟨rfl, rfl, rfl, by decide⟩
  obtain ⟨enough', t, ht, -⟩ := hzeros.ensure heap (l := l) (by rw [List.length_replicate]; omega)
  have hpos : s.pos = 5 := by rw [hs.pos, hlen]
  rw [hasRoom, ht]
  exact (ensure_verdict hcap hpos h ht).symm

/-- The rest of a message goes behind its header. -/
theorem deliverRest_spec {heap : Heap} {c : Connection} {s : Stream} (hwf : c.receiveBuffer.Wf)
    (hzero : c.wantedIbSize = 0) (hsize : 5 ≤ c.receiveBuffer.size)
    (hsees : c.seesHeader heap = true) (hmsg : c.expected.toNat ≤ c.receiveBuffer.size)
    (hs : s.Filled (c.pending.take 5)) (hcap : s.capacity = 8) :
    ∃ t, c.deliverRest heap c.expected s = .ok t ∧ Turns heap c t := by
  rw [deliverRest, toNat_expected_sub]
  by_cases hcb : c.receiveCallback = true
  · have hlt := c.headerLength_lt
    have hfive : (c.pending.take 5).length = 5 := by
      rw [List.length_take, pending, hwf.length_contents]
      omega
    obtain ⟨enough, s₁, hensure, hfilled, hroom, -⟩ :=
      hs.ensure heap (l := c.headerLength) (by omega)
    have hallocates : c.allocates heap = enough := by
      rw [allocates, if_pos hzero]
      exact hasRoom_header hs hfive hcap (by omega) hensure
    rw [if_pos hcb, hensure]
    cases enough with
    | false => exact ⟨_, rfl, .starve hsees hcb hsize hmsg hallocates⟩
    | true =>
        obtain ⟨hwf₁, hcont₁⟩ := hwf.remove_spec 5
        obtain ⟨hbs, hwf₂, hcont₂⟩ := hwf₁.read_spec c.headerLength
        generalize hread : (c.receiveBuffer.remove 5).read c.headerLength = r at *
        have hrb : r.2.contents = c.pending.drop (5 + c.headerLength) := by
          rw [hcont₂, hcont₁, List.drop_drop]
          rfl
        have hbs' : r.1 = (c.pending.drop 5).take c.headerLength := by
          rw [hbs, hcont₁]
          rfl
        have hspace : s₁.pos + r.1.length ≤ s₁.capacity := by
          have hle : r.1.length ≤ c.headerLength := hbs' ▸ List.length_take_le _ _
          have := hroom rfl
          rw [hfilled.pos]
          omega
        have hput : (do memcpy r.1; seek 0; setLength c.expected.toNat : StreamM Unit) s₁ =
            .ok ((), ⟨s₁.buffer.overwrite s₁.pos r.1, 0, c.expected.toNat⟩) := by
          rw [run_bind (run_memcpy hspace)]
          rfl
        refine ⟨_, ?_, .deliver (s := ⟨s₁.buffer.overwrite s₁.pos r.1, 0, c.expected.toNat⟩)
          hsees hcb hsize hmsg hallocates hwf₂ hrb rfl rfl ?_⟩
        · show (do
            let ((), s) ← (do memcpy r.1; seek 0; setLength c.expected.toNat : StreamM Unit) s₁
            pure (true, some s, { c with receiveBuffer := r.2, wantedIbSize := 0 })) = _
          rw [hput]
          rfl
        · intro hexp
          have hlen : s₁.pos + r.1.length = 5 + c.headerLength := by
            rw [hfilled.pos, hfive, hbs', List.length_take, List.length_drop, pending,
              hwf.length_contents]
            omega
          have hle : s₁.pos ≤ s₁.buffer.length := by
            rw [hfilled.pos]
            exact hfilled.length_le
          rw [bytes, hexp, ← hlen, List.take_overwrite_end hle, hlen, hfilled.pos, hfilled.taken,
            hbs', ← List.take_add]
  · rw [if_neg hcb]
    obtain ⟨hwf', hrb⟩ := hwf.remove_spec c.expected.toNat
    exact ⟨_, rfl, .discard hsees (by simpa using hcb) hsize hmsg hwf' hrb⟩

/-- A header that is read leads to the size of the message at the front. -/
theorem readHeader_peek {c : Connection} {s : Stream} (hwf : c.receiveBuffer.Wf)
    (hsize : 5 ≤ c.receiveBuffer.size) (hs : s.Filled []) (hroom : 5 ≤ s.capacity) :
    ∃ s', readHeader (c.receiveBuffer.peek 5) s = .ok (c.expected, s') ∧
      s'.Filled (c.pending.take 5) ∧ s'.capacity = s.capacity := by
  have hlen : (c.pending.take 5).length = 5 := by
    rw [List.length_take, pending, hwf.length_contents]
    omega
  obtain ⟨s', hrun, hrest⟩ := run_readHeader hs hroom hlen
  refine ⟨s', ?_, hrest⟩
  rw [List.drop_take] at hrun
  rw [hwf.peek_eq]
  exact hrun

/-- The block of a new stream for a header. -/
theorem capacity_header {heap : Heap} {s : Stream}
    (h : ensureRemainingCapacity heap 5 {} = .ok (true, s)) : s.capacity = 8 := by
  have hsize : (if (5 : Nat).testBit 63 then 5 else 2 ^ (Nat.log2 5 + 1)) = 8 := by decide
  rw [ensureRemainingCapacity, if_neg (by decide), if_pos rfl, hsize] at h
  cases hm : heap.malloc 8 with
  | none => simp [hm] at h
  | some block =>
      simp only [hm, Except.ok.injEq, Prod.mk.injEq, true_and] at h
      rw [← h]
      exact heap.length_malloc 8 block hm

theorem headerTurn_spec {heap : Heap} {c : Connection} (hwf : c.receiveBuffer.Wf)
    (hzero : c.wantedIbSize = 0) (hsize : 5 ≤ c.receiveBuffer.size) :
    ∃ t, c.headerTurn heap = .ok t ∧ Turns heap c t := by
  have hsees : c.seesHeader heap = (heap.calloc && hasRoom heap 5 {}) := by
    rw [seesHeader, hzero]
    rfl
  rw [headerTurn]
  by_cases hnew : heap.calloc = true
  · obtain ⟨enough, s, hensure, hfilled, hroom, -⟩ := filled_new.ensure heap (l := 5) (by decide)
    rw [hasRoom, hensure, hnew, Bool.true_and] at hsees
    rw [if_pos hnew, hensure]
    cases enough with
    | false => exact ⟨_, rfl, .unread hsees⟩
    | true =>
        have hcap := capacity_header hensure
        obtain ⟨s', hread, hfilled', hcap'⟩ := readHeader_peek hwf hsize hfilled (hroom rfl)
        show ∃ t, (do
          let (wanted, s) ← readHeader (c.receiveBuffer.peek 5) s
          if wanted.toNat ≤ c.receiveBuffer.size then deliverRest heap wanted s c
          else pure (false, none, { c with wantedIbSize := wanted })) = .ok t ∧ Turns heap c t
        rw [hread]
        by_cases hmsg : c.expected.toNat ≤ c.receiveBuffer.size
        · obtain ⟨t, ht, hturns⟩ :=
            deliverRest_spec hwf hzero hsize hsees hmsg hfilled' (hcap'.trans hcap)
          exact ⟨t, (if_pos hmsg).trans ht, hturns⟩
        · exact ⟨_, if_neg hmsg, .header hsize (by omega)⟩
  · rw [Bool.eq_false_of_not_eq_true hnew, Bool.false_and] at hsees
    rw [if_neg hnew]
    exact ⟨_, rfl, .unread hsees⟩

theorem messageTurn_spec {heap : Heap} {c : Connection} (h : c.Consistent)
    (hne : c.wantedIbSize ≠ 0) (hmsg : c.wantedIbSize.toNat ≤ c.receiveBuffer.size) :
    ∃ t, c.messageTurn heap = .ok t ∧ Turns heap c t := by
  obtain ⟨hsize, hwanted⟩ := h.wanted.resolve_left hne
  have hexp : c.expected = c.wantedIbSize := by
    apply UInt32.toNat_inj.mp
    have := c.wantedIbSize.toNat_lt
    rw [toNat_expected, hwanted]
    omega
  have hsees : c.seesHeader heap = true := by
    rw [seesHeader, decide_eq_true hne, Bool.true_or]
  rw [← hexp] at hmsg
  rw [messageTurn, ← hexp]
  by_cases hcb : c.receiveCallback = true
  · rw [if_pos hcb]
    by_cases hnew : heap.calloc = true
    · obtain ⟨enough, s, hensure, hfilled, hroom, -⟩ :=
        filled_new.ensure heap (l := c.expected.toNat) (by
          have := c.expected.toNat_lt
          rw [List.length_nil]
          omega)
      have hallocates : c.allocates heap = enough := by
        rw [allocates, if_neg hne, hasRoom, ← hexp, hensure, hnew, Bool.true_and]
      rw [if_pos hnew, hensure]
      cases enough with
      | false => exact ⟨_, rfl, .starve hsees hcb hsize hmsg hallocates⟩
      | true =>
          obtain ⟨hbs, hwf', hcont⟩ := h.wf.read_spec c.expected.toNat
          generalize hread : c.receiveBuffer.read c.expected.toNat = r at *
          have hrb : r.2.contents = c.pending.drop (5 + c.headerLength) := by
            rw [hcont, hexp, hwanted]
            rfl
          have hlen : r.1.length = c.expected.toNat := by
            rw [hbs, List.length_take, h.wf.length_contents]
            omega
          have hspace : s.pos + r.1.length ≤ s.capacity := by
            rw [hfilled.pos, hlen]
            exact hroom rfl
          have hput : (do memcpy r.1; setLength c.expected.toNat : StreamM Unit) s =
              .ok ((), ⟨s.buffer.overwrite s.pos r.1, s.pos, c.expected.toNat⟩) := by
            rw [run_bind (run_memcpy hspace)]
            rfl
          refine ⟨_, ?_, .deliver (s := ⟨s.buffer.overwrite s.pos r.1, s.pos, c.expected.toNat⟩)
            hsees hcb hsize hmsg hallocates hwf' hrb hfilled.pos rfl fun _ => ?_⟩
          · show (do
              let ((), s) ← (do memcpy r.1; setLength c.expected.toNat : StreamM Unit) s
              pure (true, some s, { c with receiveBuffer := r.2, wantedIbSize := 0 })) = _
            rw [hput]
            rfl
          · have hpos : s.pos = 0 := hfilled.pos
            have htake := @List.take_overwrite_end _ s.buffer r.1 0 (Nat.zero_le _)
            rw [List.take_zero, List.nil_append, Nat.zero_add, hlen] at htake
            rw [bytes, hpos, htake, hbs, hexp, hwanted]
            rfl
    · have hallocates : c.allocates heap = false := by
        rw [allocates, if_neg hne, Bool.eq_false_of_not_eq_true hnew, Bool.false_and]
      rw [if_neg hnew]
      exact ⟨_, rfl, .starve hsees hcb hsize hmsg hallocates⟩
  · rw [if_neg hcb]
    obtain ⟨hwf', hrb⟩ := h.wf.remove_spec c.expected.toNat
    exact ⟨_, rfl, .discard hsees (by simpa using hcb) hsize hmsg hwf' hrb⟩

/-- Every turn from a consistent state goes through. -/
theorem turn_spec {c : Connection} (h : c.Consistent) (heap : Heap) :
    ∃ t, c.turn heap = .ok t ∧ Turns heap c t := by
  rw [turn]
  split
  · rename_i hcond
    exact headerTurn_spec h.wf hcond.1 hcond.2
  · rename_i hheader
    split
    · rename_i hcond
      exact messageTurn_spec h (UInt32.pos_iff_ne_zero.mp hcond.1) hcond.2
    · rename_i hmessage
      refine ⟨_, rfl, .idle (fun hzero => ?_) (fun hne => ?_)⟩
      · by_contra hsize
        exact hheader ⟨hzero, by omega⟩
      · by_contra hsize
        have hwanted := (h.wanted.resolve_left hne).2
        exact hmessage ⟨UInt32.pos_iff_ne_zero.mpr hne, by omega⟩

-- ============================================================================
-- Reachable connections
-- ============================================================================

/-- The size that is remembered is never one that wrapped around: such a size is at most
    four, and the message counts as complete at once. -/
theorem Turns.consistent {heap : Heap} {c : Connection} {t : Turn} (h : c.Consistent)
    (ht : Turns heap c t) : t.2.2.Consistent := by
  cases ht with
  | idle | unread => exact h
  | header hsize hrest =>
      refine ⟨h.wf, .inr ⟨hsize, ?_⟩⟩
      have hlt := c.headerLength_lt
      show c.expected.toNat = 5 + c.headerLength
      rw [toNat_expected] at hrest ⊢
      omega
  | starve => exact ⟨h.wf, .inl rfl⟩
  | discard _ _ _ _ hwf => exact ⟨hwf, .inl rfl⟩
  | deliver _ _ _ _ _ hwf => exact ⟨hwf, .inl rfl⟩

/-- The states of a connection: bytes come in, the loop makes a turn, and the callback is
    set or taken away. -/
inductive Reachable : Connection → Prop where
  | new : Reachable {}
  | receive {c : Connection} {heap : Heap} {bytes : List UInt8} {rb : Ringbuffer}
      (h : Reachable c) (hwrite : c.receiveBuffer.write heap bytes = (.ok (), rb)) :
      Reachable { c with receiveBuffer := rb }
  | turn {c : Connection} {heap : Heap} {t : Turn} (h : Reachable c)
      (ht : c.turn heap = .ok t) : Reachable t.2.2
  | callback {c : Connection} (set : Bool) (h : Reachable c) :
      Reachable { c with receiveCallback := set }

/-- Bytes that come in go behind those that wait. -/
theorem Consistent.receive {c : Connection} {heap : Heap} {bytes : List UInt8} {rb : Ringbuffer}
    (h : c.Consistent) (hwrite : c.receiveBuffer.write heap bytes = (.ok (), rb)) :
    Consistent { c with receiveBuffer := rb } ∧ rb.contents = c.pending ++ bytes := by
  rcases h.wf.write_spec heap bytes with ⟨rb', hok, hlive, hcont⟩ | ⟨e, rb', herr, -⟩
  · rw [hok] at hwrite
    cases hwrite
    refine ⟨⟨.inr hlive, ?_⟩, hcont⟩
    rcases h.wanted with hzero | ⟨hsize, hwanted⟩
    · exact .inl hzero
    · -- the header at the front stays where it is
      have hlen : c.pending.length = c.receiveBuffer.size := h.wf.length_contents
      have hsame : headerLength { c with receiveBuffer := rb } = c.headerLength := by
        have hpending : pending { c with receiveBuffer := rb } = c.pending ++ bytes := hcont
        rw [headerLength, headerLength, hpending, List.drop_append_of_le_length (by omega),
          List.take_append_of_le_length (by rw [List.length_drop]; omega)]
      refine .inr ⟨?_, ?_⟩
      · show 5 ≤ rb.size
        rw [← hlive.length_contents, hcont, List.length_append, h.wf.length_contents]
        omega
      · rw [hsame]
        exact hwanted
  · rw [herr] at hwrite
    cases hwrite

theorem Reachable.consistent {c : Connection} (h : Reachable c) : c.Consistent := by
  induction h with
  | new => exact ⟨.inl rfl, .inl rfl⟩
  | receive _ hwrite ih => exact (ih.receive hwrite).1
  | @turn c heap _ _ ht ih =>
      obtain ⟨t, ht', hturns⟩ := turn_spec ih heap
      rw [ht] at ht'
      cases ht'
      exact hturns.consistent ih
  | callback set _ ih => exact ⟨ih.wf, ih.wanted⟩

-- ============================================================================
-- The arithmetic of the header
-- ============================================================================

/-- A turn that makes progress does so on a message all of whose bytes, header and body, are
    there, and takes exactly these bytes. -/
def ConsumesMessage (heap : Heap) (c : Connection) : Prop :=
  ∀ out c', c.turn heap = .ok (true, out, c') →
    5 + c.headerLength ≤ c.receiveBuffer.size ∧ c'.pending = c.pending.drop (5 + c.headerLength)

/-- Where a header can be read, its length field leaves room for the header in 32 bits, or
    nevertheless all of the message is there for the callback; and a complete message for the
    callback can be allocated. -/
def LengthFits (heap : Heap) (c : Connection) : Prop :=
  c.seesHeader heap = true → 5 ≤ c.receiveBuffer.size →
    (c.headerLength ≤ 2 ^ 32 - 6 ∨
      c.receiveCallback = true ∧ 5 + c.headerLength ≤ c.receiveBuffer.size) ∧
    (c.receiveCallback = true → 5 + c.headerLength ≤ c.receiveBuffer.size →
      c.allocates heap = true)

/-- The connection after `k` turns that all made progress. -/
def afterTurns (heaps : Nat → Heap) : Nat → Connection → Option Connection
  | 0, c => some c
  | k + 1, c =>
      match c.turn (heaps 0) with
      | .ok (true, _, c') => afterTurns (fun i => heaps (i + 1)) k c'
      | _ => none

theorem Consistent.length_pending {c : Connection} (h : c.Consistent) :
    c.pending.length = c.receiveBuffer.size := h.wf.length_contents

theorem LengthFits.consumesMessage {heap : Heap} {c : Connection} (h : c.Consistent)
    (hfits : c.LengthFits heap) : c.ConsumesMessage heap := by
  intro out c' hturn
  obtain ⟨t, ht, hturns⟩ := turn_spec h heap
  rw [hturn] at ht
  cases ht
  have hexp := c.toNat_expected
  cases hturns with
  | discard hsees hcb hsize hmsg hwf hrb =>
      obtain ⟨hlen | ⟨hcb', -⟩, -⟩ := hfits hsees hsize
      · rw [Nat.mod_eq_of_lt (by omega)] at hexp
        rw [hexp] at hmsg hrb
        exact ⟨hmsg, hrb⟩
      · rw [hcb] at hcb'
        cases hcb'
  | starve hsees hcb hsize hmsg halloc =>
      obtain ⟨hlen, hroom⟩ := hfits hsees hsize
      have hfull : 5 + c.headerLength ≤ c.receiveBuffer.size := by
        rcases hlen with hlen | ⟨-, hfull⟩
        · rwa [hexp, Nat.mod_eq_of_lt (by omega)] at hmsg
        · exact hfull
      rw [hroom hcb hfull] at halloc
      cases halloc
  | deliver hsees hcb hsize hmsg halloc hwf hrb =>
      refine ⟨?_, hrb⟩
      obtain ⟨hlen | ⟨-, hfull⟩, -⟩ := hfits hsees hsize
      · rwa [hexp, Nat.mod_eq_of_lt (by omega)] at hmsg
      · exact hfull

theorem ConsumesMessage.lengthFits {heap : Heap} {c : Connection} (h : c.Consistent)
    (hmeets : c.ConsumesMessage heap) : c.LengthFits heap := by
  intro hsees hsize
  obtain ⟨t, ht, hturns⟩ := turn_spec h heap
  have hlen := h.length_pending
  have hlt := c.headerLength_lt
  have hexp := c.toNat_expected
  cases hturns with
  | idle hheader hrest =>
      rcases h.wanted with hzero | ⟨-, hwanted⟩
      · have := hheader hzero
        omega
      · have hne : c.wantedIbSize ≠ 0 := by
          intro hzero
          rw [hzero] at hwanted
          have : (0 : UInt32).toNat = 0 := rfl
          omega
        have := hrest hne
        have := c.wantedIbSize.toNat_lt
        exact ⟨.inl (by omega), fun _ hfull => by omega⟩
  | unread hunseen =>
      rw [hsees] at hunseen
      cases hunseen
  | header _ hrest => exact ⟨.inl (by omega), fun _ hfull => by omega⟩
  | discard _ hcb _ hmsg hwf hrb =>
      obtain ⟨hfull, hdrop⟩ := hmeets _ _ ht
      have hsame := congrArg List.length (hrb.symm.trans hdrop)
      rw [List.length_drop, List.length_drop] at hsame
      exact ⟨.inl (by omega), fun hcb' => by rw [hcb] at hcb'; cases hcb'⟩
  | starve =>
      obtain ⟨hfull, hdrop⟩ := hmeets _ _ ht
      have hsame : c.pending.length = (c.pending.drop (5 + c.headerLength)).length :=
        congrArg List.length hdrop
      rw [List.length_drop] at hsame
      omega
  | deliver _ hcb _ _ halloc =>
      obtain ⟨hfull, -⟩ := hmeets _ _ ht
      exact ⟨.inr ⟨hcb, hfull⟩, fun _ _ => halloc⟩

/-- A turn that takes a message makes the buffer shorter. -/
theorem ConsumesMessage.size_lt {heap : Heap} {c c' : Connection} {out : Option Stream}
    (h : c.Consistent) (hmeets : c.ConsumesMessage heap) (hturn : c.turn heap = .ok (true, out, c')) :
    c'.receiveBuffer.size + 5 ≤ c.receiveBuffer.size := by
  obtain ⟨t, ht, hturns⟩ := turn_spec h heap
  rw [hturn] at ht
  cases ht
  obtain ⟨hfull, hdrop⟩ := hmeets _ _ hturn
  have hc' : c'.Consistent := hturns.consistent h
  have hlen := congrArg List.length hdrop
  rw [List.length_drop, h.length_pending, hc'.length_pending] at hlen
  omega

/-- Every turn of the loop takes at least five bytes, so it ends. -/
theorem receiveLoop_terminates {fuel : Nat} {heaps : Nat → Heap} {c : Connection}
    (h : c.Consistent)
    (hfits : ∀ k c', afterTurns heaps k c = some c' → c'.LengthFits (heaps k))
    (hfuel : c.receiveBuffer.size < fuel) :
    ∃ outs c', receiveLoop heaps fuel c = .ok (outs, c') := by
  induction fuel generalizing heaps c with
  | zero => omega
  | succ fuel ih =>
      obtain ⟨⟨progress, out, c'⟩, ht, hturns⟩ := turn_spec h (heaps 0)
      rw [receiveLoop, ht]
      cases progress with
      | false => exact ⟨_, _, rfl⟩
      | true =>
          have hc' : c'.Consistent := hturns.consistent h
          have hsize := ((hfits 0 c rfl).consumesMessage h).size_lt h ht
          obtain ⟨outs, c'', hloop⟩ :=
            @ih (fun i => heaps (i + 1)) c' hc' (fun k c'' hafter =>
              hfits (k + 1) c'' (by rw [afterTurns, ht]; exact hafter)) (by omega)
          refine ⟨out.toList ++ outs, c'', ?_⟩
          simp only [hloop]
          rfl

/-- In every state a turn takes exactly the message at the front, and only a complete one, if
    and only if the length in its header does not wrap around and there is memory for it; and
    the loop ends when that is so for all its turns. -/
theorem consumes_message_iff {c : Connection} (h : Reachable c) :
    (∀ heap, c.ConsumesMessage heap ↔ c.LengthFits heap) ∧
    ∀ heaps, (∀ k c', afterTurns heaps k c = some c' → c'.LengthFits (heaps k)) →
      ∃ outs c', receiveLoop heaps (c.receiveBuffer.size + 1) c = .ok (outs, c') :=
  ⟨fun _ => ⟨fun hmeets => hmeets.lengthFits h.consistent,
      fun hfits => hfits.consumesMessage h.consistent⟩,
    fun _ hfits => receiveLoop_terminates h.consistent hfits (Nat.lt_succ_self _)⟩

/-- A connection without a callback that has received a header with the given length
    field. -/
def headed (len : List UInt8) : Connection :=
  { receiveBuffer := (({} : Ringbuffer).write .zeros (1 :: len)).2 }

theorem reachable_headed (len : List UInt8)
    (h : (({} : Ringbuffer).write .zeros (1 :: len)).1 = .ok ()) : Reachable (headed len) :=
  Reachable.new.receive (Prod.ext h rfl)

/-- A connection with a callback that has received a message with two bytes behind the header, and
    the header and one of three bytes of the next one. -/
def loaded : Connection :=
  { headed [0, 0, 0, 2, 7, 8, 2, 0, 0, 0, 3, 9] with receiveCallback := true }

/-- The turn takes the first message, and the loop hands over this one and ends. -/
theorem consumes_message_iff_loaded :
    loaded.ConsumesMessage .zeros ∧
      (∃ outs c', receiveLoop (fun _ => .zeros) 14 loaded = .ok (outs, c')) ∧
      (receiveLoop (fun _ => .zeros) 14 loaded).toOption.map (·.1.length) = some 1 := by
  obtain ⟨hiff, hends⟩ :=
    consumes_message_iff (.callback true (reachable_headed _ (by decide +kernel)) : Reachable loaded)
  have hfits : loaded.LengthFits .zeros :=
    fun _ _ => ⟨.inl (by decide +kernel), fun _ _ => by decide +kernel⟩
  refine ⟨(hiff .zeros).mpr hfits, hends _ fun k c' hafter => ?_, by decide +kernel⟩
  match k with
  | 0 =>
      cases hafter
      exact hfits
  | 1 =>
      -- the second message is not complete
      have hrest : ∀ c', afterTurns (fun _ => .zeros) 1 loaded = some c' →
          c'.headerLength = 3 ∧ c'.receiveBuffer.size = 6 := by decide +kernel
      obtain ⟨hlength, hsize⟩ := hrest c' hafter
      exact fun _ _ => ⟨.inl (by omega), fun _ hcomplete => absurd hcomplete (by omega)⟩
  | k + 2 => cases hafter

/-- With 2^32 - 5 in the header the size becomes 0: the turn makes progress but takes nothing,
    and the loop goes on for ever. -/
theorem header_wraps :
    Reachable (headed [255, 255, 255, 251]) ∧
      ¬ (headed [255, 255, 255, 251]).ConsumesMessage .zeros ∧
      ∀ fuel, receiveLoop (fun _ => .zeros) fuel (headed [255, 255, 255, 251]) =
        .error .outOfFuel := by
  have hturn : (headed [255, 255, 255, 251]).turn .zeros =
      .ok (true, none, headed [255, 255, 255, 251]) := by decide +kernel
  refine ⟨reachable_headed _ (by decide +kernel), fun h => ?_, fun fuel => ?_⟩
  · have hfull := (h _ _ hturn).1
    revert hfull
    decide +kernel
  · induction fuel with
    | zero => rfl
    | succ fuel ih =>
        rw [receiveLoop, hturn]
        simp only [ih]
        rfl

end Connection

end Tclm.Comm
