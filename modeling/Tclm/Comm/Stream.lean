/-
  Tclm.Comm.Stream

  Byte streams, `src/stream.{h,c}`, and the helpers of `src/message_utils.h`.

  A stream is a block of memory with a position and a length.  Functions on a
  stream are computations in `StreamM`: they change the stream and may go wrong.
  Every access to the block is checked, so that an access outside of the message
  (reading at or behind `length`) or outside of the block (writing at or behind
  `capacity`) shows up as a fault; a failed allocation does too.

  `Gets act bs v` says that `act` reads `v` where the stream goes on with `bs`;
  `Puts act bs` says that `act` appends `bs`.  Both follow the sequence of
  operations.
-/

import Tclm.Lib.Basic
import Tclm.Lib.ByteOrder
import Tclm.Lib.Memory

namespace Tclm.Comm

/-- `struct stream`.  The block is a list of bytes, the empty one standing for a null
    pointer; its length is the `capacity`. -/
structure Stream where
  buffer : List UInt8 := []
  pos : Nat := 0
  length : Nat := 0
deriving DecidableEq, Repr

/-- What can go wrong: a byte is read that does not belong to the message, a byte is
    written behind the end of the block, an allocation fails, a loop does not end. -/
inductive StreamFault where
  | readOutside
  | writeOutside
  | noMemory
  | diverges
deriving DecidableEq, Repr

/-- Computations on a stream. -/
abbrev StreamM (α : Type) : Type := StateT Stream (Except StreamFault) α

namespace Stream

/-- `stream_capacity` -/
def capacity (s : Stream) : Nat := s.buffer.length

/-- `stream_remaining_length` -/
def remainingLength (s : Stream) : Nat := s.length - s.pos

/-- The message that the stream holds. -/
def bytes (s : Stream) : List UInt8 := s.buffer.take s.length

/-- A stream that holds a message and is positioned at its start. -/
def ofBytes (bs : List UInt8) : Stream := ⟨bs, 0, bs.length⟩

-- ============================================================================
-- Capacity
-- ============================================================================

/-- `stream_ensure_remaining_capacity`; the result says whether there is enough room now.
    A block of a new stream gets a power of two as its size. -/
def ensureRemainingCapacity (heap : Heap) (l : Nat) : StreamM Bool := fun s =>
  if l = 0 then .ok (true, s)
  else if s.buffer = [] then
    let size := if l.testBit 63 then l else 2 ^ (Nat.log2 l + 1)
    match heap.malloc size with
    | none => .ok (false, s)
    | some block => .ok (true, { s with buffer := block })
  else if s.capacity < ULong.add l s.pos then
    match doubleUntil (fun nc => ¬ nc < ULong.add l s.pos) 64 s.capacity with
    | none => .error .diverges
    | some nc =>
        if nc < ULong.add l s.pos then .ok (false, s)
        else
          match heap.realloc nc with
          | none => .ok (false, s)
          | some block => .ok (true, { s with buffer := block.overwrite 0 s.buffer })
  else .ok (true, s)

/-- The callers give up when there is not enough memory. -/
def reserve (heap : Heap) (l : Nat) : StreamM Unit := do
  let enough ← ensureRemainingCapacity heap l
  if ¬ enough then throw .noMemory

-- ============================================================================
-- Position and length
-- ============================================================================

/-- `stream_tell` -/
def tell : StreamM Nat := fun s => .ok (s.pos, s)

/-- `stream_seek` -/
def seek (p : Nat) : StreamM Unit := fun s => .ok ((), { s with pos := p })

/-- `stream_set_length` -/
def setLength (l : Nat) : StreamM Unit := fun s => .ok ((), { s with length := l })

-- ============================================================================
-- Reading
-- ============================================================================

/-- The `n` bytes at `stream_pointer`, without moving on.  All of them have to belong to
    the message. -/
def pointerBytes (n : Nat) : StreamM (List UInt8) := fun s =>
  if n = 0 then .ok ([], s)
  else if s.pos + n ≤ s.length ∧ s.pos + n ≤ s.capacity then
    .ok ((s.buffer.drop s.pos).take n, s)
  else .error .readOutside

/-- `s->buffer[s->pos++]`, `n` times. -/
def takeBytes (n : Nat) : StreamM (List UInt8) := do
  let bs ← pointerBytes n
  let pos ← tell
  seek (pos + n)
  pure bs

/-- `stream_read_uint8_t` -/
def readUInt8 : StreamM UInt8 := fun s =>
  if s.pos < s.length then (do let bs ← takeBytes 1; pure (bs.headD 0)) s else .ok (0, s)

/-- `d <<= 8; d |= b`, byte by byte. -/
def shiftIn (bs : List UInt8) : Nat := bs.foldl (fun d b => d <<< 8 ||| b.toNat) 0

/-- `stream_read_uint16_t`, `stream_read_uint32_t`, `stream_read_uint64_t` (`k` bytes). -/
def readUInt (host : ByteOrder) (k : Nat) : StreamM Nat := fun s =>
  if s.pos + k ≤ s.length then (do let bs ← takeBytes k; pure (host.letoh k (shiftIn bs))) s
  else .ok (0, s)

/-- `stream_read_uint16_t` -/
def readUInt16 (host : ByteOrder) : StreamM UInt16 := UInt16.ofNat <$> readUInt host 2

/-- `stream_read_uint32_t` -/
def readUInt32 (host : ByteOrder) : StreamM UInt32 := UInt32.ofNat <$> readUInt host 4

/-- `stream_read_uint64_t` -/
def readUInt64 (host : ByteOrder) : StreamM UInt64 := UInt64.ofNat <$> readUInt host 8

-- ============================================================================
-- Writing
-- ============================================================================

/-- `memcpy (stream_pointer (s), bs, ...)`: position and length stay. -/
def memcpy (bs : List UInt8) : StreamM Unit := fun s =>
  if s.pos + bs.length ≤ s.capacity then
    .ok ((), { s with buffer := s.buffer.overwrite s.pos bs })
  else .error .writeOutside

/-- `s->buffer[s->pos++] = b` for every byte, then the length follows the position. -/
def writeBytes (bs : List UInt8) : StreamM Unit := do
  memcpy bs
  let pos ← tell
  seek (pos + bs.length)
  fun s => .ok ((), if s.length < s.pos then { s with length := s.pos } else s)

/-- `d & 0xff`, `d >>= 8`, `k` times. -/
def shiftOut (k d : Nat) : List UInt8 :=
  (List.range k).map fun i => UInt8.ofNat (d >>> (8 * i) &&& 0xff)

/-- `stream_write_uint16_t`, `stream_write_uint32_t`, `stream_write_uint64_t` (`k` bytes). -/
def writeUInt (host : ByteOrder) (k d : Nat) : StreamM Unit :=
  writeBytes (shiftOut k (host.htobe k d))

/-- `stream_write_uint8_t` -/
def writeUInt8 (d : UInt8) : StreamM Unit := writeBytes [d]

/-- `stream_write_uint16_t` -/
def writeUInt16 (host : ByteOrder) (d : UInt16) : StreamM Unit := writeUInt host 2 d.toNat

/-- `stream_write_uint32_t` -/
def writeUInt32 (host : ByteOrder) (d : UInt32) : StreamM Unit := writeUInt host 4 d.toNat

/-- `stream_write_uint64_t` -/
def writeUInt64 (host : ByteOrder) (d : UInt64) : StreamM Unit := writeUInt host 8 d.toNat

/-- Append a string: copy it, move on, let the length follow. -/
def copySeekLength (bs : List UInt8) : StreamM Unit := do
  memcpy bs
  seek ((← tell) + bs.length)
  setLength (← tell)

/-- Append a string: copy it, set the length, move on. -/
def copyLengthSeek (bs : List UInt8) : StreamM Unit := do
  memcpy bs
  setLength ((← tell) + bs.length)
  seek ((← tell) + bs.length)

/-- Append a string: copy it, extend the length, move on. -/
def copyExtendSeek (bs : List UInt8) : StreamM Unit := do
  memcpy bs
  fun s => .ok ((), { s with length := s.length + bs.length })
  seek ((← tell) + bs.length)

-- ============================================================================
-- Message headers
-- ============================================================================

/-- `write_message_header` -/
def writeMessageHeader (host : ByteOrder) (heap : Heap) (id : UInt8) (length : UInt32) :
    StreamM Unit := do
  reserve heap 5
  writeUInt8 id
  writeUInt32 host length

/-- `update_message_length`; the argument is a `uint32_t`. -/
def updateMessageLength (host : ByteOrder) (totalLength : Nat) : StreamM Unit := do
  seek 1
  writeUInt32 host (UInt32.ofNat totalLength - 5)

-- ============================================================================
-- Rules for reading
-- ============================================================================

variable {α β : Type}

theorem run_bind {act : StreamM α} {f : α → StreamM β} {s s' : Stream} {a : α}
    (h : act s = .ok (a, s')) : (act >>= f) s = f a s' := by
  simp only [bind, StateT.bind, h]
  rfl

theorem run_map {act : StreamM α} {s s' : Stream} {a : α} (f : α → β) (h : act s = .ok (a, s')) :
    (f <$> act) s = .ok (f a, s') := by
  show (do let a ← act; pure (f a) : StreamM β) s = _
  rw [run_bind h]
  rfl

/-- What is left to read. -/
def rest (s : Stream) : List UInt8 := s.bytes.drop s.pos

theorem length_rest {s : Stream} (h : s.length ≤ s.capacity) : s.rest.length = s.length - s.pos := by
  rw [rest, bytes, List.length_drop, List.length_take]
  rw [capacity] at h
  omega

/-- Where the stream goes on with `bs`, the computation reads `v` from it. -/
def Gets (act : StreamM α) (bs : List UInt8) (v : α) : Prop :=
  ∀ ⦃s : Stream⦄ ⦃tail : List UInt8⦄, s.length ≤ s.capacity → s.rest = bs ++ tail →
    act s = .ok (v, { s with pos := s.pos + bs.length })

theorem Gets.bind {act : StreamM α} {f : α → StreamM β} {bs cs : List UInt8} {u : α} {v : β}
    (h : Gets act bs u) (hf : Gets (f u) cs v) : Gets (act >>= f) (bs ++ cs) v := by
  intro s tail hlen hrest
  rw [List.append_assoc] at hrest
  have hnext : rest { s with pos := s.pos + bs.length } = cs ++ tail := by
    have hdrop : s.rest.drop bs.length = cs ++ tail := by rw [hrest, List.drop_left]
    rw [rest, List.drop_drop] at hdrop
    exact hdrop
  have hlen' : Stream.length { s with pos := s.pos + bs.length } ≤
      capacity { s with pos := s.pos + bs.length } := hlen
  rw [run_bind (h hlen hrest), hf hlen' hnext]
  simp only [List.length_append, Nat.add_assoc]

theorem gets_pure (v : α) : Gets (pure v) [] v := fun _ _ _ _ => rfl

theorem Gets.map {act : StreamM α} {bs : List UInt8} {u : α} (h : Gets act bs u) (f : α → β) :
    Gets (f <$> act) bs (f u) := by
  intro s tail hlen hrest
  show (do let a ← act; pure (f a) : StreamM β) s = _
  rw [run_bind (h hlen hrest)]
  rfl

/-- The last step computes something from what was read. -/
theorem Gets.bind_pure {act : StreamM α} {bs : List UInt8} {u : α} (h : Gets act bs u) (f : α → β) :
    Gets (act >>= fun a => pure (f a)) bs (f u) := by
  have hmap := h.map f
  rwa [map_eq_pure_bind] at hmap

theorem gets_takeBytes (bs : List UInt8) : Gets (takeBytes bs.length) bs bs := by
  intro s tail hlen hrest
  have hroom : s.pos + bs.length ≤ s.length ∨ bs.length = 0 := by
    have := length_rest hlen
    rw [hrest, List.length_append] at this
    omega
  have hpointer : pointerBytes bs.length s = .ok (bs, s) := by
    rw [pointerBytes]
    split
    · rename_i hnil
      rw [List.eq_nil_of_length_eq_zero hnil]
    · have hbytes : (s.buffer.drop s.pos).take bs.length = bs := by
        have htake : s.rest.take bs.length = bs := by rw [hrest, List.take_left]
        rw [rest, bytes, List.drop_take, List.take_take, Nat.min_eq_left (by omega)] at htake
        exact htake
      rw [if_pos (by omega), hbytes]
  rw [takeBytes, run_bind hpointer]
  rfl

theorem gets_readUInt8 (b : UInt8) : Gets readUInt8 [b] b := by
  intro s tail hlen hrest
  have hpos : s.pos < s.length := by
    have := length_rest hlen
    rw [hrest, List.length_append, List.length_singleton] at this
    omega
  have htake : takeBytes 1 s = .ok ([b], { s with pos := s.pos + 1 }) := gets_takeBytes [b] hlen hrest
  rw [readUInt8, if_pos hpos, run_bind htake]
  rfl

theorem shiftIn_eq (bs : List UInt8) : shiftIn bs = beVal bs := by
  induction bs using List.reverseRecOn with
  | nil => rfl
  | append_singleton bs b ih =>
      have hb : b.toNat < 2 ^ 8 := b.toNat_lt
      rw [shiftIn, List.foldl_append, List.foldl_cons, List.foldl_nil, ← shiftIn, ih, beVal_concat,
        ← Nat.shiftLeft_add_eq_or_of_lt hb, Nat.shiftLeft_eq]

/-- A number is read where there are enough bytes. -/
theorem run_readUInt (host : ByteOrder) {k : Nat} {s : Stream} (h : s.length ≤ s.capacity)
    (hroom : s.pos + k ≤ s.length) :
    readUInt host k s =
      .ok (host.letoh k (beVal ((s.bytes.drop s.pos).take k)), { s with pos := s.pos + k }) := by
  have hrest : s.rest = s.rest.take k ++ s.rest.drop k := (List.take_append_drop k _).symm
  have hlen : (s.rest.take k).length = k := by
    rw [List.length_take, length_rest h]
    omega
  have htake := gets_takeBytes (s.rest.take k) h hrest
  rw [hlen] at htake
  rw [readUInt, if_pos hroom, run_bind htake, shiftIn_eq]
  rfl

/-- Without enough bytes the number is zero, and the stream stays where it is. -/
theorem run_readUInt_short (host : ByteOrder) {k : Nat} {s : Stream}
    (hroom : ¬ s.pos + k ≤ s.length) : readUInt host k s = .ok (0, s) := by
  rw [readUInt, if_neg hroom]

/-- The position moves behind the number, or stays where there are not enough bytes. -/
theorem readUInt_moves (host : ByteOrder) (k : Nat) {s : Stream} (h : s.length ≤ s.capacity) :
    ∃ v p, readUInt host k s = .ok (v, { s with pos := p }) ∧
      (p = s.pos + k ∧ p ≤ s.length ∨ p = s.pos ∧ s.length < s.pos + k) := by
  by_cases hroom : s.pos + k ≤ s.length
  · exact ⟨_, _, run_readUInt host h hroom, Or.inl ⟨rfl, hroom⟩⟩
  · exact ⟨_, _, run_readUInt_short host hroom, Or.inr ⟨rfl, by omega⟩⟩

/-- The position moves behind the byte, or stays where there is none. -/
theorem readUInt8_moves {s : Stream} (h : s.length ≤ s.capacity) :
    ∃ v p, readUInt8 s = .ok (v, { s with pos := p }) ∧
      (p = s.pos + 1 ∧ p ≤ s.length ∨ p = s.pos ∧ s.length < s.pos + 1) := by
  by_cases hroom : s.pos < s.length
  · have hne : s.rest ≠ [] := by
      apply List.ne_nil_of_length_pos
      rw [length_rest h]
      omega
    obtain ⟨b, tail, hrest⟩ := List.exists_cons_of_ne_nil hne
    exact ⟨b, _, gets_readUInt8 b h hrest, Or.inl ⟨rfl, hroom⟩⟩
  · exact ⟨0, s.pos, by rw [readUInt8, if_neg hroom], Or.inr ⟨rfl, by omega⟩⟩

/-- The header of a message that has one. -/
theorem run_header (host : ByteOrder) {s : Stream} (hpos : s.pos = 0) (hlen : 5 ≤ s.length)
    (hcap : s.length ≤ s.capacity) :
    ∃ length, readUInt8 s = .ok (s.bytes.headD 0, { s with pos := 1 }) ∧
      readUInt32 host { s with pos := 1 } = .ok (length, { s with pos := 5 }) := by
  have hbytes : s.rest = s.bytes := by rw [rest, hpos, List.drop_zero]
  have hne : s.bytes ≠ [] := by
    apply List.ne_nil_of_length_pos
    rw [← hbytes, length_rest hcap]
    omega
  obtain ⟨b, tail, hcons⟩ := List.exists_cons_of_ne_nil hne
  have hid := gets_readUInt8 b hcap (hbytes.trans hcons)
  rw [hpos] at hid
  refine ⟨_, ?_, run_map UInt32.ofNat (run_readUInt host (s := { s with pos := 1 }) hcap hlen)⟩
  rw [hid, hcons]
  rfl

theorem gets_readUInt_host (host : ByteOrder) {bs : List UInt8} {k : Nat} (hk : bs.length = k) :
    Gets (readUInt host k) bs (host.letoh k (beVal bs)) := by
  subst hk
  intro s tail hlen hrest
  by_cases hroom : s.pos + bs.length ≤ s.length
  · rw [readUInt, if_pos hroom, run_bind (gets_takeBytes bs hlen hrest), shiftIn_eq]
    rfl
  · -- the stream may only be positioned behind its end when nothing is read
    have hnil : bs = [] := by
      have := length_rest hlen
      rw [hrest, List.length_append] at this
      exact List.eq_nil_of_length_eq_zero (by omega)
    subst hnil
    rw [readUInt, if_neg hroom]
    cases host <;> rfl

/-- On a little-endian machine a number is read in big-endian order. -/
theorem gets_readUInt {bs : List UInt8} {k : Nat} (hk : bs.length = k) :
    Gets (readUInt .little k) bs (beVal bs) := by
  have hgets := gets_readUInt_host .little hk
  rwa [ByteOrder.letoh_little, ← hk, Nat.mod_eq_of_lt (beVal_lt bs), hk] at hgets

theorem gets_readUInt16 (d : UInt16) : Gets (readUInt16 .little) (beBytes 2 d.toNat) d := by
  have h := (gets_readUInt (length_beBytes 2 d.toNat)).map UInt16.ofNat
  rw [beVal_beBytes_of_lt d.toNat_lt, UInt16.ofNat_toNat] at h
  exact h

theorem gets_readUInt32 (d : UInt32) : Gets (readUInt32 .little) (beBytes 4 d.toNat) d := by
  have h := (gets_readUInt (length_beBytes 4 d.toNat)).map UInt32.ofNat
  rw [beVal_beBytes_of_lt d.toNat_lt, UInt32.ofNat_toNat] at h
  exact h

-- ============================================================================
-- Rules for writing
-- ============================================================================

/-- The stream holds `out` and is positioned at its end. -/
structure Filled (s : Stream) (out : List UInt8) : Prop where
  pos : s.pos = out.length
  length : s.length = out.length
  taken : s.buffer.take out.length = out
  bound : s.capacity < 2 ^ 64

theorem filled_new : Filled {} [] := ⟨rfl, rfl, rfl, by decide⟩

theorem Filled.length_le {s : Stream} {out : List UInt8} (h : s.Filled out) :
    out.length ≤ s.capacity := by
  have := congrArg List.length h.taken
  rw [List.length_take] at this
  rw [capacity]
  omega

theorem Filled.bytes_eq {s : Stream} {out : List UInt8} (h : s.Filled out) : s.bytes = out := by
  rw [bytes, h.length, h.taken]

/-- The computation appends `bs` to a stream that has room for it. -/
def Puts (act : StreamM Unit) (bs : List UInt8) : Prop :=
  ∀ ⦃s : Stream⦄ ⦃out : List UInt8⦄, s.Filled out → out.length + bs.length ≤ s.capacity →
    ∃ s', act s = .ok ((), s') ∧ s'.Filled (out ++ bs) ∧ s'.capacity = s.capacity

theorem puts_pure : Puts (pure ()) [] := by
  intro s out hfilled _
  rw [List.append_nil]
  exact ⟨s, rfl, hfilled, rfl⟩

theorem Puts.bind {act next : StreamM Unit} {bs cs : List UInt8} (h : Puts act bs)
    (hnext : Puts next cs) : Puts (act >>= fun _ => next) (bs ++ cs) := by
  intro s out hfilled hroom
  rw [List.length_append] at hroom
  obtain ⟨s₁, hact, hfilled₁, hcap₁⟩ := h hfilled (by omega)
  obtain ⟨s₂, hact₂, hfilled₂, hcap₂⟩ :=
    hnext hfilled₁ (by rw [List.length_append, hcap₁]; omega)
  rw [List.append_assoc] at hfilled₂
  exact ⟨s₂, by rw [run_bind hact, hact₂], hfilled₂, by rw [hcap₂, hcap₁]⟩

/-- Copying behind the end and moving position and length there. -/
theorem Filled.extend {s : Stream} {out bs : List UInt8} (h : s.Filled out)
    (hroom : out.length + bs.length ≤ s.capacity) :
    Filled ⟨s.buffer.overwrite s.pos bs, s.pos + bs.length, s.pos + bs.length⟩ (out ++ bs) ∧
      (s.buffer.overwrite s.pos bs).length = s.capacity := by
  have hle := h.length_le
  rw [capacity] at hle hroom
  have hcap : (s.buffer.overwrite s.pos bs).length = s.buffer.length := by
    rw [h.pos, List.length_overwrite hroom]
  refine ⟨⟨?_, ?_, ?_, ?_⟩, hcap⟩
  · rw [List.length_append, ← h.pos]
  · rw [List.length_append, ← h.pos]
  · rw [List.length_append, h.pos, List.take_overwrite_end hle, h.taken]
  · rw [capacity, hcap]
    exact h.bound

/-- A computation that does that. -/
theorem puts_of_run {act : StreamM Unit} {bs : List UInt8}
    (h : ∀ s : Stream, s.pos = s.length → s.pos + bs.length ≤ s.capacity →
      act s = .ok ((), ⟨s.buffer.overwrite s.pos bs, s.pos + bs.length, s.pos + bs.length⟩)) :
    Puts act bs := by
  intro s out hfilled hroom
  have hpos : s.pos = s.length := by rw [hfilled.pos, hfilled.length]
  obtain ⟨hfilled', hcap⟩ := hfilled.extend hroom
  exact ⟨_, h s hpos (by rw [hfilled.pos]; exact hroom), hfilled', hcap⟩

theorem run_memcpy {s : Stream} {bs : List UInt8} (h : s.pos + bs.length ≤ s.capacity) :
    memcpy bs s = .ok ((), { s with buffer := s.buffer.overwrite s.pos bs }) := by
  rw [memcpy, if_pos h]

theorem puts_writeBytes (bs : List UInt8) : Puts (writeBytes bs) bs := by
  refine puts_of_run fun s hpos hroom => ?_
  rw [writeBytes, run_bind (run_memcpy hroom)]
  simp only [tell, seek, bind, StateT.bind, Except.bind, hpos]
  split
  · rfl
  · rename_i hle
    have hnil : bs.length = 0 := by omega
    simp [hnil]

theorem puts_copySeekLength (bs : List UInt8) : Puts (copySeekLength bs) bs := by
  refine puts_of_run fun s _ hroom => ?_
  rw [copySeekLength, run_bind (run_memcpy hroom)]
  rfl

theorem puts_copyLengthSeek (bs : List UInt8) : Puts (copyLengthSeek bs) bs := by
  refine puts_of_run fun s _ hroom => ?_
  rw [copyLengthSeek, run_bind (run_memcpy hroom)]
  rfl

theorem puts_copyExtendSeek (bs : List UInt8) : Puts (copyExtendSeek bs) bs := by
  refine puts_of_run fun s hpos hroom => ?_
  rw [copyExtendSeek, run_bind (run_memcpy hroom)]
  simp only [tell, seek, bind, StateT.bind, Except.bind, hpos]

theorem puts_writeUInt8 (d : UInt8) : Puts (writeUInt8 d) [d] := puts_writeBytes [d]

/-- The bytes of a number, least significant first. -/
theorem shiftOut_eq (k d : Nat) : shiftOut k d = (beBytes k d).reverse := by
  induction k with
  | zero => rfl
  | succ k ih =>
      rw [shiftOut, List.range_succ, List.map_append, ← shiftOut, ih, beBytes, List.reverse_cons,
        List.map_singleton]
      congr 2
      apply UInt8.toNat_inj.mp
      have hmask : d >>> (8 * k) &&& 0xff = d >>> (8 * k) % 2 ^ 8 :=
        Nat.and_two_pow_sub_one_eq_mod _ 8
      rw [UInt8.toNat_ofNat', UInt8.toNat_ofNat', hmask, Nat.mod_mod, Nat.shiftRight_eq_div_pow,
        Nat.pow_mul]

/-- On a little-endian machine the bytes come out in big-endian order. -/
theorem shiftOut_htobe (k d : Nat) : shiftOut k (ByteOrder.little.htobe k d) = beBytes k d := by
  have hback := beBytes_beVal (beBytes k d).reverse
  rw [List.length_reverse, length_beBytes] at hback
  rw [shiftOut_eq, ByteOrder.htobe, ByteOrder.load, hback, List.reverse_reverse]

/-- The bytes that stand for a number of `k` bytes on the wire. -/
def wire (host : ByteOrder) (k d : Nat) : List UInt8 := shiftOut k (host.htobe k d)

theorem wire_little (k d : Nat) : wire .little k d = beBytes k d := shiftOut_htobe k d

@[simp] theorem length_wire (host : ByteOrder) (k d : Nat) : (wire host k d).length = k := by
  rw [wire, shiftOut, List.length_map, List.length_range]

/-- A machine reads the numbers that it writes, whatever its byte order. -/
theorem letoh_wire (host : ByteOrder) (k d : Nat) :
    host.letoh k (beVal (wire host k d)) = d % 256 ^ k := by
  cases host with
  | little => rw [wire_little, ByteOrder.letoh_little, beVal_beBytes, Nat.mod_mod]
  | big =>
      -- the bytes are written and read in the order of the low ends
      have hlen : (beBytes k (beVal (beBytes k d))).reverse.length = k := by
        rw [List.length_reverse, length_beBytes]
      have hback := beBytes_beVal (beBytes k (beVal (beBytes k d))).reverse
      rw [hlen] at hback
      rw [wire, shiftOut_eq, ByteOrder.htobe, ByteOrder.load, ByteOrder.letoh, ByteOrder.store,
        hback, List.reverse_reverse, beVal_beBytes, beVal_beBytes, Nat.mod_mod]

theorem puts_wire (host : ByteOrder) (k d : Nat) : Puts (writeUInt host k d) (wire host k d) :=
  puts_writeBytes _

theorem puts_writeUInt (k d : Nat) : Puts (writeUInt .little k d) (beBytes k d) := by
  rw [← wire_little]
  exact puts_wire .little k d

theorem puts_writeUInt16 (d : UInt16) : Puts (writeUInt16 .little d) (beBytes 2 d.toNat) :=
  puts_writeUInt 2 d.toNat

theorem puts_writeUInt32 (d : UInt32) : Puts (writeUInt32 .little d) (beBytes 4 d.toNat) :=
  puts_writeUInt 4 d.toNat

-- ============================================================================
-- Room
-- ============================================================================

/-- With room for them already, nothing happens when bytes are reserved. -/
theorem Filled.ensure_of_le {s : Stream} {out : List UInt8} (h : s.Filled out) (heap : Heap)
    {l : Nat} (hl : out.length + l ≤ s.capacity) :
    ensureRemainingCapacity heap l s = .ok (true, s) := by
  have hbound := h.bound
  rw [ensureRemainingCapacity]
  by_cases hzero : l = 0
  · rw [if_pos hzero]
  · have hne : s.buffer ≠ [] := by
      intro hnil
      rw [capacity, hnil, List.length_nil] at hl
      omega
    rw [if_neg hzero, if_neg hne, h.pos, ULong.add_eq (by omega), if_neg (by omega)]

/-- The size of the first block of a stream. -/
theorem firstSize_spec {l : Nat} (hzero : l ≠ 0) (hl : l < 2 ^ 64) :
    l ≤ (if l.testBit 63 then l else 2 ^ (Nat.log2 l + 1)) ∧
      (if l.testBit 63 then l else 2 ^ (Nat.log2 l + 1)) < 2 ^ 64 := by
  rw [testBit_63 hl]
  by_cases htop : 2 ^ 63 ≤ l
  · rw [if_pos (by simpa using htop)]
    omega
  · have hlog : Nat.log2 l < 63 := (Nat.log2_lt hzero).mpr (by omega)
    have hpow : 2 ^ (Nat.log2 l + 1) ≤ 2 ^ 63 := Nat.pow_le_pow_right (by decide) (by omega)
    have := @Nat.lt_log2_self l
    rw [if_neg (by simpa using htop)]
    omega

/-- What holds of every stream that the functions of `stream.h` have made: the capacity is an
    `unsigned long`, and a stream without a block is empty. -/
structure Built (s : Stream) : Prop where
  bound : s.capacity < 2 ^ 64
  empty : s.buffer = [] → s.pos = 0 ∧ s.length = 0

theorem Filled.built {s : Stream} {out : List UInt8} (h : s.Filled out) : s.Built where
  bound := h.bound
  empty hnil := by
    have hle := h.length_le
    rw [capacity, hnil, List.length_nil] at hle
    rw [h.pos, h.length]
    omega

/-- What becomes of a stream in which `l` bytes are reserved. -/
inductive Ensured (heap : Heap) (l : Nat) (s : Stream) : Bool → Stream → Prop where
  /-- There is enough room already. -/
  | kept (h : l = 0 ∨ s.pos + l ≤ s.capacity) : Ensured heap l s true s
  /-- There is a new block that starts with the old one. -/
  | grown {block : List UInt8} (htaken : block.take s.capacity = s.buffer)
      (hroom : s.pos + l ≤ block.length) (hbound : block.length < 2 ^ 64) :
      Ensured heap l s true { s with buffer := block }
  /-- There is not enough memory, or no size for it. -/
  | refused (h : heap.Ample → 2 ^ 63 < s.pos + l) : Ensured heap l s false s

/-- Reserving bytes ends in one of these three ways. -/
theorem Built.ensured {s : Stream} (h : s.Built) (heap : Heap) {l : Nat}
    (hl : s.pos + l < 2 ^ 64) :
    ∃ enough s', ensureRemainingCapacity heap l s = .ok (enough, s') ∧
      Ensured heap l s enough s' := by
  rw [ensureRemainingCapacity]
  by_cases hzero : l = 0
  · rw [if_pos hzero]
    exact ⟨true, s, rfl, .kept (Or.inl hzero)⟩
  rw [if_neg hzero]
  by_cases hnil : s.buffer = []
  · -- the first block
    obtain ⟨hpos, -⟩ := h.empty hnil
    obtain ⟨hge, hlt⟩ := firstSize_spec hzero (by omega)
    rw [if_pos hnil]
    generalize (if l.testBit 63 then l else 2 ^ (Nat.log2 l + 1)) = size at *
    cases hm : heap.malloc size with
    | none =>
        refine ⟨false, s, by simp only [hm], .refused fun hample => ?_⟩
        have := hample.2.1 size
        rw [hm] at this
        cases this
    | some block =>
        have hlen := heap.length_malloc _ _ hm
        refine ⟨true, { s with buffer := block }, by simp only [hm], .grown ?_ ?_ ?_⟩
        · rw [capacity, hnil]
          rfl
        · omega
        · omega
  rw [if_neg hnil, ULong.add_eq (by omega)]
  by_cases hroom : s.capacity < l + s.pos
  · -- a larger block
    have hcap : 0 < s.capacity := List.length_pos_of_ne_nil hnil
    obtain ⟨j, hnc, hlt, hend⟩ :=
      doubleUntil_spec (fun nc => ¬ nc < l + s.pos) 64 s.capacity h.bound (by omega)
    have hcapnc : s.capacity ≤ s.capacity * 2 ^ j :=
      Nat.le_mul_of_pos_right _ (Nat.two_pow_pos j)
    rw [if_pos hroom, hnc]
    show ∃ enough s', (if s.capacity * 2 ^ j < l + s.pos then _ else _) = _ ∧ _
    by_cases hshort : s.capacity * 2 ^ j < l + s.pos
    · -- the top bit stopped the loop
      rw [if_pos hshort]
      refine ⟨false, s, rfl, .refused fun _ => ?_⟩
      rcases hend with hend | hend
      · exact absurd hshort (of_decide_eq_true hend)
      · omega
    · rw [if_neg hshort]
      cases hm : heap.realloc (s.capacity * 2 ^ j) with
      | none =>
          refine ⟨false, s, rfl, .refused fun hample => ?_⟩
          have := hample.2.2 (s.capacity * 2 ^ j)
          rw [hm] at this
          cases this
      | some block =>
          have hlen := heap.length_realloc _ _ hm
          have hover : (block.overwrite 0 s.buffer).length = block.length :=
            List.length_overwrite (by rw [hlen, Nat.zero_add]; exact hcapnc)
          refine ⟨true, _, rfl, .grown ?_ ?_ ?_⟩
          · have hsplit := @List.take_overwrite_end _ block s.buffer 0 (Nat.zero_le _)
            rwa [List.take_zero, List.nil_append, Nat.zero_add] at hsplit
          · rw [hover, hlen]
            omega
          · rw [hover, hlen]
            exact hlt
  · rw [if_neg hroom]
    exact ⟨true, s, rfl, .kept (Or.inr (by omega))⟩

theorem Ensured.built {heap : Heap} {l : Nat} {s s' : Stream} {enough : Bool} (h : s.Built)
    (hensured : Ensured heap l s enough s') : s'.Built := by
  cases hensured with
  | kept => exact h
  | @grown block htaken _ hbound =>
      refine ⟨hbound, fun hnil => h.empty ?_⟩
      have hblock : block = [] := hnil
      rw [← htaken, hblock, List.take_nil]
  | refused => exact h

/-- Reserving succeeds with enough room behind the position, and the message stays; or it
    fails, and the whole stream stays. -/
theorem ensureRemainingCapacity_spec {s : Stream} (h : s.Built) (heap : Heap) {l : Nat}
    (hl : s.pos + l < 2 ^ 64) :
    ∃ enough s', ensureRemainingCapacity heap l s = .ok (enough, s') ∧
      (enough = true → (l = 0 ∨ s.pos + l ≤ s'.capacity) ∧ s'.pos = s.pos ∧
        s'.length = s.length ∧ s'.buffer.take s.capacity = s.buffer ∧
        s.capacity ≤ s'.capacity) ∧
      (enough = false → s' = s) := by
  obtain ⟨enough, s', hrun, hensured⟩ := h.ensured heap hl
  refine ⟨enough, s', hrun, ?_⟩
  cases hensured with
  | kept hroom => exact ⟨fun _ => ⟨hroom, rfl, rfl, List.take_length, Nat.le_refl _⟩, nofun⟩
  | @grown block htaken hroom _ =>
      have hle : s.capacity ≤ block.length := by
        have := congrArg List.length htaken
        rw [List.length_take, ← capacity] at this
        omega
      exact ⟨fun _ => ⟨Or.inr hroom, rfl, rfl, htaken, hle⟩, nofun⟩
  | refused => exact ⟨nofun, fun _ => rfl⟩

/-- Five bytes in a new stream. -/
theorem ensureRemainingCapacity_spec_new :
    ∃ enough s', ensureRemainingCapacity .zeros 5 {} = .ok (enough, s') ∧
      (enough = true → (5 = 0 ∨ 0 + 5 ≤ s'.capacity) ∧ s'.pos = 0 ∧ s'.length = 0 ∧
        s'.buffer.take 0 = [] ∧ 0 ≤ s'.capacity) ∧
      (enough = false → s' = {}) :=
  ensureRemainingCapacity_spec filled_new.built .zeros (by decide)

/-- The message stays, and there is room behind it if the reservation says so. -/
theorem Ensured.filled {heap : Heap} {l : Nat} {s s' : Stream} {enough : Bool} {out : List UInt8}
    (hensured : Ensured heap l s enough s') (h : s.Filled out) :
    s'.Filled out ∧ (enough = true → out.length + l ≤ s'.capacity) := by
  have hle := h.length_le
  cases hensured with
  | kept hroom =>
      refine ⟨h, fun _ => ?_⟩
      rw [h.pos] at hroom
      omega
  | @grown block htaken hroom hbound =>
      have htaken' : block.take out.length = out := by
        rw [← Nat.min_eq_left hle, ← List.take_take, htaken, h.taken]
      rw [h.pos] at hroom
      exact ⟨⟨h.pos, h.length, htaken', hbound⟩, fun _ => hroom⟩
  | refused => exact ⟨h, nofun⟩

/-- Reserving bytes keeps the message; it succeeds where allocations do. -/
theorem Filled.ensure {s : Stream} {out : List UInt8} (h : s.Filled out) (heap : Heap) {l : Nat}
    (hl : out.length + l ≤ 2 ^ 63) :
    ∃ enough s', ensureRemainingCapacity heap l s = .ok (enough, s') ∧ s'.Filled out ∧
      (enough = true → out.length + l ≤ s'.capacity) ∧ (heap.Ample → enough = true) := by
  obtain ⟨enough, s', hrun, hensured⟩ := h.built.ensured heap (l := l) (by rw [h.pos]; omega)
  obtain ⟨hfilled, hroom⟩ := hensured.filled h
  refine ⟨enough, s', hrun, hfilled, hroom, fun hample => ?_⟩
  cases hensured with
  | kept => rfl
  | grown => rfl
  | refused hfail =>
      have := hfail hample
      rw [h.pos] at this
      omega

/-- Whether there is enough memory depends on the sizes only. -/
theorem ensure_verdict {s t : Stream} {heap : Heap} {l : Nat} {enough enough' : Bool}
    {s' t' : Stream} (hcap : s.capacity = t.capacity) (hpos : s.pos = t.pos)
    (hs : ensureRemainingCapacity heap l s = .ok (enough, s'))
    (ht : ensureRemainingCapacity heap l t = .ok (enough', t')) : enough = enough' := by
  have hnil : s.buffer = [] ↔ t.buffer = [] := by
    rw [← List.length_eq_zero_iff, ← List.length_eq_zero_iff]
    rw [capacity, capacity] at hcap
    rw [hcap]
  simp only [ensureRemainingCapacity, hnil, hcap, hpos] at hs ht
  grind

theorem Filled.reserve_of_le {s : Stream} {out : List UInt8} (h : s.Filled out) (heap : Heap)
    {l : Nat} (hl : out.length + l ≤ s.capacity) : reserve heap l s = .ok ((), s) := by
  rw [Stream.reserve, run_bind (h.ensure_of_le heap hl)]
  rfl

/-- Where allocations succeed, up to 2^63 bytes can be reserved. -/
theorem Filled.reserve {s : Stream} {out : List UInt8} (h : s.Filled out) {heap : Heap}
    (hheap : heap.Ample) {l : Nat} (hl : out.length + l ≤ 2 ^ 63) :
    ∃ s', reserve heap l s = .ok ((), s') ∧ s'.Filled out ∧ out.length + l ≤ s'.capacity := by
  obtain ⟨enough, s', hensure, hfilled, hroom, hample⟩ := h.ensure heap hl
  have henough := hample hheap
  subst henough
  refine ⟨s', ?_, hfilled, hroom rfl⟩
  rw [Stream.reserve, run_bind hensure]
  rfl

/-- Writing a header, on every machine. -/
theorem puts_messageHeader (host : ByteOrder) (heap : Heap) (id : UInt8) (length : UInt32) :
    Puts (writeMessageHeader host heap id length) (id :: wire host 4 length.toNat) := by
  have hput : Puts (writeUInt8 id >>= fun _ => writeUInt32 host length)
      (id :: wire host 4 length.toNat) := (puts_writeUInt8 id).bind (puts_wire host 4 length.toNat)
  intro s out hfilled hroom
  have hfive : out.length + 5 ≤ s.capacity := by
    rw [List.length_cons, length_wire] at hroom
    omega
  obtain ⟨s', hact, hrest⟩ := hput hfilled hroom
  refine ⟨s', ?_, hrest⟩
  rw [writeMessageHeader, run_bind (hfilled.reserve_of_le heap hfive)]
  exact hact

theorem puts_writeMessageHeader (heap : Heap) (id : UInt8) (length : UInt32) :
    Puts (writeMessageHeader .little heap id length) (id :: beBytes 4 length.toNat) := by
  rw [← wire_little]
  exact puts_messageHeader .little heap id length

/-- The length is filled into the header of a message that is complete otherwise. -/
theorem Filled.run_updateMessageLength {s : Stream} {id : UInt8} {length body : List UInt8}
    (h : s.Filled (id :: length ++ body)) (hlen : length.length = 4) (host : ByteOrder)
    (total : Nat) :
    ∃ s', updateMessageLength host total s = .ok ((), s') ∧
      s'.bytes = id :: wire host 4 (UInt32.ofNat total - 5).toNat ++ body ∧
      s'.length = 5 + body.length ∧ s'.length ≤ s'.capacity := by
  have hle := h.length_le
  have hout : (id :: length ++ body).length = 5 + body.length := by
    rw [List.length_append, List.length_cons, hlen]
  have hfield : ∀ n, (wire host 4 n).length = 4 := length_wire host 4
  have hcap : s.buffer.length = s.capacity := rfl
  have hroom : 1 + 4 ≤ s.buffer.length := by omega
  have hone : ∀ n, Stream.pos { s with pos := 1 } + (wire host 4 n).length ≤
      capacity { s with pos := 1 } := by
    intro n
    rw [hfield]
    exact hroom
  rw [updateMessageLength, writeUInt32, writeUInt, ← wire]
  generalize (UInt32.ofNat total - 5).toNat = n
  refine ⟨⟨s.buffer.overwrite 1 (wire host 4 n), 5, s.length⟩, ?_, ?_, ?_, ?_⟩
  · show writeBytes (wire host 4 n) { s with pos := 1 } = _
    rw [writeBytes, run_bind (run_memcpy (hone n))]
    simp only [tell, seek, bind, StateT.bind, Except.bind, hfield, h.length, hout]
    rw [if_neg (by omega)]
  · show (s.buffer.overwrite 1 (wire host 4 n)).take s.length = _
    rw [h.length, List.take_overwrite_inside (by rw [hfield]; omega) hle, h.taken, List.overwrite,
      hfield]
    show [id] ++ wire host 4 n ++ (length ++ body).drop 4 = _
    rw [← hlen, List.drop_left]
    rfl
  · rw [h.length, hout]
  · show s.length ≤ (s.buffer.overwrite 1 (wire host 4 n)).length
    rw [List.length_overwrite (by rw [hfield]; omega), h.length]
    exact hle

-- ============================================================================
-- Records
-- ============================================================================

/-- The computation makes room for `bs` and appends it. -/
def Appends (act : StreamM Unit) (bs : List UInt8) : Prop :=
  ∀ ⦃s : Stream⦄ ⦃out : List UInt8⦄, s.Filled out → out.length + bs.length ≤ 2 ^ 63 →
    ∃ s', act s = .ok ((), s') ∧ s'.Filled (out ++ bs)

theorem appends_pure : Appends (pure ()) [] := by
  intro s out hfilled _
  exact ⟨s, rfl, by rw [List.append_nil]; exact hfilled⟩

theorem Appends.bind {act next : StreamM Unit} {bs cs : List UInt8} (h : Appends act bs)
    (hnext : Appends next cs) : Appends (act >>= fun _ => next) (bs ++ cs) := by
  intro s out hfilled hroom
  rw [List.length_append] at hroom
  obtain ⟨s₁, hact, hfilled₁⟩ := h hfilled (by omega)
  obtain ⟨s₂, hact₂, hfilled₂⟩ := hnext hfilled₁ (by rw [List.length_append]; omega)
  rw [List.append_assoc] at hfilled₂
  exact ⟨s₂, by rw [run_bind hact, hact₂], hfilled₂⟩

/-- What is written in the room that was reserved for it. -/
theorem Puts.appends {next : StreamM Unit} {bs : List UInt8} (h : Puts next bs) {heap : Heap}
    (hheap : heap.Ample) {l : Nat} (hl : bs.length = l) :
    Appends (reserve heap l >>= fun _ => next) bs := by
  intro s out hfilled hroom
  rw [hl] at hroom
  obtain ⟨s₁, hreserve, hfilled₁, hcap⟩ := hfilled.reserve hheap hroom
  obtain ⟨s₂, hact, hfilled₂, -⟩ := h hfilled₁ (by rw [hl]; exact hcap)
  exact ⟨s₂, by rw [run_bind hreserve, hact], hfilled₂⟩

end Stream

end Tclm.Comm
