/-
  Tclm.Comm.Fields

  Sequences of numbers in a stream, `src/stream.c`.

  - `writeFields` and `readFields` write and read numbers of the four widths one after
    the other, `beFields` are their big-endian encodings in a row.
  - A number is read as zero exactly when fewer bytes are left than it takes; the
    stream does not move then.
  - A writer converts with `htobe` and puts the low byte first, a reader takes the high
    byte first and converts with `letoh`.  On a little-endian machine both are the
    big-endian order; on a big-endian machine the bytes come out in the other order
    (`onWire`), so that two machines understand each other when they have the
    same byte order or the numbers are palindromes.

  Blocks are far smaller than 2^64 bytes, `pos + 8` does not wrap.
-/

import Tclm.Comm.Stream

open Tclm.Comm.Stream

namespace Tclm.Comm

-- ============================================================================
-- Fields
-- ============================================================================

/-- The types of the numbers in a stream. -/
inductive FieldType where
  | uint8
  | uint16
  | uint32
  | uint64
deriving DecidableEq, Repr

/-- A number in a stream. -/
inductive Field where
  | uint8 (d : UInt8)
  | uint16 (d : UInt16)
  | uint32 (d : UInt32)
  | uint64 (d : UInt64)
deriving DecidableEq, Repr

namespace FieldType

/-- The number of bytes in the stream. -/
def width : FieldType → Nat
  | .uint8 => 1
  | .uint16 => 2
  | .uint32 => 4
  | .uint64 => 8

/-- The number with the given low bytes. -/
def field : FieldType → Nat → Field
  | .uint8, n => .uint8 (UInt8.ofNat n)
  | .uint16, n => .uint16 (UInt16.ofNat n)
  | .uint32, n => .uint32 (UInt32.ofNat n)
  | .uint64, n => .uint64 (UInt64.ofNat n)

/-- `stream_read_uint8_t`, `stream_read_uint16_t`, `stream_read_uint32_t`,
    `stream_read_uint64_t` -/
def read (host : ByteOrder) : FieldType → StreamM Field
  | .uint8 => Field.uint8 <$> readUInt8
  | .uint16 => Field.uint16 <$> readUInt16 host
  | .uint32 => Field.uint32 <$> readUInt32 host
  | .uint64 => Field.uint64 <$> readUInt64 host

theorem width_pos (t : FieldType) : 0 < t.width := by
  cases t <;> decide

end FieldType

namespace Field

def type : Field → FieldType
  | .uint8 _ => .uint8
  | .uint16 _ => .uint16
  | .uint32 _ => .uint32
  | .uint64 _ => .uint64

def toNat : Field → Nat
  | .uint8 d => d.toNat
  | .uint16 d => d.toNat
  | .uint32 d => d.toNat
  | .uint64 d => d.toNat

/-- `stream_write_uint8_t`, `stream_write_uint16_t`, `stream_write_uint32_t`,
    `stream_write_uint64_t` -/
def write (host : ByteOrder) : Field → StreamM Unit
  | .uint8 d => writeUInt8 d
  | .uint16 d => writeUInt16 host d
  | .uint32 d => writeUInt32 host d
  | .uint64 d => writeUInt64 host d

/-- The big-endian encoding. -/
def be (f : Field) : List UInt8 := beBytes f.type.width f.toNat

/-- The encoding is the same from both ends. -/
def Palindrome (f : Field) : Prop := f.be.reverse = f.be

instance (f : Field) : Decidable f.Palindrome := inferInstanceAs (Decidable (_ = _))

@[simp] theorem length_be (f : Field) : f.be.length = f.type.width := length_beBytes _ _

theorem toNat_lt (f : Field) : f.toNat < 256 ^ f.type.width := by
  cases f with
  | uint8 d => exact d.toNat_lt
  | uint16 d => exact d.toNat_lt
  | uint32 d => exact d.toNat_lt
  | uint64 d => exact d.toNat_lt

theorem field_toNat (f : Field) : f.type.field f.toNat = f := by
  cases f with
  | uint8 d => exact congrArg Field.uint8 UInt8.ofNat_toNat
  | uint16 d => exact congrArg Field.uint16 UInt16.ofNat_toNat
  | uint32 d => exact congrArg Field.uint32 UInt32.ofNat_toNat
  | uint64 d => exact congrArg Field.uint64 UInt64.ofNat_toNat

end Field

theorem FieldType.type_field (t : FieldType) (n : Nat) : (t.field n).type = t := by
  cases t <;> rfl

theorem FieldType.toNat_field (t : FieldType) (n : Nat) :
    (t.field n).toNat = n % 256 ^ t.width := by
  cases t with
  | uint8 => exact UInt8.toNat_ofNat'
  | uint16 => exact UInt16.toNat_ofNat'
  | uint32 => exact UInt32.toNat_ofNat'
  | uint64 => exact UInt64.toNat_ofNat'

/-- A number is determined by its encoding. -/
theorem Field.be_field_beVal {t : FieldType} {bs : List UInt8} (h : bs.length = t.width) :
    (t.field (beVal bs)).be = bs := by
  have hlt : beVal bs < 256 ^ t.width := h ▸ beVal_lt bs
  rw [Field.be, FieldType.type_field, FieldType.toNat_field, Nat.mod_eq_of_lt hlt, ← h,
    beBytes_beVal]

theorem Field.field_beVal_be (f : Field) : f.type.field (beVal f.be) = f := by
  rw [Field.be, beVal_beBytes_of_lt f.toNat_lt, f.field_toNat]

-- ============================================================================
-- Sequences
-- ============================================================================

/-- One number after the other is written. -/
def writeFields (host : ByteOrder) : List Field → StreamM Unit
  | [] => pure ()
  | f :: fs => do
      f.write host
      writeFields host fs

/-- One number after the other is read. -/
def readFields (host : ByteOrder) : List FieldType → StreamM (List Field)
  | [] => pure []
  | t :: ts => do
      let f ← t.read host
      let fs ← readFields host ts
      pure (f :: fs)

/-- The total size of the numbers. -/
def sizeFields (fs : List Field) : Nat := (fs.map fun f => f.type.width).sum

/-- The big-endian encodings, one after the other. -/
def beFields (fs : List Field) : List UInt8 := fs.flatMap Field.be

-- ============================================================================
-- Bytes on the wire
-- ============================================================================

/-- The order in which a machine puts the bytes of a big-endian encoding on the wire, and in
    which it takes them from there. -/
def onWire : ByteOrder → List UInt8 → List UInt8
  | .little, bs => bs
  | .big, bs => bs.reverse

@[simp] theorem length_onWire (host : ByteOrder) (bs : List UInt8) :
    (onWire host bs).length = bs.length := by
  cases host with
  | little => rfl
  | big => exact List.length_reverse

theorem wire_eq (host : ByteOrder) (k d : Nat) : wire host k d = onWire host (beBytes k d) := by
  cases host with
  | little => exact wire_little k d
  | big =>
      have hback := beBytes_beVal (beBytes k d)
      rw [length_beBytes] at hback
      rw [wire, shiftOut_eq, ByteOrder.htobe, ByteOrder.load, hback]
      rfl

theorem letoh_beVal (host : ByteOrder) (bs : List UInt8) :
    host.letoh bs.length (beVal bs) = beVal (onWire host bs) := by
  cases host with
  | little => rw [ByteOrder.letoh_little, Nat.mod_eq_of_lt (beVal_lt bs)]; rfl
  | big => rw [ByteOrder.letoh, ByteOrder.store, beBytes_beVal]; rfl

/-- One byte has one order. -/
theorem onWire_singleton (host : ByteOrder) (b : UInt8) : onWire host [b] = [b] := by
  cases host <;> rfl

theorem puts_write (host : ByteOrder) (f : Field) : Puts (f.write host) (onWire host f.be) := by
  have hwire : ∀ k d, Puts (writeUInt host k d) (onWire host (beBytes k d)) := fun k d =>
    wire_eq host k d ▸ puts_wire host k d
  cases f with
  | uint8 d =>
      have hbe : (Field.uint8 d).be = [d] := by
        have := beBytes_beVal [d]
        rwa [beVal, beVal, List.length_nil, Nat.pow_zero, Nat.mul_one, Nat.add_zero] at this
      rw [hbe, onWire_singleton]
      exact puts_writeUInt8 d
  | uint16 d => exact hwire 2 d.toNat
  | uint32 d => exact hwire 4 d.toNat
  | uint64 d => exact hwire 8 d.toNat

theorem puts_writeFields (host : ByteOrder) (fs : List Field) :
    Puts (writeFields host fs) (fs.flatMap fun f => onWire host f.be) := by
  induction fs with
  | nil => exact puts_pure
  | cons f fs ih => exact (puts_write host f).bind ih

/-- What a machine makes of the bytes of a number. -/
theorem gets_read (host : ByteOrder) {t : FieldType} {bs : List UInt8} (h : bs.length = t.width) :
    Gets (t.read host) bs (t.field (beVal (onWire host bs))) := by
  have hgets := gets_readUInt_host host h
  rw [← h, letoh_beVal, h] at hgets
  cases t with
  | uint8 =>
      obtain ⟨b, rfl⟩ := List.length_eq_one_iff.mp h
      have hval : beVal [b] = b.toNat := by
        rw [beVal, beVal, List.length_nil, Nat.pow_zero, Nat.mul_one, Nat.add_zero]
      rw [onWire_singleton, hval, FieldType.field, UInt8.ofNat_toNat]
      exact (gets_readUInt8 b).map Field.uint8
  | uint16 => exact (hgets.map UInt16.ofNat).map Field.uint16
  | uint32 => exact (hgets.map UInt32.ofNat).map Field.uint32
  | uint64 => exact (hgets.map UInt64.ofNat).map Field.uint64

/-- Without enough bytes a number is zero, and the stream does not move. -/
theorem run_read_short (host : ByteOrder) {t : FieldType} {s : Stream}
    (h : ¬ s.pos + t.width ≤ s.length) : t.read host s = .ok (t.field 0, s) := by
  cases t with
  | uint8 =>
      have hend : ¬ s.pos < s.length := h
      have hread : readUInt8 s = .ok (0, s) := by rw [readUInt8, if_neg hend]
      exact run_map Field.uint8 hread
  | uint16 =>
      exact run_map Field.uint16 (run_map UInt16.ofNat (run_readUInt_short host h))
  | uint32 =>
      exact run_map Field.uint32 (run_map UInt32.ofNat (run_readUInt_short host h))
  | uint64 =>
      exact run_map Field.uint64 (run_map UInt64.ofNat (run_readUInt_short host h))

/-- With enough bytes the stream moves behind them. -/
theorem run_read (host : ByteOrder) {t : FieldType} {s : Stream} (hcap : s.length ≤ s.capacity)
    (h : s.pos + t.width ≤ s.length) :
    t.read host s =
      .ok (t.field (beVal (onWire host (s.rest.take t.width))), { s with pos := s.pos + t.width }) := by
  have hlen : (s.rest.take t.width).length = t.width := by
    rw [List.length_take, length_rest hcap]
    omega
  have hread := gets_read host hlen hcap (List.take_append_drop t.width s.rest).symm
  rwa [hlen] at hread

/-- A number is read as zero without moving on exactly when there are too few bytes. -/
theorem read_short_iff (host : ByteOrder) (t : FieldType) {s : Stream}
    (hcap : s.length ≤ s.capacity) :
    ∃ f s', t.read host s = .ok (f, s') ∧ s'.length = s.length ∧ s'.buffer = s.buffer ∧
      (f = t.field 0 ∧ s'.pos = s.pos ↔ s.remainingLength < t.width) := by
  have hwidth := t.width_pos
  rw [remainingLength]
  by_cases hroom : s.pos + t.width ≤ s.length
  · refine ⟨_, _, run_read host hcap hroom, rfl, rfl, ?_⟩
    constructor
    · intro h
      have hpos : s.pos + t.width = s.pos := h.2
      omega
    · intro h
      omega
  · refine ⟨_, _, run_read_short host hroom, rfl, rfl, ?_⟩
    constructor
    · intro _
      omega
    · intro _
      exact ⟨rfl, rfl⟩

/-- Any sequence of numbers can be read of a message, the message stays. -/
theorem readFields_ok (host : ByteOrder) (ts : List FieldType) {s : Stream}
    (hcap : s.length ≤ s.capacity) :
    ∃ fs s', readFields host ts s = .ok (fs, s') ∧ s'.length = s.length ∧
      s'.buffer = s.buffer := by
  induction ts generalizing s with
  | nil => exact ⟨[], s, rfl, rfl, rfl⟩
  | cons t ts ih =>
      obtain ⟨f, s₁, hread, hlen₁, hbuf₁, -⟩ := read_short_iff host t hcap
      have hcap₁ : s₁.length ≤ s₁.capacity := by
        rw [hlen₁, capacity, hbuf₁]
        exact hcap
      obtain ⟨fs, s₂, hreads, hlen₂, hbuf₂⟩ := ih hcap₁
      refine ⟨f :: fs, s₂, ?_, by rw [hlen₂, hlen₁], by rw [hbuf₂, hbuf₁]⟩
      rw [readFields, run_bind hread, run_bind hreads]
      rfl

-- ============================================================================
-- From writer to reader
-- ============================================================================

/-- The number that the reader takes from the bytes of the writer. -/
def received (writer reader : ByteOrder) (f : Field) : Field :=
  f.type.field (beVal (onWire reader (onWire writer f.be)))

theorem received_self (host : ByteOrder) (f : Field) : received host host f = f := by
  have hself : onWire host (onWire host f.be) = f.be := by
    cases host with
    | little => rfl
    | big => exact List.reverse_reverse f.be
  rw [received, hself, f.field_beVal_be]

theorem map_received_self (host : ByteOrder) (fs : List Field) :
    fs.map (received host host) = fs :=
  (List.map_congr_left fun f _ => received_self host f).trans (List.map_id fs)

/-- Machines of different byte orders exchange only palindromes unchanged. -/
theorem received_eq_iff {writer reader : ByteOrder} (hne : writer ≠ reader) (f : Field) :
    received writer reader f = f ↔ f.Palindrome := by
  have hrev : onWire reader (onWire writer f.be) = f.be.reverse := by
    cases writer <;> cases reader <;> first | rfl | exact absurd rfl hne
  rw [received, hrev]
  constructor
  · intro h
    have hbe := congrArg Field.be h
    rwa [Field.be_field_beVal (by rw [List.length_reverse, Field.length_be])] at hbe
  · intro h
    rw [show f.be.reverse = f.be from h, f.field_beVal_be]

theorem gets_readFields (writer reader : ByteOrder) (fs : List Field) :
    Gets (readFields reader (fs.map Field.type)) (fs.flatMap fun f => onWire writer f.be)
      (fs.map (received writer reader)) := by
  induction fs with
  | nil => exact gets_pure []
  | cons f fs ih =>
      have hlen : (onWire writer f.be).length = f.type.width := by rw [length_onWire, Field.length_be]
      exact (gets_read reader hlen).bind (ih.bind_pure _)

/-- Numbers are written to a new stream in which room has been made for them, and read from
    there on another machine. -/
theorem exchange (writer reader : ByteOrder) {heap : Heap} {fs : List Field} {s : Stream}
    (hsize : sizeFields fs < 2 ^ 64)
    (hreserve : ensureRemainingCapacity heap (sizeFields fs) {} = .ok (true, s)) :
    ∃ s', writeFields writer fs s = .ok ((), s') ∧ s'.length = sizeFields fs ∧
      s'.pos = sizeFields fs ∧ s'.bytes = fs.flatMap (fun f => onWire writer f.be) ∧
      (do seek 0; readFields reader (fs.map Field.type) : StreamM (List Field)) s' =
        .ok (fs.map (received writer reader), s') := by
  have hlen : (fs.flatMap fun f => onWire writer f.be).length = sizeFields fs := by
    rw [List.length_flatMap, sizeFields]
    simp only [length_onWire, Field.length_be]
  -- there is room for all of them
  obtain ⟨enough, s₀, hrun, hensured⟩ := filled_new.built.ensured heap
    (l := sizeFields fs) (by rw [filled_new.pos, List.length_nil]; omega)
  rw [hreserve] at hrun
  cases hrun
  obtain ⟨hfilled, hroom⟩ := hensured.filled filled_new
  obtain ⟨s', hwrite, hfilled', -⟩ := puts_writeFields writer fs hfilled
    (by rw [hlen]; exact hroom rfl)
  rw [List.nil_append] at hfilled'
  refine ⟨s', hwrite, hlen ▸ hfilled'.length, hlen ▸ hfilled'.pos, hfilled'.bytes_eq, ?_⟩
  -- the reader starts at the first of them
  have hcap : s'.length ≤ s'.capacity := hfilled'.length ▸ hfilled'.length_le
  have hrest : rest { s' with pos := 0 } = (fs.flatMap fun f => onWire writer f.be) ++ [] := by
    rw [List.append_nil]
    exact hfilled'.bytes_eq
  have hread := gets_readFields writer reader fs (s := { s' with pos := 0 }) hcap hrest
  rw [hlen, Nat.zero_add, ← hlen, ← hfilled'.pos] at hread
  exact hread

theorem onWire_be_iff (host : ByteOrder) (f : Field) :
    onWire host f.be = f.be ↔ host = .little ∨ f.Palindrome := by
  cases host with
  | little => exact ⟨fun _ => Or.inl rfl, fun _ => rfl⟩
  | big => exact ⟨Or.inr, fun h => h.resolve_left nofun⟩

/-- Numbers come out in big-endian order when each of them does. -/
theorem flatMap_onWire_iff (host : ByteOrder) (fs : List Field) :
    fs.flatMap (fun f => onWire host f.be) = beFields fs ↔ ∀ f ∈ fs, onWire host f.be = f.be := by
  induction fs with
  | nil => exact ⟨fun _ => nofun, fun _ => rfl⟩
  | cons f fs ih =>
      rw [beFields, List.flatMap_cons, List.flatMap_cons, ← beFields, List.forall_mem_cons, ← ih]
      constructor
      · intro h
        exact List.append_inj h (length_onWire host f.be)
      · rintro ⟨hf, hfs⟩
        rw [hf, hfs]

/-- The format does not show on which machines the numbers are written and read: both write
    the same big-endian bytes, and what the one writes is what the other reads. -/
def HostIndependent (writer reader : ByteOrder) (fs : List Field) (s : Stream) : Prop :=
  (∀ host ∈ [writer, reader], ∃ s', writeFields host fs s = .ok ((), s') ∧ s'.bytes = beFields fs) ∧
    ∃ s' s'', writeFields writer fs s = .ok ((), s') ∧
      (do seek 0; readFields reader (fs.map Field.type) : StreamM (List Field)) s' = .ok (fs, s'')

/-- A sequence is written in big-endian order on little-endian machines, and on big-endian ones
    if all of its numbers are palindromes. -/
theorem written_be_iff (host : ByteOrder) {heap : Heap} {fs : List Field} {s : Stream}
    (hsize : sizeFields fs < 2 ^ 64)
    (hreserve : ensureRemainingCapacity heap (sizeFields fs) {} = .ok (true, s)) :
    (∃ s', writeFields host fs s = .ok ((), s') ∧ s'.bytes = beFields fs) ↔
      host = .little ∨ ∀ f ∈ fs, f.Palindrome := by
  obtain ⟨s', hwrite, -, -, hbytes, -⟩ := exchange host host hsize hreserve
  have hiff : (∃ s', writeFields host fs s = .ok ((), s') ∧ s'.bytes = beFields fs) ↔
      s'.bytes = beFields fs := by
    rw [hwrite]
    constructor
    · rintro ⟨s'', h, hbe⟩
      cases h
      exact hbe
    · intro hbe
      exact ⟨s', rfl, hbe⟩
  rw [hiff, hbytes, flatMap_onWire_iff]
  simp only [onWire_be_iff]
  cases host with
  | little => simp
  | big => simp

/-- A sequence arrives unchanged between machines of one byte order, and otherwise if all of its
    numbers are palindromes. -/
theorem exchanged_iff (writer reader : ByteOrder) {heap : Heap} {fs : List Field} {s : Stream}
    (hsize : sizeFields fs < 2 ^ 64)
    (hreserve : ensureRemainingCapacity heap (sizeFields fs) {} = .ok (true, s)) :
    (∃ s' s'', writeFields writer fs s = .ok ((), s') ∧
      (do seek 0; readFields reader (fs.map Field.type) : StreamM (List Field)) s' =
        .ok (fs, s'')) ↔
      writer = reader ∨ ∀ f ∈ fs, f.Palindrome := by
  obtain ⟨s', hwrite, -, -, -, hread⟩ := exchange writer reader hsize hreserve
  have hiff : (∃ s' s'', writeFields writer fs s = .ok ((), s') ∧
      (do seek 0; readFields reader (fs.map Field.type) : StreamM (List Field)) s' =
        .ok (fs, s'')) ↔ fs.map (received writer reader) = fs := by
    rw [hwrite]
    constructor
    · rintro ⟨t, t', h, hback⟩
      cases h
      rw [hread] at hback
      exact congrArg Prod.fst (Except.ok.inj hback)
    · intro hback
      exact ⟨s', s', rfl, by rw [hread, hback]⟩
  rw [hiff]
  by_cases heq : writer = reader
  · subst heq
    simp only [map_received_self, true_or]
  · have hlist : fs.map (received writer reader) = fs ↔ ∀ f ∈ fs, received writer reader f = f := by
      conv_lhs => rhs; rw [← List.map_id fs]
      exact List.map_inj_left
    rw [hlist]
    simp only [received_eq_iff heq, heq, false_or]

/-- The format is the same for two machines exactly if both are little-endian or all numbers are
    palindromes. -/
theorem hostIndependent_iff (writer reader : ByteOrder) (heap : Heap) {fs : List Field}
    {s : Stream} (hsize : sizeFields fs < 2 ^ 64)
    (hreserve : ensureRemainingCapacity heap (sizeFields fs) {} = .ok (true, s)) :
    HostIndependent writer reader fs s ↔
      writer = .little ∧ reader = .little ∨ ∀ f ∈ fs, f.Palindrome := by
  rw [HostIndependent, exchanged_iff writer reader hsize hreserve]
  simp only [List.mem_cons, List.not_mem_nil, or_false, forall_eq_or_imp, forall_eq,
    written_be_iff _ hsize hreserve]
  cases writer <;> cases reader <;> simp

theorem hostIndependent_iff_little :
    HostIndependent .little .little [.uint16 1] ⟨[0, 0, 0, 0], 0, 0⟩ ↔
      ByteOrder.little = .little ∧ ByteOrder.little = .little ∨
        ∀ f ∈ [Field.uint16 1], f.Palindrome :=
  hostIndependent_iff .little .little .zeros (by decide) (by rfl)

/-- A big-endian machine writes the low byte of `1` first, and a little-endian machine reads 256
    of that. -/
theorem not_hostIndependent :
    ensureRemainingCapacity .zeros 2 {} = .ok (true, ⟨[0, 0, 0, 0], 0, 0⟩) ∧
      writeFields .big [.uint16 1] ⟨[0, 0, 0, 0], 0, 0⟩ = .ok ((), ⟨[1, 0, 0, 0], 2, 2⟩) ∧
      beFields [.uint16 1] = [0, 1] ∧
      readFields .little [.uint16] ⟨[1, 0, 0, 0], 0, 2⟩ =
        .ok ([.uint16 256], ⟨[1, 0, 0, 0], 2, 2⟩) ∧
      ¬ HostIndependent .big .little [.uint16 1] ⟨[0, 0, 0, 0], 0, 0⟩ := by
  have hwrite : writeFields .big [.uint16 1] ⟨[0, 0, 0, 0], 0, 0⟩ =
      .ok ((), ⟨[1, 0, 0, 0], 2, 2⟩) := by rfl
  have hbe : beFields [.uint16 1] = [0, 1] := by decide
  refine ⟨by rfl, hwrite, hbe, by rfl, fun h => ?_⟩
  obtain ⟨s', hs', hbytes⟩ := h.1 .big (List.mem_cons_self ..)
  rw [hwrite] at hs'
  cases hs'
  rw [hbe] at hbytes
  exact absurd hbytes (by decide)

/-- On little-endian machines numbers of all widths are written in big-endian order and read
    again; and a read returns zero without moving on exactly when fewer bytes are left than
    the number takes. -/
theorem fields_round_trip (heap : Heap) {fs : List Field} {s : Stream}
    (hsize : sizeFields fs < 2 ^ 64)
    (hreserve : ensureRemainingCapacity heap (sizeFields fs) {} = .ok (true, s)) :
    (∃ s' s'', writeFields .little fs s = .ok ((), s') ∧ s'.length = sizeFields fs ∧
      s'.pos = sizeFields fs ∧ s'.bytes = beFields fs ∧
      (do seek 0; readFields .little (fs.map Field.type) : StreamM (List Field)) s' =
        .ok (fs, s'')) ∧
    ∀ (bs : List UInt8) (ts : List FieldType) (t : FieldType),
      ∃ gs s f s', readFields .little ts (ofBytes bs) = .ok (gs, s) ∧ s.bytes = bs ∧
        t.read .little s = .ok (f, s') ∧
        (f = t.field 0 ∧ s'.pos = s.pos ↔ s.remainingLength < t.width) := by
  constructor
  · obtain ⟨s', hwrite, hlen, hpos, hbytes, hread⟩ := exchange .little .little hsize hreserve
    refine ⟨s', s', hwrite, hlen, hpos, hbytes, ?_⟩
    rw [hread, map_received_self]
  · intro bs ts t
    obtain ⟨gs, s, hreads, hlen, hbuf⟩ := readFields_ok .little ts (s := ofBytes bs) (Nat.le_refl _)
    have hbytes : s.bytes = bs := by
      rw [Stream.bytes, hlen, hbuf]
      exact List.take_length
    have hcap : s.length ≤ s.capacity := by
      rw [hlen, capacity, hbuf]
      exact Nat.le_refl _
    obtain ⟨f, s', hread, -, -, hiff⟩ := read_short_iff .little t hcap
    exact ⟨gs, s, f, s', hreads, hbytes, hread, hiff⟩

theorem fields_round_trip_mixed :
    (∃ s' s'', writeFields .little [.uint8 7, .uint16 258] ⟨[0, 0, 0, 0], 0, 0⟩ = .ok ((), s') ∧
      s'.length = 3 ∧ s'.pos = 3 ∧ s'.bytes = [7, 1, 2] ∧
      (do seek 0; readFields .little [.uint8, .uint16] : StreamM (List Field)) s' =
        .ok ([.uint8 7, .uint16 258], s'')) ∧
    ∀ (bs : List UInt8) (ts : List FieldType) (t : FieldType),
      ∃ gs s f s', readFields .little ts (ofBytes bs) = .ok (gs, s) ∧ s.bytes = bs ∧
        t.read .little s = .ok (f, s') ∧
        (f = t.field 0 ∧ s'.pos = s.pos ↔ s.remainingLength < t.width) :=
  fields_round_trip .zeros (by decide) (by rfl)

end Tclm.Comm
