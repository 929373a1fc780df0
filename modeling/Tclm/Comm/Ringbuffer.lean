/-
  Tclm.Comm.Ringbuffer

  The growing ring buffer of a connection, `src/ringbuffer.{h,cpp}`, as a queue of
  bytes.

  Sizes and positions are `unsigned long` in the source; where an operation on
  them could wrap the model says so (`ULong`).  The block that `buffer` points to
  is a list of bytes, the empty one standing for `nullptr`.  A `Live` buffer has a
  block; its contents are a window of the block that starts at `readpos`.
-/

import Tclm.Lib.ByteOrder
import Tclm.Lib.Memory
import Tclm.Lib.Trace

namespace Tclm.Comm

/-- `ringbuffer` -/
structure Ringbuffer where
  buffer : List UInt8 := []
  capacity : Nat := 0
  readpos : Nat := 0
  writepos : Nat := 0
deriving DecidableEq, Repr

/-- Why a write fails: `malloc` returned a null pointer, or the data does not fit into the
    largest buffer.  `diverges` stands for a doubling loop that goes on for ever. -/
inductive WriteError where
  | malloc
  | enomem
  | diverges
deriving DecidableEq, Repr

namespace Ringbuffer

/-- `ringbuffer::size` -/
def size (rb : Ringbuffer) : Nat :=
  if rb.readpos ≤ rb.writepos then ULong.sub rb.writepos rb.readpos
  else ULong.add (ULong.sub rb.capacity rb.readpos) rb.writepos

-- ============================================================================
-- Writing
-- ============================================================================

/-- The first allocation of `ringbuffer::write`. -/
def allocate (heap : Heap) (length : Nat) (rb : Ringbuffer) : Except WriteError Ringbuffer :=
  match doubleUntil (fun bc => ¬ ULong.sub bc 1 < length) 64 1024 with
  | none => .error .diverges
  | some bc =>
      match heap.malloc bc with
      | none => .error .malloc
      | some block => .ok { rb with buffer := block, capacity := bc }

/-- Copy the contents to the front of a larger block. -/
def moveTo (rb : Ringbuffer) (nb : List UInt8) (nc : Nat) : Ringbuffer :=
  if rb.readpos ≤ rb.writepos then
    let count := ULong.sub rb.writepos rb.readpos
    ⟨nb.overwrite 0 ((rb.buffer.drop rb.readpos).take count), nc, 0, count⟩
  else
    let count := ULong.sub rb.capacity rb.readpos
    ⟨(nb.overwrite 0 ((rb.buffer.drop rb.readpos).take count)).overwrite count
      (rb.buffer.take rb.writepos), nc, 0, rb.size⟩

/-- The growth step of `ringbuffer::write`. -/
def grow (heap : Heap) (length : Nat) (rb : Ringbuffer) : Except WriteError Ringbuffer :=
  match doubleUntil (fun nc => ¬ ULong.sub (ULong.sub nc 1) rb.size < length) 64 rb.capacity with
  | none => .error .diverges
  | some nc =>
      match heap.malloc nc with
      | none => .error .malloc
      | some nb => .ok (rb.moveTo nb nc)

/-- Make room for `length` more bytes, if that is possible. -/
def reserve (heap : Heap) (length : Nat) (rb : Ringbuffer) : Except WriteError Ringbuffer :=
  if rb.buffer = [] then rb.allocate heap length
  else if ULong.sub (ULong.sub rb.capacity 1) rb.size < length then rb.grow heap length
  else .ok rb

/-- Actually write to the buffer. -/
def put (rb : Ringbuffer) (data : List UInt8) : Ringbuffer :=
  let room := ULong.sub rb.capacity rb.writepos
  if data.length ≤ room then
    { rb with
      buffer := rb.buffer.overwrite rb.writepos data
      writepos := ULong.add rb.writepos data.length % rb.capacity }
  else
    { rb with
      buffer := (rb.buffer.overwrite rb.writepos (data.take room)).overwrite 0 (data.drop room)
      writepos := ULong.sub data.length room }

/-- `ringbuffer::write`.  The buffer is returned also when an exception is thrown. -/
def write (heap : Heap) (rb : Ringbuffer) (data : List UInt8) :
    Except WriteError Unit × Ringbuffer :=
  match rb.reserve heap data.length with
  | .error e => (.error e, rb)
  | .ok rb' =>
      if ULong.sub (ULong.sub rb'.capacity 1) rb.size < data.length then (.error .enomem, rb')
      else (.ok (), rb'.put data)

-- ============================================================================
-- Reading
-- ============================================================================

/-- `to_readpos`: how many of `n` bytes can be had. -/
def toReadpos (rb : Ringbuffer) (n : Nat) : Nat := if n ≤ rb.size then n else rb.size

/-- Whether the next `k` bytes stand in one piece. -/
def Contiguous (rb : Ringbuffer) (k : Nat) : Prop :=
  rb.readpos ≤ rb.writepos ∨ k < ULong.sub rb.capacity rb.readpos

instance decidableContiguous (rb : Ringbuffer) (k : Nat) : Decidable (rb.Contiguous k) :=
  inferInstanceAs (Decidable (_ ∨ _))

/-- The copying that `ringbuffer::read` and `ringbuffer::peek` do. -/
def copy (rb : Ringbuffer) (k : Nat) : List UInt8 :=
  if rb.Contiguous k then (rb.buffer.drop rb.readpos).take k
  else
    let count := ULong.sub rb.capacity rb.readpos
    (rb.buffer.drop rb.readpos).take count ++ rb.buffer.take (ULong.sub k count)

/-- `ringbuffer::read`: the bytes that end up in the caller's buffer. -/
def read (rb : Ringbuffer) (n : Nat) : List UInt8 × Ringbuffer :=
  if 0 < rb.size then
    let k := rb.toReadpos n
    if rb.Contiguous k then (rb.copy k, { rb with readpos := ULong.add rb.readpos k })
    else (rb.copy k, { rb with readpos := ULong.add rb.readpos k % rb.capacity })
  else ([], rb)

/-- `ringbuffer::peek` -/
def peek (rb : Ringbuffer) (n : Nat) : List UInt8 :=
  if 0 < rb.size then rb.copy (rb.toReadpos n) else []

/-- `ringbuffer::remove` -/
def remove (rb : Ringbuffer) (count : Nat) : Ringbuffer :=
  if 0 < rb.size then
    { rb with readpos := ULong.add rb.readpos (rb.toReadpos count) % rb.capacity }
  else rb

/-- `read_uint8`, `read_uint16`, `read_uint32` for 1, 2, 4 bytes: the bytes are read into an
    integer of the host, which is converted from big-endian order. -/
def readUInt (host : ByteOrder) (k : Nat) (rb : Ringbuffer) : Nat × Ringbuffer :=
  if k ≤ rb.size then
    let (v, rb') := rb.read k
    (host.betoh k (host.load v), rb')
  else (0, rb)

/-- `ringbuffer::read_uint8` -/
def readUInt8 (host : ByteOrder) : Ringbuffer → Nat × Ringbuffer := readUInt host 1

/-- `ringbuffer::read_uint16` -/
def readUInt16 (host : ByteOrder) : Ringbuffer → Nat × Ringbuffer := readUInt host 2

/-- `ringbuffer::read_uint32` -/
def readUInt32 (host : ByteOrder) : Ringbuffer → Nat × Ringbuffer := readUInt host 4

-- ============================================================================
-- The contents
-- ============================================================================

/-- A buffer with a block.  The capacity is 1024 doubled some times, at most to 2^63. -/
structure Live (rb : Ringbuffer) : Prop where
  pow : ∃ j, rb.capacity = 1024 * 2 ^ j
  le : rb.capacity ≤ 2 ^ 63
  length : rb.buffer.length = rb.capacity
  readpos : rb.readpos < rb.capacity
  writepos : rb.writepos < rb.capacity

/-- A buffer is fresh, or it has a block. -/
def Wf (rb : Ringbuffer) : Prop := rb = {} ∨ rb.Live

/-- The bytes in the buffer, oldest first. -/
def contents (rb : Ringbuffer) : List UInt8 := rb.buffer.window rb.readpos rb.size

theorem contents_fresh : contents {} = [] := rfl

theorem wf_fresh : Wf {} := Or.inl rfl

theorem toReadpos_le (rb : Ringbuffer) (n : Nat) : rb.toReadpos n ≤ rb.size := by
  rw [toReadpos]
  split <;> omega

/-- A doubled size below 2^64 is at most 2^63. -/
theorem doubled_le {m : Nat} (h : 1024 * 2 ^ m < 2 ^ 64) : 1024 * 2 ^ m ≤ 2 ^ 63 := by
  have hpow : 1024 * 2 ^ m = 2 ^ (10 + m) := by rw [Nat.pow_add]
  rw [hpow] at h ⊢
  have hlt : 10 + m < 64 := (Nat.pow_lt_pow_iff_right (by decide)).mp h
  exact Nat.pow_le_pow_right (by decide) (by omega)

namespace Live

variable {rb : Ringbuffer} (h : rb.Live)
include h

theorem capacity_ge : 1024 ≤ rb.capacity := by
  obtain ⟨j, hj⟩ := h.pow
  have : 1 ≤ 2 ^ j := Nat.one_le_two_pow
  omega

theorem buffer_ne_nil : rb.buffer ≠ [] := by
  have := h.capacity_ge
  have := h.length
  intro hnil
  rw [hnil] at this
  simp only [List.length_nil] at this
  omega

/-- `size` without wrap-around of the arithmetic. -/
theorem size_eq :
    rb.size = if rb.readpos ≤ rb.writepos then rb.writepos - rb.readpos
      else rb.capacity - rb.readpos + rb.writepos := by
  have := h.le
  have := h.readpos
  have := h.writepos
  rw [size]
  split
  · rw [ULong.sub_eq (by omega)]
  · rw [ULong.sub_eq (by omega), ULong.add_eq (by omega)]

/-- One cell always stays free. -/
theorem size_lt : rb.size < rb.capacity := by
  have := h.size_eq
  have := h.readpos
  have := h.writepos
  split at * <;> omega

theorem length_contents : rb.contents.length = rb.size :=
  List.length_window (by rw [h.length]; exact h.size_lt.le)

/-- The write position is where the contents end. -/
theorem writepos_eq :
    rb.writepos = if rb.readpos + rb.size < rb.capacity then rb.readpos + rb.size
      else rb.readpos + rb.size - rb.capacity := by
  have := h.size_eq
  have := h.readpos
  have := h.writepos
  split at * <;> split <;> omega

/-- What is copied out of the buffer are the first bytes of the contents. -/
theorem copy_eq {k : Nat} (hk : k ≤ rb.size) : rb.copy k = rb.contents.take k := by
  have hsize := h.size_eq
  have hlt := h.size_lt
  have hr := h.readpos
  have hw := h.writepos
  have hle := h.le
  have hlen := h.length
  rw [contents, List.take_window hk, copy]
  have hcount : ULong.sub rb.capacity rb.readpos = rb.capacity - rb.readpos :=
    ULong.sub_eq (by omega)
  by_cases hc : rb.Contiguous k
  · rw [if_pos hc, List.window_eq_slice]
    rcases hc with hc | hc
    · rw [if_pos hc] at hsize
      omega
    · omega
  · obtain ⟨hwrap, hk'⟩ := not_or.mp hc
    rw [hcount] at hk'
    rw [if_neg hwrap] at hsize
    have hcount' : ULong.sub k (rb.capacity - rb.readpos) = k - (rb.capacity - rb.readpos) :=
      ULong.sub_eq (by omega)
    rw [if_neg hc, List.window_eq_wrap (by omega) (by omega), hcount]
    simp only [hcount', hlen]
    rw [List.take_of_length_le (by rw [List.length_drop]; omega), List.take_take]
    congr 2
    omega

/-- Taking at most `n` bytes is taking `toReadpos n` bytes. -/
theorem take_toReadpos (n : Nat) : rb.contents.take (rb.toReadpos n) = rb.contents.take n := by
  rw [toReadpos]
  split
  · rfl
  · rw [List.take_of_length_le h.length_contents.le,
      List.take_of_length_le (by rw [h.length_contents]; omega)]

theorem drop_toReadpos (n : Nat) : rb.contents.drop (rb.toReadpos n) = rb.contents.drop n := by
  rw [toReadpos]
  split
  · rfl
  · rw [List.drop_eq_nil_of_le h.length_contents.le,
      List.drop_eq_nil_of_le (by rw [h.length_contents]; omega)]

/-- Moving the read position on, with or without taking it modulo the capacity. -/
theorem advance {k r : Nat} (hk : k ≤ rb.size)
    (hr : r = (rb.readpos + k) % rb.capacity) :
    Live { rb with readpos := r } ∧
      contents { rb with readpos := r } = rb.contents.drop k := by
  have hpos : 0 < rb.capacity := by have := h.capacity_ge; omega
  have hlt : r < rb.capacity := hr ▸ Nat.mod_lt _ hpos
  have hlive : Live { rb with readpos := r } := ⟨h.pow, h.le, h.length, hlt, h.writepos⟩
  refine ⟨hlive, ?_⟩
  have hsize : size { rb with readpos := r } = rb.size - k := by
    have h1 := hlive.size_eq
    have h2 := h.writepos_eq
    have h3 := h.readpos
    have h4 := h.size_lt
    have h5 : r = if rb.readpos + k < rb.capacity then rb.readpos + k
        else rb.readpos + k - rb.capacity := by
      rw [hr]
      split
      · exact Nat.mod_eq_of_lt (by assumption)
      · rw [Nat.mod_eq_sub_mod (by omega), Nat.mod_eq_of_lt (by omega)]
    simp only at h1
    split at h1 <;> split at h2 <;> split at h5 <;> omega
  rw [contents, hsize, contents, List.drop_window hk (by rw [h.length]; exact h.size_lt.le)]
  simp only [hr, ← h.length]
  exact List.window_mod _ _ _

/-- Where the data goes: from the write position on, and around the end of the block. -/
theorem put_eq (data : List UInt8) (hn : data.length ≤ rb.capacity) :
    ∃ nb, rb.put data = ⟨nb, rb.capacity, rb.readpos,
        if rb.writepos + data.length < rb.capacity then rb.writepos + data.length
        else rb.writepos + data.length - rb.capacity⟩ ∧
      nb.length = rb.capacity ∧ ∀ i < rb.capacity, nb[i]? =
        if rb.writepos ≤ i ∧ i < rb.writepos + data.length then data[i - rb.writepos]?
        else if i + rb.capacity < rb.writepos + data.length then
          data[i + rb.capacity - rb.writepos]?
        else rb.buffer[i]? := by
  have hw := h.writepos
  have hle := h.le
  have hlen := h.length
  have hroom : ULong.sub rb.capacity rb.writepos = rb.capacity - rb.writepos :=
    ULong.sub_eq (by omega)
  by_cases hfit : data.length ≤ rb.capacity - rb.writepos
  · -- the data stands in one piece
    have hbuf : rb.writepos + data.length ≤ rb.buffer.length := by omega
    have hwp : ULong.add rb.writepos data.length % rb.capacity =
        if rb.writepos + data.length < rb.capacity then rb.writepos + data.length
        else rb.writepos + data.length - rb.capacity := by
      rw [ULong.add_eq (by omega)]
      split
      · exact Nat.mod_eq_of_lt (by assumption)
      · have hend : rb.writepos + data.length = rb.capacity := by omega
        rw [hend, Nat.mod_self, Nat.sub_self]
    refine ⟨rb.buffer.overwrite rb.writepos data, ?_, ?_, ?_⟩
    · simp only [put, hroom, if_pos hfit, hwp]
    · rw [List.length_overwrite hbuf, hlen]
    · intro i hi
      rw [List.getElem?_overwrite hbuf, if_neg (show ¬ i + rb.capacity < _ by omega)]
      by_cases hlow : i < rb.writepos
      · rw [if_pos hlow, if_neg (by omega)]
      · rw [if_neg hlow, ite_and, if_pos (Nat.le_of_not_lt hlow)]
  · -- the data is split at the end of the block
    obtain ⟨a, b, rfl, ha⟩ : ∃ a b, data = a ++ b ∧ a.length = rb.capacity - rb.writepos :=
      ⟨_, _, (List.take_append_drop (rb.capacity - rb.writepos) data).symm, by
        rw [List.length_take]; omega⟩
    rw [List.length_append] at hn hfit
    have hbuf : rb.writepos + a.length ≤ rb.buffer.length := by omega
    have hbuf' : 0 + b.length ≤ (rb.buffer.overwrite rb.writepos a).length := by
      rw [List.length_overwrite hbuf]
      omega
    have hwp : ULong.sub (a.length + b.length) (rb.capacity - rb.writepos) =
        rb.writepos + (a.length + b.length) - rb.capacity := by
      rw [ULong.sub_eq (by omega)]
      omega
    rw [List.length_append]
    refine ⟨(rb.buffer.overwrite rb.writepos a).overwrite 0 b, ?_, ?_, ?_⟩
    · simp only [put, hroom, List.length_append, if_neg hfit, hwp]
      rw [if_neg (by omega), ← ha, List.take_left, List.drop_left]
    · rw [List.length_overwrite hbuf', List.length_overwrite hbuf, hlen]
    · intro i hi
      rw [List.getElem?_overwrite hbuf', List.getElem?_overwrite hbuf, if_neg (Nat.not_lt_zero i),
        List.getElem?_append, List.getElem?_append]
      grind

/-- Writing into a buffer with enough room appends. -/
theorem put_spec (data : List UInt8) (hn : rb.size + data.length < rb.capacity) :
    (rb.put data).Live ∧ (rb.put data).contents = rb.contents ++ data := by
  have hr := h.readpos
  have hw := h.writepos
  have hlen := h.length
  have hweq : rb.writepos = rb.readpos + rb.size ∨
      rb.writepos + rb.capacity = rb.readpos + rb.size := by
    have := h.writepos_eq
    split at this <;> omega
  obtain ⟨nb, hput, hnb, hcells⟩ := h.put_eq data (by omega)
  have hlive : (rb.put data).Live := by
    rw [hput]
    refine ⟨h.pow, h.le, hnb, hr, ?_⟩
    show (if rb.writepos + data.length < rb.capacity then rb.writepos + data.length
      else rb.writepos + data.length - rb.capacity) < rb.capacity
    split <;> omega
  have hsize : (rb.put data).size = rb.size + data.length := by
    have := hlive.size_eq
    rw [hput] at this ⊢
    grind
  refine ⟨hlive, ?_⟩
  rw [contents, hsize, hput]
  show nb.window rb.readpos (rb.size + data.length) = _
  apply List.ext_getElem?
  intro i
  rw [List.getElem?_window (by omega) (by omega), hnb, List.getElem?_append, h.length_contents,
    contents, List.getElem?_window (by omega) (by omega), hlen]
  by_cases hold : i < rb.size
  · -- the old contents stay
    rw [if_pos hold, if_pos hold, if_pos (by omega)]
    split
    · rw [hcells _ (by assumption), if_neg (by omega), if_neg (by omega)]
    · rw [hcells _ (by omega), if_neg (by omega), if_neg (by omega)]
  rw [if_neg hold]
  by_cases hnew : i < rb.size + data.length
  · rw [if_pos hnew]
    have hdata : ∀ j, j = i - rb.size → data[j]? = data[i - rb.size]? := fun j hj => by rw [hj]
    split
    · rw [hcells _ (by assumption), if_pos (by omega)]
      exact hdata _ (by omega)
    · rw [hcells _ (by omega)]
      split
      · exact hdata _ (by omega)
      · rw [if_pos (by omega)]
        exact hdata _ (by omega)
  · rw [if_neg hnew, List.getElem?_eq_none (by omega)]

/-- Moving to a block that is large enough keeps the contents. -/
theorem moveTo_spec {nb : List UInt8} {nc : Nat} (hpow : ∃ j, nc = 1024 * 2 ^ j)
    (hnc : nc ≤ 2 ^ 63) (hnb : nb.length = nc) (hcap : rb.capacity ≤ nc) :
    (rb.moveTo nb nc).Live ∧ (rb.moveTo nb nc).contents = rb.contents := by
  have hr := h.readpos
  have hw := h.writepos
  have hlen := h.length
  have hlt := h.size_lt
  have hsize := h.size_eq
  have hcl := h.length_contents
  -- in both layouts the contents end up at the front of the block
  have hmove : rb.moveTo nb nc = ⟨nb.overwrite 0 rb.contents, nc, 0, rb.size⟩ := by
    rw [moveTo]
    split
    · rename_i hcontig
      rw [if_pos hcontig] at hsize
      have hcount : ULong.sub rb.writepos rb.readpos = rb.size := by
        rw [ULong.sub_eq hcontig, hsize]
      have hslice : (rb.buffer.drop rb.readpos).take rb.size = rb.contents := by
        rw [contents, List.window_eq_slice (by omega)]
      simp only [hcount, hslice]
    · rename_i hwrap
      rw [if_neg hwrap] at hsize
      have hcount : ULong.sub rb.capacity rb.readpos = (rb.buffer.drop rb.readpos).length := by
        rw [ULong.sub_eq (by omega), List.length_drop, hlen]
      have htake : (rb.buffer.take rb.writepos).length = rb.writepos := by
        rw [List.length_take]
        omega
      have hcontents : rb.contents = rb.buffer.drop rb.readpos ++ rb.buffer.take rb.writepos := by
        rw [contents, List.window_eq_wrap (by omega) (by omega), List.take_take]
        congr 2
        omega
      have hdrop := List.length_drop (i := rb.readpos) (l := rb.buffer)
      simp only [hcount, List.take_length]
      conv_lhs =>
        rw [← Nat.zero_add (rb.buffer.drop rb.readpos).length,
          List.overwrite_overwrite (by omega), ← hcontents]
  have hover : 0 + rb.contents.length ≤ nb.length := by omega
  have hlive : (rb.moveTo nb nc).Live := by
    rw [hmove]
    exact ⟨hpow, hnc, by rw [List.length_overwrite hover]; exact hnb, by show 0 < nc; omega,
      by show rb.size < nc; omega⟩
  refine ⟨hlive, ?_⟩
  have hs : (rb.moveTo nb nc).size = rb.size := by
    have := hlive.size_eq
    rw [hmove] at this ⊢
    simpa using this
  rw [contents, hs, hmove]
  show (nb.overwrite 0 rb.contents).window 0 rb.size = rb.contents
  rw [List.window_eq_slice (by rw [List.length_overwrite hover]; omega), List.drop_zero, ← hcl]
  conv_lhs => rw [← Nat.zero_add rb.contents.length]
  rw [List.take_overwrite_end (by omega), List.take_zero, List.nil_append]

/-- Growing keeps the contents and makes room, or the largest capacity is reached. -/
theorem grow_spec {heap : Heap} {n : Nat} :
    (∃ rb', rb.grow heap n = .ok rb' ∧ rb'.Live ∧ rb'.contents = rb.contents ∧
      (rb.size + n < rb'.capacity ∨ rb'.capacity = 2 ^ 63)) ∨
    rb.grow heap n = .error .malloc ∧ ∃ k, heap.malloc k = none := by
  have hle := h.le
  have hlt := h.size_lt
  have hge := h.capacity_ge
  obtain ⟨i, hi⟩ := h.pow
  obtain ⟨j, hnc, hnc64, hend⟩ :=
    doubleUntil_spec (fun nc => ¬ ULong.sub (ULong.sub nc 1) rb.size < n) 64 rb.capacity
      (by omega) (by omega)
  have hpow : rb.capacity * 2 ^ j = 1024 * 2 ^ (i + j) := by
    rw [hi, Nat.mul_assoc, ← Nat.pow_add]
  have hnc63 : rb.capacity * 2 ^ j ≤ 2 ^ 63 := by
    rw [hpow] at hnc64 ⊢
    exact doubled_le hnc64
  have hcap : rb.capacity ≤ rb.capacity * 2 ^ j := Nat.le_mul_of_pos_right _ (Nat.two_pow_pos j)
  rw [grow, hnc]
  generalize rb.capacity * 2 ^ j = nc at *
  cases hm : heap.malloc nc with
  | none => exact Or.inr ⟨by simp only [hm], nc, hm⟩
  | some nb =>
      simp only [hm]
      obtain ⟨hlive, hcont⟩ := h.moveTo_spec ⟨i + j, hpow⟩ hnc63 (heap.length_malloc _ _ hm) hcap
      refine Or.inl ⟨_, rfl, hlive, hcont, ?_⟩
      have hcapacity : (rb.moveTo nb nc).capacity = nc := by
        rw [moveTo]
        split <;> rfl
      rw [hcapacity]
      rcases hend with hend | hend
      · have hfit := of_decide_eq_true hend
        have hone : ULong.sub nc 1 = nc - 1 := ULong.sub_eq (by omega)
        rw [hone, ULong.sub_eq (by omega)] at hfit
        omega
      · omega

end Live

/-- The first allocation. -/
theorem allocate_spec (heap : Heap) (n : Nat) :
    (∃ rb', allocate heap n {} = .ok rb' ∧ rb'.Live ∧ rb'.contents = [] ∧
      (n < rb'.capacity ∨ rb'.capacity = 2 ^ 63)) ∨
    allocate heap n {} = .error .malloc ∧ ∃ k, heap.malloc k = none := by
  obtain ⟨j, hbc, hbc64, hend⟩ :=
    doubleUntil_spec (fun bc => ¬ ULong.sub bc 1 < n) 64 1024 (by omega) (by omega)
  have hbc63 : 1024 * 2 ^ j ≤ 2 ^ 63 := doubled_le hbc64
  have hpos : 1024 ≤ 1024 * 2 ^ j := Nat.le_mul_of_pos_right _ (Nat.two_pow_pos j)
  rw [allocate, hbc]
  cases hm : heap.malloc (1024 * 2 ^ j) with
  | none => exact Or.inr ⟨by simp only [hm], _, hm⟩
  | some block =>
      simp only [hm]
      refine Or.inl ⟨_, rfl, ⟨⟨j, rfl⟩, hbc63, heap.length_malloc _ _ hm, ?_, ?_⟩, rfl, ?_⟩
      · show 0 < 1024 * 2 ^ j
        omega
      · show 0 < 1024 * 2 ^ j
        omega
      · show n < 1024 * 2 ^ j ∨ 1024 * 2 ^ j = 2 ^ 63
        rcases hend with hend | hend
        · have hfit := of_decide_eq_true hend
          rw [ULong.sub_eq (by omega)] at hfit
          omega
        · omega

/-- Making room keeps the contents; it fails only when `malloc` does. -/
theorem Wf.reserve_spec {rb : Ringbuffer} (h : rb.Wf) (heap : Heap) (n : Nat) :
    (∃ rb', rb.reserve heap n = .ok rb' ∧ rb'.Live ∧ rb'.contents = rb.contents ∧
      (rb.size + n < rb'.capacity ∨ rb'.capacity = 2 ^ 63)) ∨
    rb.reserve heap n = .error .malloc ∧ ∃ k, heap.malloc k = none := by
  rcases h with rfl | h
  · have hsize : size {} = 0 := rfl
    rw [reserve, if_pos rfl, contents_fresh, hsize]
    simpa using allocate_spec heap n
  · rw [reserve, if_neg h.buffer_ne_nil]
    split
    · exact h.grow_spec
    · rename_i hroom
      have hle := h.le
      have hlt := h.size_lt
      have hone : ULong.sub rb.capacity 1 = rb.capacity - 1 := ULong.sub_eq (by omega)
      rw [hone, ULong.sub_eq (by omega)] at hroom
      exact Or.inl ⟨rb, rfl, h, rfl, Or.inl (by omega)⟩

theorem Wf.length_contents {rb : Ringbuffer} (h : rb.Wf) : rb.contents.length = rb.size := by
  rcases h with rfl | h
  · rfl
  · exact h.length_contents

/-- A buffer that is not empty has a block. -/
theorem Wf.live {rb : Ringbuffer} (h : rb.Wf) (hpos : 0 < rb.size) : rb.Live := by
  rcases h with rfl | h
  · cases hpos
  · exact h

theorem Wf.contents_eq_nil {rb : Ringbuffer} (h : rb.Wf) (hpos : ¬ 0 < rb.size) :
    rb.contents = [] := by
  apply List.eq_nil_of_length_eq_zero
  rw [h.length_contents]
  omega

/-- A write appends its data and leaves a buffer with a block, or it fails and keeps the
    contents.  It fails only when `malloc` does or when the data does not fit into 2^63
    cells. -/
theorem Wf.write_spec {rb : Ringbuffer} (h : rb.Wf) (heap : Heap) (data : List UInt8) :
    (∃ rb', rb.write heap data = (.ok (), rb') ∧ rb'.Live ∧ rb'.contents = rb.contents ++ data) ∨
    ∃ e rb', rb.write heap data = (.error e, rb') ∧ rb'.Wf ∧ rb'.contents = rb.contents ∧
      (e = .malloc ∧ (∃ k, heap.malloc k = none) ∨
        e = .enomem ∧ 2 ^ 63 ≤ rb.size + data.length) := by
  rcases h.reserve_spec heap data.length with ⟨rb', hres, hlive, hcont, hroom⟩ | ⟨hres, hmalloc⟩
  · have hsize : rb'.size = rb.size := by
      rw [← hlive.length_contents, hcont, h.length_contents]
    have hlt := hlive.size_lt
    have hone : ULong.sub rb'.capacity 1 = rb'.capacity - 1 := ULong.sub_eq (by omega)
    have htwo : ULong.sub (rb'.capacity - 1) rb.size = rb'.capacity - 1 - rb.size :=
      ULong.sub_eq (by omega)
    by_cases hfit : rb'.capacity - 1 - rb.size < data.length
    · refine Or.inr ⟨.enomem, rb', ?_, Or.inr hlive, hcont, Or.inr ⟨rfl, by omega⟩⟩
      simp only [write, hres, hone, htwo, if_pos hfit]
    · obtain ⟨hput, hcont'⟩ := hlive.put_spec data (by omega)
      refine Or.inl ⟨_, ?_, hput, by rw [hcont', hcont]⟩
      simp only [write, hres, hone, htwo, if_neg hfit]
  · exact Or.inr ⟨.malloc, rb, by simp only [write, hres], h, rfl, Or.inl ⟨rfl, hmalloc⟩⟩

/-- `read` takes the first bytes of the contents. -/
theorem Wf.read_spec {rb : Ringbuffer} (hwf : rb.Wf) (n : Nat) :
    (rb.read n).1 = rb.contents.take n ∧ (rb.read n).2.Wf ∧
      (rb.read n).2.contents = rb.contents.drop n := by
  by_cases hpos : 0 < rb.size
  · have h := hwf.live hpos
    have hk := rb.toReadpos_le n
    have hlt := h.size_lt
    have hr := h.readpos
    have hle := h.le
    have hadd : ULong.add rb.readpos (rb.toReadpos n) = rb.readpos + rb.toReadpos n :=
      ULong.add_eq (by omega)
    have hread : rb.read n = (rb.copy (rb.toReadpos n),
        { rb with readpos := (rb.readpos + rb.toReadpos n) % rb.capacity }) := by
      rw [read, if_pos hpos]
      by_cases hc : rb.Contiguous (rb.toReadpos n)
      · -- in one piece the read position does not reach the end of the block
        have hmod : (rb.readpos + rb.toReadpos n) % rb.capacity = rb.readpos + rb.toReadpos n := by
          apply Nat.mod_eq_of_lt
          have hsize := h.size_eq
          have hw := h.writepos
          rcases hc with hc | hc
          · rw [if_pos hc] at hsize
            omega
          · rw [ULong.sub_eq (by omega)] at hc
            omega
        simp only [if_pos hc, hadd, hmod]
      · simp only [if_neg hc, hadd]
    obtain ⟨hlive, hcont⟩ := h.advance hk rfl
    rw [hread]
    exact ⟨by rw [h.copy_eq hk, h.take_toReadpos], Or.inr hlive, by rw [hcont, h.drop_toReadpos]⟩
  · have hnil := hwf.contents_eq_nil hpos
    rw [read, if_neg hpos, hnil]
    exact ⟨List.take_nil.symm, hwf, List.drop_nil.symm⟩

/-- `peek` shows the first bytes of the contents. -/
theorem Wf.peek_eq {rb : Ringbuffer} (hwf : rb.Wf) (n : Nat) : rb.peek n = rb.contents.take n := by
  rw [peek]
  split
  · rename_i hpos
    have h := hwf.live hpos
    rw [h.copy_eq (rb.toReadpos_le n), h.take_toReadpos]
  · rename_i hpos
    rw [hwf.contents_eq_nil hpos, List.take_nil]

/-- `remove` drops the first bytes of the contents. -/
theorem Wf.remove_spec {rb : Ringbuffer} (hwf : rb.Wf) (n : Nat) :
    (rb.remove n).Wf ∧ (rb.remove n).contents = rb.contents.drop n := by
  rw [remove]
  split
  · rename_i hpos
    have h := hwf.live hpos
    have hk := rb.toReadpos_le n
    have hlt := h.size_lt
    have hr := h.readpos
    have hle := h.le
    obtain ⟨hlive, hcont⟩ := h.advance hk rfl
    rw [ULong.add_eq (by omega)]
    exact ⟨Or.inr hlive, by rw [hcont, h.drop_toReadpos]⟩
  · rename_i hpos
    rw [hwf.contents_eq_nil hpos, List.drop_nil]
    exact ⟨hwf, rfl⟩

/-- A number is read off the first bytes, if there are enough. -/
theorem Wf.readUInt_spec {rb : Ringbuffer} (h : rb.Wf) (host : ByteOrder) (k : Nat) :
    (rb.readUInt host k).1 = (if k ≤ rb.contents.length then beVal (rb.contents.take k) else 0) ∧
      (rb.readUInt host k).2.Wf ∧
      (rb.readUInt host k).2.contents =
        if k ≤ rb.contents.length then rb.contents.drop k else rb.contents := by
  obtain ⟨hbytes, hwf, hcont⟩ := h.read_spec k
  rw [readUInt, h.length_contents]
  split
  · rename_i hk
    have hlen : (rb.contents.take k).length = k := by
      rw [List.length_take, h.length_contents]
      omega
    refine ⟨?_, hwf, hcont⟩
    have hload := ByteOrder.betoh_load host (rb.contents.take k)
    rw [hlen] at hload
    simp only [hbytes, hload]
  · exact ⟨rfl, h, rfl⟩

-- ============================================================================
-- A queue of bytes
-- ============================================================================

/-- The calls of the interface. -/
inductive Call where
  | write (data : List UInt8)
  | read (length : Nat)
  | peek (length : Nat)
  | remove (count : Nat)
  | readUInt8
  | readUInt16
  | readUInt32
deriving DecidableEq, Repr

/-- What a call gives back. -/
inductive Reply where
  | done
  | bytes (bs : List UInt8)
  | value (v : Nat)
deriving DecidableEq, Repr

/-- A call on a ring buffer; `none` if it throws an exception. -/
def call (host : ByteOrder) (heap : Heap) (rb : Ringbuffer) : Call → Option (Reply × Ringbuffer)
  | .write data =>
      match rb.write heap data with
      | (.ok (), rb') => some (.done, rb')
      | (.error _, _) => none
  | .read n => some (.bytes (rb.read n).1, (rb.read n).2)
  | .peek n => some (.bytes (rb.peek n), rb)
  | .remove n => some (.done, rb.remove n)
  | .readUInt8 => some (.value (rb.readUInt8 host).1, (rb.readUInt8 host).2)
  | .readUInt16 => some (.value (rb.readUInt16 host).1, (rb.readUInt16 host).2)
  | .readUInt32 => some (.value (rb.readUInt32 host).1, (rb.readUInt32 host).2)

/-- One call that returns, with its reply; the allocator may answer as it likes. -/
def Step (host : ByteOrder) (rb : Ringbuffer) (e : Call × Reply) (rb' : Ringbuffer) : Prop :=
  ∃ heap, rb.call host heap e.1 = some (e.2, rb')

/-- Taking a big-endian number off the front of a queue, if it is long enough. -/
def takeNumber (k : Nat) (q : List UInt8) : Reply × List UInt8 :=
  if k ≤ q.length then (.value (beVal (q.take k)), q.drop k) else (.value 0, q)

/-- The same calls on an unbounded queue of bytes. -/
def queueCall (q : List UInt8) : Call → Reply × List UInt8
  | .write data => (.done, q ++ data)
  | .read n => (.bytes (q.take n), q.drop n)
  | .peek n => (.bytes (q.take n), q)
  | .remove n => (.done, q.drop n)
  | .readUInt8 => takeNumber 1 q
  | .readUInt16 => takeNumber 2 q
  | .readUInt32 => takeNumber 4 q

def QueueStep (q : List UInt8) (e : Call × Reply) (q' : List UInt8) : Prop :=
  queueCall q e.1 = (e.2, q')

/-- Reading a number from the buffer is taking one off its contents. -/
theorem Wf.takeNumber_eq {rb : Ringbuffer} (h : rb.Wf) (host : ByteOrder) (k : Nat) :
    (rb.readUInt host k).2.Wf ∧
      takeNumber k rb.contents =
        (.value (rb.readUInt host k).1, (rb.readUInt host k).2.contents) := by
  obtain ⟨hval, hwf, hcont⟩ := h.readUInt_spec host k
  refine ⟨hwf, ?_⟩
  rw [takeNumber, hval, hcont]
  split <;> rfl

/-- Every call does on the contents what it does on the queue. -/
theorem Step.queueStep {host : ByteOrder} {rb rb' : Ringbuffer} {e : Call × Reply} (h : rb.Wf)
    (hstep : rb.Step host e rb') : rb'.Wf ∧ QueueStep rb.contents e rb'.contents := by
  obtain ⟨call, reply⟩ := e
  obtain ⟨heap, hcall⟩ := hstep
  cases call with
  | write data =>
      rcases h.write_spec heap data with ⟨rb₁, hw, hlive, hcont⟩ | ⟨e, rb₁, hw, -⟩
      · simp only [Ringbuffer.call, hw, Option.some.injEq, Prod.mk.injEq] at hcall
        obtain ⟨rfl, rfl⟩ := hcall
        exact ⟨Or.inr hlive, by rw [hcont]; rfl⟩
      · simp [Ringbuffer.call, hw] at hcall
  | read n =>
      obtain ⟨hbytes, hwf, hcont⟩ := h.read_spec n
      cases hcall
      exact ⟨hwf, by rw [hbytes, hcont]; rfl⟩
  | peek n =>
      cases hcall
      exact ⟨h, by rw [h.peek_eq]; rfl⟩
  | remove n =>
      obtain ⟨hwf, hcont⟩ := h.remove_spec n
      cases hcall
      exact ⟨hwf, by rw [hcont]; rfl⟩
  | readUInt8 =>
      cases hcall
      exact h.takeNumber_eq host 1
  | readUInt16 =>
      cases hcall
      exact h.takeNumber_eq host 2
  | readUInt32 =>
      cases hcall
      exact h.takeNumber_eq host 4

/-- The ring buffer is a queue of bytes.  A sequence of calls on a new buffer gets the
    replies that it gets from an empty queue, the buffer holds as many bytes as the queue,
    and the positions stay inside the block with one cell to spare. -/
theorem refines_queue {host : ByteOrder} {es : List (Call × Reply)} {rb : Ringbuffer}
    (h : Lts.Trace (Step host) {} es rb) :
    (∃ q, Lts.Trace QueueStep [] es q ∧ rb.size = q.length ∧ ∀ n, rb.peek n = q.take n) ∧
    (rb.buffer = [] ∧ rb.readpos = 0 ∧ rb.writepos = 0 ∨
      rb.readpos < rb.capacity ∧ rb.writepos < rb.capacity ∧ rb.size ≤ rb.capacity - 1) := by
  have hrun : rb.Wf ∧ Lts.Trace QueueStep [] es rb.contents := by
    induction h with
    | nil => exact ⟨wf_fresh, contents_fresh ▸ Lts.Trace.nil⟩
    | snoc _ hstep ih =>
        obtain ⟨hwf, htrace⟩ := ih
        obtain ⟨hwf', hqueue⟩ := hstep.queueStep hwf
        exact ⟨hwf', htrace.snoc hqueue⟩
  obtain ⟨hwf, htrace⟩ := hrun
  refine ⟨⟨rb.contents, htrace, hwf.length_contents.symm, hwf.peek_eq⟩, ?_⟩
  rcases hwf with rfl | hlive
  · exact Or.inl ⟨rfl, rfl, rfl⟩
  · exact Or.inr ⟨hlive.readpos, hlive.writepos, by have := hlive.size_lt; omega⟩

/-- Make the calls one after the other. -/
def calls (host : ByteOrder) (heap : Heap) : Ringbuffer → List Call →
    Option (List (Call × Reply) × Ringbuffer)
  | rb, [] => some ([], rb)
  | rb, c :: cs =>
      (rb.call host heap c).bind fun (reply, rb') =>
        (calls host heap rb' cs).map fun (es, rb'') => ((c, reply) :: es, rb'')

theorem trace_of_calls {host : ByteOrder} {heap : Heap} {cs : List Call} {rb₀ rb rb' : Ringbuffer}
    {es es' : List (Call × Reply)} (h : Lts.Trace (Step host) rb₀ es rb)
    (hcalls : calls host heap rb cs = some (es', rb')) :
    Lts.Trace (Step host) rb₀ (es ++ es') rb' := by
  induction cs generalizing rb es es' with
  | nil =>
      cases hcalls
      rw [List.append_nil]
      exact h
  | cons c cs ih =>
      simp only [calls, Option.bind_eq_some_iff, Option.map_eq_some_iff] at hcalls
      obtain ⟨⟨reply, rb₁⟩, hcall, ⟨es₁, rb₂⟩, hrest, heq⟩ := hcalls
      cases heq
      have hstep : Step host rb (c, reply) rb₁ := ⟨heap, hcall⟩
      have := ih (h.snoc hstep) hrest
      rwa [List.append_assoc] at this

theorem refines_queue_fetched :
    ∃ rb, Lts.Trace (Step .little) {}
        [(.write [1, 2, 3, 4], .done), (.read 1, .bytes [1]), (.readUInt16, .value 0x0203)] rb ∧
      (∃ q, Lts.Trace QueueStep []
          [(.write [1, 2, 3, 4], .done), (.read 1, .bytes [1]), (.readUInt16, .value 0x0203)] q ∧
        rb.size = q.length ∧ ∀ n, rb.peek n = q.take n) ∧
      (rb.buffer = [] ∧ rb.readpos = 0 ∧ rb.writepos = 0 ∨
        rb.readpos < rb.capacity ∧ rb.writepos < rb.capacity ∧ rb.size ≤ rb.capacity - 1) := by
  have hrun : (calls .little Heap.zeros {} [.write [1, 2, 3, 4], .read 1, .readUInt16]).map Prod.fst =
      some [(.write [1, 2, 3, 4], .done), (.read 1, .bytes [1]), (.readUInt16, .value 0x0203)] := by
    decide +kernel
  obtain ⟨⟨es, rb⟩, hcalls, rfl⟩ := Option.map_eq_some_iff.mp hrun
  have htrace := trace_of_calls Lts.Trace.nil hcalls
  exact ⟨rb, htrace, refines_queue htrace⟩

end Ringbuffer

end Tclm.Comm
