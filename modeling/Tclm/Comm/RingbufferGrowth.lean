/-
  Tclm.Comm.RingbufferGrowth

  Growing the ring buffer for every 64-bit length.

  Here a run goes on also after a `write` that has thrown an exception, since the buffer
  stays in use then.  In every such state no operation of `write` on `unsigned long`
  wraps (`NoWrap`), the doubling loops end, and a `write` that throws shows in neither the
  size nor the bytes.
-/

import Tclm.Comm.Ringbuffer

namespace Tclm.Comm

namespace Ringbuffer

/-- One call with the state it leaves behind, be it by an exception. -/
def Next (host : ByteOrder) (rb : Ringbuffer) (c : Call) (rb' : Ringbuffer) : Prop :=
  (∃ heap data, c = .write data ∧ data.length < 2 ^ 64 ∧ rb' = (rb.write heap data).2) ∨
    ∃ heap reply, rb.call host heap c = some (reply, rb')

/-- The first loop has reached a size that is enough. -/
def allocated (length bc : Nat) : Bool := ¬ ULong.sub bc 1 < length

/-- The second loop has reached a size that is enough. -/
def grown (size length nc : Nat) : Bool := ¬ ULong.sub (ULong.sub nc 1) size < length

/-- No subtraction, addition or doubling that `ringbuffer::write` makes wraps. -/
structure NoWrap (rb : Ringbuffer) (length : Nat) : Prop where
  /-- `capacity - readpos + writepos` -/
  size : rb.writepos < rb.readpos →
    rb.readpos ≤ rb.capacity ∧ rb.capacity - rb.readpos + rb.writepos < 2 ^ 64
  /-- `bc - 1` and `bc *= 2` -/
  allocate : rb.buffer = [] → ∀ bc, Tested (allocated length) 1024 bc →
    1 ≤ bc ∧ ((!allocated length bc && !bc.testBit 63) = true → bc * 2 < 2 ^ 64)
  /-- `nc - 1 - s`, first of all for the present capacity, and `nc *= 2` -/
  grow : rb.buffer ≠ [] → ∀ nc, Tested (grown rb.size length) rb.capacity nc →
    1 ≤ nc ∧ rb.size ≤ nc - 1 ∧
      ((!grown rb.size length nc && !nc.testBit 63) = true → nc * 2 < 2 ^ 64)
  /-- `capacity - 1 - s` when room has been made -/
  room : ∀ heap rb', rb.reserve heap length = .ok rb' →
    1 ≤ rb'.capacity ∧ rb.size ≤ rb'.capacity - 1
  /-- `capacity - writepos`, `writepos + length` and `length - (capacity - writepos)` -/
  put : ∀ heap rb', rb.reserve heap length = .ok rb' → length ≤ rb'.capacity - 1 - rb.size →
    rb'.writepos ≤ rb'.capacity ∧
      (length ≤ rb'.capacity - rb'.writepos → rb'.writepos + length < 2 ^ 64) ∧
      (¬ length ≤ rb'.capacity - rb'.writepos → rb'.capacity - rb'.writepos ≤ length)

theorem Next.wf {host : ByteOrder} {rb rb' : Ringbuffer} {c : Call} (h : rb.Wf)
    (hnext : Next host rb c rb') : rb'.Wf := by
  rcases hnext with ⟨heap, data, -, -, rfl⟩ | ⟨heap, reply, hcall⟩
  · rcases h.write_spec heap data with ⟨rb₁, hw, hlive, -⟩ | ⟨e, rb₁, hw, hwf, -⟩
    · rw [hw]
      exact Or.inr hlive
    · rw [hw]
      exact hwf
  · exact (Step.queueStep (e := (c, reply)) h ⟨heap, hcall⟩).1

theorem Wf.noWrap {rb : Ringbuffer} (h : rb.Wf) {length : Nat} : rb.NoWrap length where
  size hlt := by
    rcases h with rfl | h
    · cases hlt
    · have := h.le
      have := h.readpos
      have := h.writepos
      omega
  allocate _ bc hbc := by
    obtain ⟨hge, hlt⟩ := hbc.bounds (by omega)
    exact ⟨by omega, double_lt hlt⟩
  grow hblock nc hnc := by
    rcases h with rfl | h
    · exact absurd rfl hblock
    · have hle := h.le
      have hsize := h.size_lt
      obtain ⟨hge, hlt⟩ := hnc.bounds (by omega)
      exact ⟨by omega, by omega, double_lt hlt⟩
  room heap rb' hres := by
    rcases h.reserve_spec heap length with ⟨rb₁, hres₁, hlive, hcont, -⟩ | ⟨hres₁, -⟩
    · rw [hres₁] at hres
      cases hres
      have hsize := hlive.size_lt
      rw [← hlive.length_contents, hcont, h.length_contents] at hsize
      omega
    · rw [hres₁] at hres
      cases hres
  put heap rb' hres hlength := by
    rcases h.reserve_spec heap length with ⟨rb₁, hres₁, hlive, -⟩ | ⟨hres₁, -⟩
    · rw [hres₁] at hres
      cases hres
      have hle := hlive.le
      have hw := hlive.writepos
      omega
    · rw [hres₁] at hres
      cases hres

/-- `ringbuffer::write` for every 64-bit length: its arithmetic does not wrap, it ends, a
    successful write leaves a power of two as the capacity, with room for everything and one
    cell more, and a write that throws leaves the queued bytes as they were. -/
theorem write_sound {host : ByteOrder} {rb : Ringbuffer}
    (h : Lts.Reachable (Next host) {} rb) (heap : Heap) (data : List UInt8)
    (_hdata : data.length < 2 ^ 64) :
    rb.NoWrap data.length ∧
    (rb.write heap data).1 ≠ .error .diverges ∧
    ((rb.write heap data).1 = .ok () →
      (∃ k, (rb.write heap data).2.capacity = 2 ^ k) ∧
        rb.size + data.length + 1 ≤ (rb.write heap data).2.capacity) ∧
    ∀ e, (rb.write heap data).1 = .error e →
      (rb.write heap data).2.size = rb.size ∧
        ∀ n, (rb.write heap data).2.peek n = rb.peek n := by
  have hwf : rb.Wf := h.invariant Wf wf_fresh fun hwf hnext => hnext.wf hwf
  refine ⟨hwf.noWrap, ?_⟩
  rcases hwf.write_spec heap data with
    ⟨rb', hw, hlive, hcont⟩ | ⟨e, rb', hw, hwf', hcont, hreason⟩
  · refine ⟨by simp [hw], fun _ => ?_, fun e he => by simp [hw] at he⟩
    obtain ⟨j, hj⟩ := hlive.pow
    have hsize := hlive.size_lt
    rw [← hlive.length_contents, hcont, List.length_append, hwf.length_contents] at hsize
    rw [hw]
    refine ⟨⟨10 + j, ?_⟩, hsize⟩
    rw [hj, Nat.pow_add]
  · refine ⟨?_, fun hok => by simp [hw] at hok, fun _ _ => ?_⟩
    · rcases hreason with ⟨rfl, -⟩ | ⟨rfl, -⟩
      · simp [hw]
      · simp [hw]
    · rw [hw]
      refine ⟨?_, fun n => ?_⟩
      · rw [← hwf'.length_contents, hcont, hwf.length_contents]
      · rw [hwf'.peek_eq, hcont, hwf.peek_eq]

/-- A write of four bytes into a buffer that has three. -/
theorem write_sound_second :
    ∃ rb, Lts.Reachable (Next .little) {} rb ∧ rb.NoWrap 4 ∧
      (rb.write Heap.zeros [4, 5, 6, 7]).1 ≠ .error .diverges := by
  have hfirst : Lts.Reachable (Next .little) {} (write Heap.zeros {} [1, 2, 3]).2 :=
    (Lts.Reachable.refl _).next (Or.inl ⟨Heap.zeros, [1, 2, 3], rfl, by decide, rfl⟩)
  obtain ⟨hwrap, hends, -, -⟩ := write_sound hfirst Heap.zeros [4, 5, 6, 7] (by decide)
  exact ⟨_, hfirst, hwrap, hends⟩

end Ringbuffer

end Tclm.Comm
