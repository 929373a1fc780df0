/-
  Tclm.Lib.ByteOrder

  Numbers as byte strings.

  - `beBytes k n` are the low `k` bytes of `n`, most significant first; `beVal` is
    the number such a string stands for.
  - A machine keeps a number in memory in its own byte order: `load` and `store`.
  - `htobe`, `betoh` and `letoh` are the conversions of `<endian.h>`, described by
    what they do to the bytes in memory: `htobe x` is the number whose bytes in
    memory are the big-endian bytes of `x`, `betoh` undoes that, and `letoh x` is
    the number that the bytes of `x` stand for in little-endian order.
-/

import Mathlib.Tactic.Ring

/-- The order in which a machine stores the bytes of a number. -/
inductive ByteOrder where
  | little
  | big
deriving DecidableEq, Repr

-- ============================================================================
-- Big-endian strings
-- ============================================================================

/-- The low `k` bytes of `n`, most significant byte first. -/
def beBytes : Nat → Nat → List UInt8
  | 0, _ => []
  | k + 1, n => UInt8.ofNat (n / 256 ^ k) :: beBytes k n

/-- The number that a big-endian byte string stands for. -/
def beVal : List UInt8 → Nat
  | [] => 0
  | b :: bs => b.toNat * 256 ^ bs.length + beVal bs

@[simp] theorem length_beBytes (k n : Nat) : (beBytes k n).length = k := by
  induction k with
  | zero => rfl
  | succ k ih => rw [beBytes, List.length_cons, ih]

theorem beVal_lt (bs : List UInt8) : beVal bs < 256 ^ bs.length := by
  induction bs with
  | nil => simp [beVal]
  | cons b bs ih =>
      have hb : b.toNat < 256 := b.toNat_lt
      have hle : (b.toNat + 1) * 256 ^ bs.length ≤ 256 * 256 ^ bs.length :=
        Nat.mul_le_mul_right _ hb
      rw [Nat.add_mul, Nat.one_mul] at hle
      rw [beVal, List.length_cons, Nat.pow_succ']
      omega

/-- Only the low `k` bytes matter. -/
theorem beVal_beBytes (k n : Nat) : beVal (beBytes k n) = n % 256 ^ k := by
  induction k with
  | zero => simp [beBytes, beVal, Nat.mod_one]
  | succ k ih =>
      have hsplit : n % 256 ^ (k + 1) = n % 256 ^ k + 256 ^ k * (n / 256 ^ k % 256) := by
        rw [Nat.pow_succ, Nat.mod_mul]
      rw [beBytes, beVal, length_beBytes, ih, UInt8.toNat_ofNat', hsplit]
      ring

theorem beVal_beBytes_of_lt {k n : Nat} (h : n < 256 ^ k) : beVal (beBytes k n) = n := by
  rw [beVal_beBytes, Nat.mod_eq_of_lt h]

/-- Bytes above the top one that is asked for do not matter. -/
theorem beBytes_add_mul (k m n : Nat) : beBytes k (m * 256 ^ k + n) = beBytes k n := by
  induction k generalizing m with
  | zero => rfl
  | succ k ih =>
      have hpow : m * 256 ^ (k + 1) = m * 256 * 256 ^ k := by
        rw [Nat.pow_succ]
        ring
      rw [beBytes, beBytes, hpow, ih]
      congr 1
      apply UInt8.toNat_inj.mp
      rw [UInt8.toNat_ofNat', UInt8.toNat_ofNat', Nat.add_comm,
        Nat.add_mul_div_right _ _ (Nat.pow_pos (by decide))]
      omega

theorem beBytes_beVal (bs : List UInt8) : beBytes bs.length (beVal bs) = bs := by
  induction bs with
  | nil => rfl
  | cons b bs ih =>
      rw [List.length_cons, beVal, beBytes, beBytes_add_mul, ih]
      congr 1
      apply UInt8.toNat_inj.mp
      have hb : b.toNat < 256 := b.toNat_lt
      rw [UInt8.toNat_ofNat', Nat.add_comm, Nat.add_mul_div_right _ _ (Nat.pow_pos (by decide)),
        Nat.div_eq_of_lt (beVal_lt bs)]
      omega

/-- Reading on: one more byte at the low end. -/
theorem beVal_concat (bs : List UInt8) (b : UInt8) : beVal (bs ++ [b]) = beVal bs * 256 + b.toNat := by
  induction bs with
  | nil => simp [beVal]
  | cons c bs ih =>
      rw [List.cons_append, beVal, ih, List.length_append, beVal, List.length_singleton,
        Nat.pow_succ]
      ring

-- ============================================================================
-- Memory and <endian.h>
-- ============================================================================

namespace ByteOrder

/-- The number whose bytes stand in memory. -/
def load : ByteOrder → List UInt8 → Nat
  | .little, bs => beVal bs.reverse
  | .big, bs => beVal bs

/-- The bytes in memory of a number of `k` bytes. -/
def store : ByteOrder → Nat → Nat → List UInt8
  | .little, k, n => (beBytes k n).reverse
  | .big, k, n => beBytes k n

/-- `htobe16`, `htobe32`, `htobe64` (`k` is the width in bytes). -/
def htobe (host : ByteOrder) (k n : Nat) : Nat := host.load (beBytes k n)

/-- `be16toh`, `be32toh`, `be64toh` -/
def betoh (host : ByteOrder) (k n : Nat) : Nat := beVal (host.store k n)

/-- `le16toh`, `le32toh`, `le64toh` -/
def letoh (host : ByteOrder) (k n : Nat) : Nat := beVal (host.store k n).reverse

theorem store_load (host : ByteOrder) (bs : List UInt8) : host.store bs.length (host.load bs) = bs := by
  cases host with
  | little =>
      rw [store, load]
      conv_lhs => rw [← List.length_reverse]
      rw [beBytes_beVal, List.reverse_reverse]
  | big => exact beBytes_beVal bs

/-- Loading and converting reads the bytes in big-endian order, on every machine. -/
theorem betoh_load (host : ByteOrder) (bs : List UInt8) :
    host.betoh bs.length (host.load bs) = beVal bs := by
  rw [betoh, store_load]

theorem letoh_little (k n : Nat) : ByteOrder.little.letoh k n = n % 256 ^ k := by
  rw [letoh, store, List.reverse_reverse, beVal_beBytes]

end ByteOrder
