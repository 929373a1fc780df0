/-
  Tclm.Lib.Memory

  Memory as C code sees it.

  - A block of memory is a list of bytes.  `overwrite dst off src` is what
    `memcpy (dst + off, src, length of src)` leaves behind.
  - `window l r n` are the `n` cells of `l` from position `r` on, going on at the
    front when the end is reached: the contents of a circular buffer.
  - `ULong.add` and `ULong.sub` are the operations of a 64-bit `unsigned long`.
  - `doubleUntil` is the loop that doubles a size until it is large enough or its
    top bit is set.
  - A `Heap` answers allocations: each may fail, and the bytes of a new block are
    arbitrary.
-/

import Mathlib.Algebra.Group.Nat.Defs
import Mathlib.Data.List.Rotate
import Mathlib.Tactic.Common

-- ============================================================================
-- Blocks
-- ============================================================================

namespace List

variable {α : Type*}

/-- Copy `src` over `dst` from position `off` on. -/
def overwrite (dst : List α) (off : Nat) (src : List α) : List α :=
  dst.take off ++ src ++ dst.drop (off + src.length)

theorem length_overwrite {dst src : List α} {off : Nat} (h : off + src.length ≤ dst.length) :
    (dst.overwrite off src).length = dst.length := by
  simp only [overwrite, length_append, length_take, length_drop]
  omega

/-- Only the cells that are copied over change. -/
theorem getElem?_overwrite {dst src : List α} {off i : Nat} (h : off + src.length ≤ dst.length) :
    (dst.overwrite off src)[i]? =
      if i < off then dst[i]? else if i < off + src.length then src[i - off]? else dst[i]? := by
  have hoff : min off dst.length = off := by omega
  rw [overwrite, append_assoc, getElem?_append, length_take, hoff]
  split
  · rename_i hi
    rw [getElem?_take, if_pos hi]
  · rename_i hi
    rw [getElem?_append]
    by_cases hlt : i < off + src.length
    · rw [if_pos (by omega), if_pos hlt]
    · rw [if_neg (by omega), if_neg hlt, getElem?_drop]
      congr 1
      omega

@[simp] theorem overwrite_nil (dst : List α) (off : Nat) : dst.overwrite off [] = dst := by
  simp [overwrite]

/-- Two copies in a row are one. -/
theorem overwrite_overwrite {dst a b : List α} {off : Nat}
    (h : off + (a.length + b.length) ≤ dst.length) :
    (dst.overwrite off a).overwrite (off + a.length) b = dst.overwrite off (a ++ b) := by
  have ha : off + a.length ≤ dst.length := by omega
  have hlen : (dst.overwrite off a).length = dst.length := length_overwrite ha
  refine ext_getElem? fun i => ?_
  rw [getElem?_overwrite (by omega), getElem?_overwrite ha,
    getElem?_overwrite (by rw [length_append]; exact h), getElem?_append, length_append]
  grind

/-- Writing inside of the front changes the front only. -/
theorem take_overwrite_inside {dst src : List α} {off n : Nat} (hn : off + src.length ≤ n)
    (h : n ≤ dst.length) : (dst.overwrite off src).take n = (dst.take n).overwrite off src := by
  apply ext_getElem?
  intro i
  rw [getElem?_overwrite (by rw [length_take]; omega), getElem?_take,
    getElem?_overwrite (by omega), getElem?_take]
  split
  · rfl
  · rw [if_neg (by omega), if_neg (by omega)]

/-- The cells up to the end of a copy. -/
theorem take_overwrite_end {dst src : List α} {off : Nat} (h : off ≤ dst.length) :
    (dst.overwrite off src).take (off + src.length) = dst.take off ++ src := by
  have hlen : (dst.take off ++ src).length = off + src.length := by
    rw [length_append, length_take]
    omega
  rw [overwrite, take_append_of_le_length hlen.ge, take_of_length_le hlen.le]

/-- The `n` cells from position `r` on, going on at the front. -/
def window (l : List α) (r n : Nat) : List α := (l.rotate r).take n

theorem length_window {l : List α} {r n : Nat} (h : n ≤ l.length) : (l.window r n).length = n := by
  rw [window, length_take, length_rotate]
  omega

/-- The cells of a window, the wrap-around written as a case split. -/
theorem getElem?_window {l : List α} {r n i : Nat} (hr : r < l.length) (hn : n ≤ l.length) :
    (l.window r n)[i]? =
      if i < n then if r + i < l.length then l[r + i]? else l[r + i - l.length]? else none := by
  rw [window, getElem?_take]
  split
  · rename_i hi
    rw [getElem?_rotate (by omega), Nat.add_comm i r]
    split
    · rename_i hlt
      rw [Nat.mod_eq_of_lt hlt]
    · rename_i hge
      rw [Nat.mod_eq_sub_mod (by omega), Nat.mod_eq_of_lt (by omega)]
  · rfl

/-- A window without wrap-around is a slice. -/
theorem window_eq_slice {l : List α} {r n : Nat} (h : r + n ≤ l.length) :
    l.window r n = (l.drop r).take n := by
  rw [window, rotate_eq_drop_append_take (by omega), take_append_of_le_length]
  rw [length_drop]
  omega

/-- A window with wrap-around is a slice at the end and one at the front. -/
theorem window_eq_wrap {l : List α} {r n : Nat} (hr : r ≤ l.length) (h : l.length ≤ r + n) :
    l.window r n = l.drop r ++ (l.take (n - (l.length - r))).take r := by
  rw [window, rotate_eq_drop_append_take hr, take_append, length_drop,
    take_of_length_le (by rw [length_drop]; omega), take_take, take_take, Nat.min_comm]

/-- A shorter window at the same position. -/
theorem take_window {l : List α} {r n k : Nat} (h : k ≤ n) :
    (l.window r n).take k = l.window r k := by
  rw [window, window, take_take, Nat.min_eq_left h]

/-- Moving the start of a window drops its first cells. -/
theorem drop_window {l : List α} {r n k : Nat} (h : k ≤ n) (hn : n ≤ l.length) :
    (l.window r n).drop k = l.window (r + k) (n - k) := by
  have hk : k ≤ (l.rotate r).length := by
    rw [length_rotate]
    omega
  rw [window, window, ← rotate_rotate, rotate_eq_drop_append_take hk, drop_take,
    take_append_of_le_length]
  rw [length_drop, length_rotate]
  omega

/-- Positions count modulo the length of the buffer. -/
theorem window_mod (l : List α) (r n : Nat) : l.window (r % l.length) n = l.window r n := by
  rw [window, window, rotate_mod]

end List

-- ============================================================================
-- 64-bit sizes
-- ============================================================================

namespace ULong

/-- `a + b`, modulo 2^64. -/
def add (a b : Nat) : Nat := if a + b < 2 ^ 64 then a + b else a + b - 2 ^ 64

/-- `a - b`, modulo 2^64. -/
def sub (a b : Nat) : Nat := if b ≤ a then a - b else a + 2 ^ 64 - b

theorem add_eq {a b : Nat} (h : a + b < 2 ^ 64) : add a b = a + b := if_pos h

theorem sub_eq {a b : Nat} (h : b ≤ a) : sub a b = a - b := if_pos h

end ULong

/-- `while (!enough (n) && !(n & (1UL << 63))) n *= 2`, with at most `fuel` turns; `none`
    if that is not enough. -/
def doubleUntil (enough : Nat → Bool) : Nat → Nat → Option Nat
  | 0, n => if !enough n && !n.testBit 63 then none else some n
  | fuel + 1, n =>
      if !enough n && !n.testBit 63 then doubleUntil enough fuel (n * 2 % 2 ^ 64) else some n

theorem testBit_63 {n : Nat} (h : n < 2 ^ 64) : n.testBit 63 = decide (2 ^ 63 ≤ n) := by
  rw [Nat.testBit_eq_decide_div_mod_eq]
  congr 1
  simp only [eq_iff_iff]
  omega

theorem doubleUntil_stop {enough : Nat → Bool} {n : Nat} (hn : n < 2 ^ 64)
    (h : enough n ∨ 2 ^ 63 ≤ n) (fuel : Nat) : doubleUntil enough fuel n = some n := by
  have hcond : (!enough n && !n.testBit 63) = false := by
    rw [testBit_63 hn]
    rcases h with h | h
    · rw [h, Bool.not_true, Bool.false_and]
    · rw [decide_eq_true h, Bool.not_true, Bool.and_false]
  cases fuel with
  | zero | succ => rw [doubleUntil, hcond, if_neg Bool.false_ne_true]

theorem doubleUntil_turn {enough : Nat → Bool} {n : Nat} (hn : n < 2 ^ 64)
    (h : ¬ (enough n ∨ 2 ^ 63 ≤ n)) (fuel : Nat) :
    doubleUntil enough (fuel + 1) n = doubleUntil enough fuel (n * 2) := by
  obtain ⟨henough, hsmall⟩ := not_or.mp h
  have hcond : (!enough n && !n.testBit 63) = true := by
    rw [testBit_63 hn, eq_false_of_ne_true henough, decide_eq_false hsmall]
    rfl
  rw [doubleUntil, if_pos hcond, Nat.mod_eq_of_lt (by omega)]

/-- The loop ends, never wraps, and stops at the first size that is enough or has the top
    bit set. -/
theorem doubleUntil_spec (enough : Nat → Bool) (fuel n : Nat) (hn : n < 2 ^ 64)
    (hfuel : 2 ^ 63 ≤ n * 2 ^ fuel) :
    ∃ j, doubleUntil enough fuel n = some (n * 2 ^ j) ∧ n * 2 ^ j < 2 ^ 64 ∧
      (enough (n * 2 ^ j) ∨ 2 ^ 63 ≤ n * 2 ^ j) := by
  have hstop : ∀ fuel n, n < 2 ^ 64 → (enough n ∨ 2 ^ 63 ≤ n) →
      ∃ j, doubleUntil enough fuel n = some (n * 2 ^ j) ∧ n * 2 ^ j < 2 ^ 64 ∧
        (enough (n * 2 ^ j) ∨ 2 ^ 63 ≤ n * 2 ^ j) := by
    intro fuel n hn h
    refine ⟨0, ?_⟩
    rw [Nat.pow_zero, Nat.mul_one]
    exact ⟨doubleUntil_stop hn h fuel, hn, h⟩
  induction fuel generalizing n with
  | zero =>
      rw [Nat.pow_zero, Nat.mul_one] at hfuel
      exact hstop 0 n hn (Or.inr hfuel)
  | succ fuel ih =>
      by_cases h : enough n ∨ 2 ^ 63 ≤ n
      · exact hstop (fuel + 1) n hn h
      · -- one turn, and the rest of the loop from the doubled size
        have hsmall := (not_or.mp h).2
        have hfuel' : 2 ^ 63 ≤ n * 2 * 2 ^ fuel := by
          rw [Nat.mul_assoc, ← Nat.pow_succ']
          exact hfuel
        obtain ⟨j, hres, hlt, hend⟩ := ih (n * 2) (by omega) hfuel'
        have hpow : n * 2 * 2 ^ j = n * 2 ^ (j + 1) := by
          rw [Nat.mul_assoc, ← Nat.pow_succ']
        rw [hpow] at hres hlt hend
        exact ⟨j + 1, (doubleUntil_turn hn h fuel).trans hres, hlt, hend⟩

/-- The loop does not go far beyond the first size that is enough. -/
theorem doubleUntil_le {enough : Nat → Bool} {bound : Nat}
    (hbound : ∀ k, enough k = false → k * 2 ≤ bound) {fuel n m : Nat} (hn : n ≤ bound)
    (h : doubleUntil enough fuel n = some m) : m ≤ bound := by
  induction fuel generalizing n with
  | zero =>
      rw [doubleUntil] at h
      split at h
      · cases h
      · cases h
        exact hn
  | succ fuel ih =>
      rw [doubleUntil] at h
      split at h
      · rename_i hgo
        have hnot : enough n = false := by simpa using (Bool.and_eq_true_iff.mp hgo).1
        exact ih ((Nat.mod_le _ _).trans (hbound n hnot)) h
      · cases h
        exact hn

/-- The loop, started at `n`, comes to test the size `m`. -/
inductive Tested (enough : Nat → Bool) (n : Nat) : Nat → Prop where
  | start : Tested enough n n
  | next {m : Nat} (h : Tested enough n m) (hgo : (!enough m && !m.testBit 63) = true) :
      Tested enough n (m * 2 % 2 ^ 64)

/-- The loop goes on only where doubling does not wrap. -/
theorem double_lt {enough : Nat → Bool} {m : Nat} (hm : m < 2 ^ 64)
    (hgo : (!enough m && !m.testBit 63) = true) : m * 2 < 2 ^ 64 := by
  rw [testBit_63 hm] at hgo
  simp only [Bool.and_eq_true, Bool.not_eq_true', decide_eq_false_iff_not] at hgo
  omega

/-- The tested sizes grow from the first one and stay below 2^64. -/
theorem Tested.bounds {enough : Nat → Bool} {n m : Nat} (h : Tested enough n m) (hn : n < 2 ^ 64) :
    n ≤ m ∧ m < 2 ^ 64 := by
  induction h with
  | start => exact ⟨Nat.le_refl n, hn⟩
  | next _ hgo ih =>
      have hdouble := double_lt ih.2 hgo
      rw [Nat.mod_eq_of_lt hdouble]
      omega

-- ============================================================================
-- Allocation
-- ============================================================================

/-- The answers of the allocator to one call of `calloc`, `malloc` and `realloc` each.  A
    block has the size that was asked for; what it contains is not known. -/
structure Heap where
  /-- Whether `calloc` succeeds. -/
  calloc : Bool
  malloc : Nat → Option (List UInt8)
  realloc : Nat → Option (List UInt8)
  length_malloc : ∀ n block, malloc n = some block → block.length = n
  length_realloc : ∀ n block, realloc n = some block → block.length = n

namespace Heap

/-- Every allocation succeeds. -/
def Ample (h : Heap) : Prop :=
  h.calloc = true ∧ (∀ n, (h.malloc n).isSome) ∧ ∀ n, (h.realloc n).isSome

/-- The allocator that always succeeds with blocks of zeros. -/
def zeros : Heap where
  calloc := true
  malloc n := some (List.replicate n 0)
  realloc n := some (List.replicate n 0)
  length_malloc n block h := by
    cases h
    exact List.length_replicate
  length_realloc n block h := by
    cases h
    exact List.length_replicate

theorem ample_zeros : zeros.Ample := ⟨rfl, fun _ => rfl, fun _ => rfl⟩

end Heap
