/-
  Tclm.Lib.Basic

  Two small tools for models of imperative code.

  Linear search in a list, in zipper form: `splitFirst p l` is the first element
  of `l` that satisfies `p` together with what stands before and after it.  A
  search loop that finds an element, changes it in place and stops is
  `pre ++ a' :: post`; one that removes the element is `pre ++ post`.  The
  equation `l = pre ++ a :: post` is what sums and quantifiers over the list
  rewrite with, so nothing below the definition unfolds it again.

  Computations that may fail: `bind_eq_ok` takes a successful sequence apart.
-/

import Mathlib.Data.List.Basic

namespace List

variable {α : Type*}

/-- The first element satisfying `p`, with the elements before and after it. -/
def splitFirst (p : α → Bool) : List α → Option (List α × α × List α)
  | [] => none
  | a :: l =>
      if p a then some ([], a, l)
      else (splitFirst p l).map fun (pre, b, post) => (a :: pre, b, post)

/-- `splitFirst` fails exactly when no element satisfies `p`. -/
theorem splitFirst_eq_none {p : α → Bool} {l : List α} :
    splitFirst p l = none ↔ ∀ x ∈ l, ¬ p x := by
  induction l with
  | nil => simp [splitFirst]
  | cons a l ih =>
      by_cases ha : p a
      · simp [splitFirst, ha]
      · simp [splitFirst, ha, ih]

/-- What a successful search returns. -/
theorem splitFirst_eq_some {p : α → Bool} {l pre post : List α} {a : α}
    (h : splitFirst p l = some (pre, a, post)) :
    l = pre ++ a :: post ∧ p a ∧ ∀ x ∈ pre, ¬ p x := by
  induction l generalizing pre with
  | nil => simp [splitFirst] at h
  | cons b l ih =>
      by_cases hb : p b
      · simp only [splitFirst, hb, if_true, Option.some.injEq, Prod.mk.injEq] at h
        obtain ⟨rfl, rfl, rfl⟩ := h
        exact ⟨rfl, hb, by simp⟩
      · simp only [splitFirst, hb, Bool.false_eq_true, if_false, Option.map_eq_some_iff] at h
        obtain ⟨⟨pre', a', post'⟩, hl, heq⟩ := h
        simp only [Prod.mk.injEq] at heq
        obtain ⟨rfl, rfl, rfl⟩ := heq
        obtain ⟨rfl, ha, hpre⟩ := ih hl
        refine ⟨rfl, ha, ?_⟩
        intro x hx
        rcases List.mem_cons.mp hx with rfl | hx
        · exact hb
        · exact hpre x hx

/-- `find?` and `splitFirst` stop at the same element. -/
theorem find?_append_cons {p : α → Bool} {pre post : List α} {a : α}
    (ha : p a) (hpre : ∀ x ∈ pre, ¬ p x) :
    (pre ++ a :: post).find? p = some a := by
  have hnone : pre.find? p = none := List.find?_eq_none.mpr hpre
  simp [List.find?_append, hnone, ha]

end List

/-- A sequence succeeds when both of its parts do. -/
theorem bind_eq_ok {ε α β : Type} {x : Except ε α} {f : α → Except ε β} {b : β} :
    x >>= f = .ok b ↔ ∃ a, x = .ok a ∧ f a = .ok b := by
  cases x with
  | error e =>
      constructor
      · intro h; cases h
      · rintro ⟨a, h, -⟩; cases h
  | ok a =>
      constructor
      · intro h; exact ⟨a, rfl, h⟩
      · rintro ⟨a', h, hf⟩; cases h; exact hf
