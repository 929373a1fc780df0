/-
  Tclm.Lib.Descent

  Runs that make something smaller until nothing is left.
-/

import Tclm.Lib.Trace
import Mathlib.Algebra.BigOperators.Group.Finset.Basic
import Mathlib.Algebra.Order.BigOperators.Group.Finset

namespace Lts

variable {σ ε : Type*} {step : σ → ε → σ → Prop}

/-- If something can be made smaller as long as there is any, there is a run after which there
    is none. -/
theorem exists_trace_of_descent (Inv : σ → Prop) (size : σ → Nat)
    (hstep : ∀ s, Inv s → size s ≠ 0 → ∃ e s', step s e s' ∧ Inv s' ∧ size s' < size s) {s : σ}
    (hs : Inv s) : ∃ es s', Trace step s es s' ∧ Inv s' ∧ size s' = 0 := by
  induction hn : size s using Nat.strong_induction_on generalizing s with
  | _ n ih =>
      by_cases hzero : size s = 0
      · exact ⟨[], s, .nil, hs, hzero⟩
      · obtain ⟨e, s₁, he, hs₁, hlt⟩ := hstep s hs hzero
        obtain ⟨es, s', hrun, hs', hsize⟩ := ih (size s₁) (hn ▸ hlt) hs₁ rfl
        exact ⟨[e] ++ es, s', (Trace.snoc .nil he).append hrun, hs', hsize⟩

section

variable {κ α : Type*}

/-- How much is in finitely many channels. -/
def load (C : Finset κ) (channels : κ → List α) : Nat := ∑ k ∈ C, (channels k).length

/-- A channel gets shorter. -/
theorem load_update_lt [DecidableEq κ] {C : Finset κ} {channels : κ → List α} {k : κ} {a : α} {rest : List α}
    (hk : k ∈ C) (hchannel : channels k = a :: rest) :
    load C (Function.update channels k rest) < load C channels := by
  refine Finset.sum_lt_sum (fun k' _ => ?_) ⟨k, hk, ?_⟩
  · by_cases heq : k' = k
    · subst heq
      rw [Function.update_self, hchannel]
      exact Nat.le_succ _
    · rw [Function.update_of_ne heq]
  · rw [Function.update_self, hchannel]
    exact Nat.lt_succ_self _

theorem exists_of_load_ne_zero {C : Finset κ} {channels : κ → List α} (h : load C channels ≠ 0) :
    ∃ k ∈ C, ∃ a rest, channels k = a :: rest := by
  obtain ⟨k, hk, hne⟩ := Finset.exists_ne_zero_of_sum_ne_zero h
  obtain ⟨a, rest, hchannel⟩ := List.exists_cons_of_length_pos (Nat.pos_of_ne_zero hne)
  exact ⟨k, hk, a, rest, hchannel⟩

theorem eq_nil_of_load_eq_zero {C : Finset κ} {channels : κ → List α} (h : load C channels = 0)
    (hempty : ∀ k, k ∉ C → channels k = []) (k : κ) : channels k = [] := by
  by_cases hk : k ∈ C
  · exact List.eq_nil_of_length_eq_zero (Finset.sum_eq_zero_iff.mp h k hk)
  · exact hempty k hk

end

end Lts
