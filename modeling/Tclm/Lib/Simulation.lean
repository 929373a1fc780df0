/-
  Tclm.Lib.Simulation

  Forward simulation between labelled transition systems, and the queue that channels
  are compared with.

  A simulation shows some events of the concrete system, each as an event of the abstract
  one.  The abstract state does not notice the others.  What is proved of the runs of the
  abstract system then holds of those of the concrete one (`Simulation.trace`).
-/

import Tclm.Lib.Trace

namespace Lts

-- ============================================================================
-- Forward simulation
-- ============================================================================

section

variable {σ ε τ δ : Type*} {step : σ → ε → σ → Prop} {view : ε → Option δ}
  {step' : τ → δ → τ → Prop} {R : σ → τ → Prop}

/-- Related states stay related: an event that is shown is matched by the abstract system,
    the others leave the abstract state alone. -/
structure Simulation (step : σ → ε → σ → Prop) (view : ε → Option δ) (step' : τ → δ → τ → Prop)
    (R : σ → τ → Prop) : Prop where
  visible : ∀ {s s' t e d}, R s t → step s e s' → view e = some d → ∃ t', step' t d t' ∧ R s' t'
  internal : ∀ {s s' t e}, R s t → step s e s' → view e = none → R s' t

/-- A run of the concrete system is a run of the abstract one with the events that are
    shown. -/
theorem Simulation.trace (h : Simulation step view step' R) {s s' : σ} {t : τ} {es : List ε}
    (hst : R s t) (hrun : Trace step s es s') :
    ∃ t', Trace step' t (es.filterMap view) t' ∧ R s' t' := by
  induction hrun with
  | nil => exact ⟨t, .nil, hst⟩
  | @snoc s₁ s₂ es e _ he ih =>
      obtain ⟨t₁, hrun, hst₁⟩ := ih
      rw [List.filterMap_append]
      cases hview : view e with
      | none =>
          have hnone : [e].filterMap view = [] := by simp [hview]
          rw [hnone, List.append_nil]
          exact ⟨t₁, hrun, h.internal hst₁ he hview⟩
      | some d =>
          obtain ⟨t₂, hstep, hst₂⟩ := h.visible hst₁ he hview
          have hone : [e].filterMap view = [d] := by simp [hview]
          rw [hone]
          exact ⟨t₂, hrun.snoc hstep, hst₂⟩

/-- Reachable states are related to reachable ones. -/
theorem Simulation.reachable (h : Simulation step view step' R) {s s' : σ} {t : τ} (hst : R s t)
    (hreach : Reachable step s s') : ∃ t', Reachable step' t t' ∧ R s' t' := by
  obtain ⟨es, hrun⟩ := hreach
  obtain ⟨t', hrun', hst'⟩ := h.trace hst hrun
  exact ⟨t', ⟨_, hrun'⟩, hst'⟩

end

-- ============================================================================
-- Queues
-- ============================================================================

section

variable {α : Type*}

/-- Something goes into a queue or comes out of it. -/
inductive QueueEvent (α : Type*) where
  | put (a : α)
  | take (a : α)

namespace QueueEvent

def putIn : QueueEvent α → Option α
  | put a => some a
  | take _ => none

def takenOut : QueueEvent α → Option α
  | put _ => none
  | take a => some a

end QueueEvent

/-- First in, first out. -/
inductive QueueStep : List α → QueueEvent α → List α → Prop where
  | put (q : List α) (a : α) : QueueStep q (.put a) (q ++ [a])
  | take (q : List α) (a : α) : QueueStep (a :: q) (.take a) q

/-- Nothing is lost, doubled or overtaken in a queue. -/
theorem queue_in_order {q q' : List α} {es : List (QueueEvent α)} (h : Trace QueueStep q es q') :
    q ++ es.filterMap QueueEvent.putIn = es.filterMap QueueEvent.takenOut ++ q' := by
  induction h with
  | nil => simp
  | snoc _ he ih =>
      rw [List.filterMap_append, List.filterMap_append, ← List.append_assoc, ih]
      cases he with
      | put q a => simp [QueueEvent.putIn, QueueEvent.takenOut]
      | take q a => simp [QueueEvent.putIn, QueueEvent.takenOut]

end

end Lts
