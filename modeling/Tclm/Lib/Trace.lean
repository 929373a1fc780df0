/-
  Tclm.Lib.Trace

  Labelled transition systems: finite runs with their events, reachable states,
  and the induction rule for invariants.

  A run "all of whose steps meet a condition `K`" is a run of the strengthened
  relation `fun s e t => K s e ∧ step s e t`.
-/

import Mathlib.Tactic.Common

namespace Lts

variable {σ ε : Type*} {step : σ → ε → σ → Prop}

/-- A finite run from a state to a state, with the events on the way. -/
inductive Trace (step : σ → ε → σ → Prop) (s : σ) : List ε → σ → Prop where
  | nil : Trace step s [] s
  | snoc {t u : σ} {es : List ε} {e : ε} :
      Trace step s es t → step t e u → Trace step s (es ++ [e]) u

/-- `t` ends some run that starts in `s`. -/
def Reachable (step : σ → ε → σ → Prop) (s t : σ) : Prop := ∃ es, Trace step s es t

theorem Reachable.refl (s : σ) : Reachable step s s := ⟨[], .nil⟩

theorem Reachable.next {s t u : σ} {e : ε} (h : Reachable step s t) (he : step t e u) :
    Reachable step s u := by
  obtain ⟨es, hes⟩ := h
  exact ⟨es ++ [e], hes.snoc he⟩

/-- One run after the other. -/
theorem Trace.append {s t u : σ} {es es' : List ε} (h : Trace step s es t)
    (h' : Trace step t es' u) : Trace step s (es ++ es') u := by
  induction h' with
  | nil =>
      rw [List.append_nil]
      exact h
  | snoc _ he ih =>
      rw [← List.append_assoc]
      exact ih.snoc he

/-- A run is a run under a weaker condition. -/
theorem Trace.mono {step' : σ → ε → σ → Prop} {s t : σ} {es : List ε} (h : Trace step s es t)
    (hstep : ∀ {a e b}, step a e b → step' a e b) : Trace step' s es t := by
  induction h with
  | nil => exact .nil
  | snoc _ he ih => exact ih.snoc (hstep he)

/-- What holds at the start and is kept by every step holds at the end of every run. -/
theorem Trace.invariant (Inv : σ → Prop) {s t : σ} {es : List ε} (h : Trace step s es t)
    (hs : Inv s) (hstep : ∀ {a e b}, Inv a → step a e b → Inv b) : Inv t := by
  induction h with
  | nil => exact hs
  | snoc _ he ih => exact hstep ih he

/-- The same for what is said about the events so far and the state. -/
theorem Trace.invariant_log (Inv : List ε → σ → Prop) {s t : σ} {es : List ε}
    (h : Trace step s es t) (hs : Inv [] s)
    (hstep : ∀ {es a e b}, Inv es a → step a e b → Inv (es ++ [e]) b) : Inv es t := by
  induction h with
  | nil => exact hs
  | snoc _ he ih => exact hstep ih he

theorem Reachable.invariant (Inv : σ → Prop) {s t : σ} (h : Reachable step s t)
    (hs : Inv s) (hstep : ∀ {a e b}, Inv a → step a e b → Inv b) : Inv t := by
  obtain ⟨es, hes⟩ := h
  exact hes.invariant Inv hs hstep

end Lts
