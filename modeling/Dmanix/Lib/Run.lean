import Mathlib.Order.Basic

/-!
# Runs under a guard

A system is a step relation between states, labelled by calls. `Run step guard s t` is a run from
`s` to `t` every step of which satisfied `guard` in the state it started from. An invariant that
one guarded step keeps holds along every guarded run (`Run.invariant`).
-/

namespace Guarded

variable {σ ι : Type} (step : σ → ι → σ → Prop) (guard : σ → ι → Prop)

/-- A run all of whose steps meet the guard. -/
inductive Run (s : σ) : σ → Prop
  | refl : Run s s
  | tail {t u : σ} {i : ι} : Run s t → guard t i → step t i u → Run s u

variable {step guard}

/-- **The invariant rule.** -/
theorem Run.invariant {P : σ → Prop} {s t : σ} (h : Run step guard s t) (h0 : P s)
    (hstep : ∀ t i u, P t → guard t i → step t i u → P u) : P t := by
  induction h with
  | refl => exact h0
  | tail _ hg hs ih => exact hstep _ _ _ ih hg hs

theorem Run.mono {guard' : σ → ι → Prop} {s t : σ} (h : Run step guard s t)
    (hg : ∀ t i, guard t i → guard' t i) : Run step guard' s t := by
  induction h with
  | refl => exact .refl
  | tail _ hgd hs ih => exact .tail ih (hg _ _ hgd) hs

theorem Run.trans {s t u : σ} (h : Run step guard s t) (h' : Run step guard t u) :
    Run step guard s u := by
  induction h' with
  | refl => exact h
  | tail _ hg hs ih => exact .tail ih hg hs

end Guarded
