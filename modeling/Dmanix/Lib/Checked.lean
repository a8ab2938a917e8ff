import Mathlib.Logic.Basic

/-!
# Computations with checks

A computation with checks stops as the one without does, or at a check that fails. `Clean x`: no
check fails in `x`; the rules take a computation apart into its checks, each in the states in which
it is reached (`clean_bind`). `Checks x y`: `x` is `y` with checks, so that a clean `x` is `y`
(`Checks.eq_lift`).
-/

namespace Checked

variable {ε υ α β : Type}

/-- Why a computation with checks did not return. -/
inductive Stop (ε υ : Type) where
  | halt (e : ε)
  | failed (u : υ)
  deriving DecidableEq, Repr

/-- A computation without checks. -/
def lift : Except ε α → Except (Stop ε υ) α
  | .ok a => .ok a
  | .error e => .error (.halt e)

def check (b : Bool) (u : υ) : Except (Stop ε υ) Unit := if b then .ok () else .error (.failed u)

/-- No check fails. -/
def Clean (x : Except (Stop ε υ) α) : Prop := ∀ u, x ≠ .error (.failed u)

/-- `x` is `y` with checks. -/
def Checks (x : Except (Stop ε υ) α) (y : Except ε α) : Prop :=
  x = lift y ∨ ∃ u, x = .error (.failed u)

@[simp] theorem lift_ok {x : Except ε α} {a : α} :
    (lift x : Except (Stop ε υ) α) = .ok a ↔ x = .ok a := by
  cases x with
  | ok b => simp [lift]
  | error e => simp [lift]

@[simp] theorem check_ok {b : Bool} {u : υ} {a : Unit} :
    (check b u : Except (Stop ε υ) Unit) = .ok a ↔ b = true := by
  cases b with
  | true => simp [check]
  | false => simp [check]

/-! ## Clean computations -/

@[simp] theorem clean_ok (a : α) : Clean (.ok a : Except (Stop ε υ) α) := fun _ => nofun

@[simp] theorem clean_pure (a : α) : Clean (pure a : Except (Stop ε υ) α) := fun _ => nofun

@[simp] theorem clean_lift (x : Except ε α) : Clean (lift x : Except (Stop ε υ) α) := by
  cases x with
  | ok a => exact fun _ => nofun
  | error e => exact fun _ => nofun

@[simp] theorem clean_check {b : Bool} {u : υ} :
    Clean (check b u : Except (Stop ε υ) Unit) ↔ b = true := by
  cases b with
  | true => exact iff_of_true (fun _ => nofun) rfl
  | false => exact iff_of_false (fun h => h u rfl) Bool.false_ne_true

@[simp] theorem clean_ite {p : Prop} [Decidable p] {x y : Except (Stop ε υ) α} :
    Clean (if p then x else y) ↔ (p → Clean x) ∧ (¬ p → Clean y) := by
  by_cases h : p <;> simp [h]

/-- **A sequence is clean** when its first part is, and its second part from there. -/
theorem clean_bind {x : Except (Stop ε υ) α} {f : α → Except (Stop ε υ) β} :
    Clean (x >>= f) ↔ Clean x ∧ ∀ a, x = .ok a → Clean (f a) := by
  cases x with
  | ok a =>
    refine ⟨fun h => ⟨clean_ok a, fun b hb => ?_⟩, fun h => h.2 a rfl⟩
    cases hb
    exact h
  | error e =>
    refine ⟨fun h => ⟨fun u hu => ?_, nofun⟩, fun h u hu => ?_⟩
    · cases hu
      exact h u rfl
    · cases hu
      exact h.1 u rfl

/-- A check, and what comes behind it. -/
theorem clean_check_bind {b : Bool} {u : υ} {f : Unit → Except (Stop ε υ) α} :
    Clean (check b u >>= f) ↔ b = true ∧ Clean (f ()) := by
  rw [clean_bind, clean_check]
  exact and_congr_right fun hb => ⟨fun h => h () (check_ok.2 hb), fun h _ _ => h⟩

/-- A part without checks, and what comes behind it. -/
theorem clean_lift_bind {x : Except ε α} {f : α → Except (Stop ε υ) β} :
    Clean (lift x >>= f) ↔ ∀ a, x = .ok a → Clean (f a) := by
  rw [clean_bind]
  exact ⟨fun h a ha => h.2 a (lift_ok.2 ha), fun h => ⟨clean_lift x, fun a ha => h a (lift_ok.1 ha)⟩⟩

/-! ## Erasing the checks -/

theorem Checks.lift (y : Except ε α) : Checks (lift y : Except (Stop ε υ) α) y := .inl rfl

/-- A check in front. -/
theorem Checks.check {x : Except (Stop ε υ) α} {y : Except ε α} (h : Checks x y) (b : Bool)
    (u : υ) : Checks (check b u >>= fun _ => x) y := by
  cases b with
  | true => exact h
  | false => exact .inr ⟨u, rfl⟩

theorem Checks.bind {x : Except (Stop ε υ) α} {y : Except ε α} {f : α → Except (Stop ε υ) β}
    {g : α → Except ε β} (h : Checks x y) (hf : ∀ a, Checks (f a) (g a)) :
    Checks (x >>= f) (y >>= g) := by
  rcases h with rfl | ⟨u, rfl⟩
  · cases y with
    | ok a => exact hf a
    | error e => exact .inl rfl
  · exact .inr ⟨u, rfl⟩

/-- A clean computation is the one without checks. -/
theorem Checks.eq_lift {x : Except (Stop ε υ) α} {y : Except ε α} (h : Checks x y)
    (hc : Clean x) : x = Checked.lift y := by
  rcases h with rfl | ⟨u, rfl⟩
  · rfl
  · exact absurd rfl (hc u)

end Checked
