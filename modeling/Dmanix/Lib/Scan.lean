import Mathlib.Data.List.Basic

/-!
# A scan that keeps the last match

`scanLast p i l best` is a loop over `l`, whose first item has index `i`, that overwrites `best` at
each item satisfying `p`. It ends with the index of the last such item (`scanLast_eq_some`).
-/

namespace Scan

variable {α : Type} (p : α → Bool)

def scanLast : Nat → List α → Option Nat → Option Nat
  | _, [], best => best
  | i, x :: l, best => scanLast (i + 1) l (if p x then some i else best)

/-- The item at `j` satisfies `p` and none behind it does. -/
def IsLast (l : List α) (j : Nat) : Prop :=
  (∃ x, l[j]? = some x ∧ p x = true) ∧ ∀ k x, j < k → l[k]? = some x → p x = false

variable {p}

theorem isLast_zero {x : α} {l : List α} :
    IsLast p (x :: l) 0 ↔ p x = true ∧ ∀ y ∈ l, p y = false := by
  constructor
  · rintro ⟨⟨y, hy, hp⟩, hl⟩
    rw [List.getElem?_cons_zero, Option.some_inj] at hy
    subst hy
    refine ⟨hp, fun z hz => ?_⟩
    obtain ⟨k, hk⟩ := List.getElem?_of_mem hz
    exact hl (k + 1) z (Nat.succ_pos k) (by rwa [List.getElem?_cons_succ])
  · rintro ⟨hx, hl⟩
    refine ⟨⟨x, rfl, hx⟩, fun k y hk hy => ?_⟩
    obtain ⟨k, rfl⟩ : ∃ k', k = k' + 1 := ⟨k - 1, by omega⟩
    exact hl y (List.mem_of_getElem? (by rwa [List.getElem?_cons_succ] at hy))

theorem isLast_succ {x : α} {l : List α} {j : Nat} : IsLast p (x :: l) (j + 1) ↔ IsLast p l j := by
  unfold IsLast
  rw [List.getElem?_cons_succ]
  refine and_congr_right fun _ => ⟨fun h k y hk hy => ?_, fun h k y hk hy => ?_⟩
  · exact h (k + 1) y (by omega) (by rwa [List.getElem?_cons_succ])
  · obtain ⟨k, rfl⟩ : ∃ k', k = k' + 1 := ⟨k - 1, by omega⟩
    exact h k y (by omega) (by rwa [List.getElem?_cons_succ] at hy)

/-- **The scan ends with the last match**, or with what it started from. -/
theorem scanLast_eq_some : ∀ (l : List α) (i : Nat) (best : Option Nat) (j : Nat),
    scanLast p i l best = some j ↔
      (∃ k, j = i + k ∧ IsLast p l k) ∨ (best = some j ∧ ∀ x ∈ l, p x = false)
  | [], i, best, j => by
    simp [scanLast, IsLast]
  | x :: l, i, best, j => by
    rw [scanLast, scanLast_eq_some l]
    constructor
    · rintro (⟨k, rfl, hk⟩ | ⟨hb, hl⟩)
      · exact .inl ⟨k + 1, by omega, isLast_succ.2 hk⟩
      · by_cases hx : p x = true
        · rw [if_pos hx, Option.some_inj] at hb
          exact .inl ⟨0, hb.symm, isLast_zero.2 ⟨hx, hl⟩⟩
        · rw [if_neg hx] at hb
          exact .inr ⟨hb, List.forall_mem_cons.2 ⟨Bool.eq_false_iff.2 hx, hl⟩⟩
    · rintro (⟨k, rfl, hk⟩ | ⟨hb, hl⟩)
      · cases k with
        | zero =>
          obtain ⟨hx, hl⟩ := isLast_zero.1 hk
          exact .inr ⟨if_pos hx, hl⟩
        | succ k => exact .inl ⟨k, by omega, isLast_succ.1 hk⟩
      · obtain ⟨hx, hl⟩ := List.forall_mem_cons.1 hl
        exact .inr ⟨by rw [if_neg (by rw [hx]; decide), hb], hl⟩

end Scan
