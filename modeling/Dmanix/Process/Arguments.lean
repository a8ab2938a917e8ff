import Dmanix.Base.Assert
import Dmanix.Lib.Bytes

/-!
# The argument counts of `ExecVE` (`src/process/task.cc`)

`ExecVE` counts its arguments and its environment in one loop that advances two cursors. The loop
tests the cursors and not what they point to: it ends when the first of them has wrapped around to
`NULL` (`countLoop_ok`), with two equal counts, whatever the arrays hold. `never_counts`: the counts
are right for no arrays.
-/

namespace Dmanix

open Bytes Word32

namespace ExecVE

/-- The loop over the arrays, granted `rounds` tests; no entry is read. -/
def countLoop : Nat → Nat → Nat → Nat → Nat → Except Halt (Nat × Nat)
  | 0, _, _, _, _ => .error .hang
  | rounds + 1, argv, env, argLength, envLength =>
    if argv ≠ 0 ∧ env ≠ 0 then
      let (argLength, argv) :=
        if argv ≠ 0 then (argLength + 1, add32 argv 4) else (argLength, argv)
      let (envLength, env) := if env ≠ 0 then (envLength + 1, add32 env 4) else (envLength, env)
      countLoop rounds argv env argLength envLength
    else .ok (argLength, envLength)

/-- The sizes of the buffers that `ExecVE` allocates, `(arg_length + 1) * sizeof(char*)` and
`(env_length + 1) * sizeof(char*)`. -/
def bufferSizes (rounds argv env : Nat) : Except Halt (Nat × Nat) := do
  let (argLength, envLength) ← countLoop rounds argv env 0 0
  return ((argLength + 1) * 4 % 4294967296, (envLength + 1) * 4 % 4294967296)

/-! ## What the loop counts -/

/-- A `NULL`-terminated array of `n` pointers at `a`. -/
structure PointerArray (m : Mem) (a n : Nat) : Prop where
  nonnull : a ≠ 0
  inside : a + 4 * (n + 1) ≤ 4294967296
  entries : ∀ i, i < n → read32 m (a + 4 * i) ≠ 0
  terminator : read32 m (a + 4 * n) = 0

/-- The loop ends with the lengths of the arrays, and the buffers have room for them and their
terminators. -/
def Counts (argv env n k : Nat) : Prop :=
  ∃ rounds, countLoop rounds argv env 0 0 = .ok (n, k) ∧
    bufferSizes rounds argv env = .ok (4 * (n + 1), 4 * (k + 1))

/-- One of the cursors is `NULL` after `k` rounds. -/
def Wrapped (argv env k : Nat) : Prop := add32 argv (4 * k) = 0 ∨ add32 env (4 * k) = 0

theorem add32_next (a k : Nat) : add32 (add32 a 4) (4 * k) = add32 a (4 * (k + 1)) := by
  unfold add32
  omega

theorem add32_zero {a : Nat} (h : a < 4294967296) : add32 a (4 * 0) = a := by
  unfold add32
  omega

theorem wrapped_next (argv env k : Nat) :
    Wrapped (add32 argv 4) (add32 env 4) k ↔ Wrapped argv env (k + 1) := by
  unfold Wrapped
  rw [add32_next, add32_next]

theorem wrapped_zero {argv env : Nat} (ha : argv < 4294967296) (he : env < 4294967296) :
    Wrapped argv env 0 ↔ ¬ (argv ≠ 0 ∧ env ≠ 0) := by
  unfold Wrapped
  rw [add32_zero ha, add32_zero he]
  omega

theorem countLoop_enters {argv env : Nat} (h : argv ≠ 0 ∧ env ≠ 0) (rounds a e : Nat) :
    countLoop (rounds + 1) argv env a e =
      countLoop rounds (add32 argv 4) (add32 env 4) (a + 1) (e + 1) := by
  simp only [countLoop, if_pos h, if_pos h.1, if_pos h.2]

/-- Where the loop ends, a cursor is `NULL` for the first time. -/
theorem countLoop_wraps : ∀ {rounds argv env a e a' e' : Nat}, argv < 4294967296 →
    env < 4294967296 → countLoop rounds argv env a e = .ok (a', e') →
    ∃ k, a' = a + k ∧ e' = e + k ∧ Wrapped argv env k ∧ ∀ j, j < k → ¬ Wrapped argv env j
  | 0, _, _, _, _, _, _, _, _, h => nomatch h
  | rounds + 1, argv, env, a, e, a', e', ha, he, h => by
    by_cases hc : argv ≠ 0 ∧ env ≠ 0
    · rw [countLoop_enters hc] at h
      obtain ⟨k, rfl, rfl, hk, hfirst⟩ := countLoop_wraps (add32_lt _ _) (add32_lt _ _) h
      refine ⟨k + 1, by omega, by omega, (wrapped_next argv env k).1 hk, fun j hj => ?_⟩
      cases j with
      | zero => exact fun hw => (wrapped_zero ha he).1 hw hc
      | succ j => exact fun hw => hfirst j (by omega) ((wrapped_next argv env j).2 hw)
    · simp only [countLoop, if_neg hc] at h
      cases h
      exact ⟨0, rfl, rfl, (wrapped_zero ha he).2 hc, fun j hj => absurd hj (Nat.not_lt_zero j)⟩

/-- The loop ends where a cursor is `NULL` for the first time. -/
theorem countLoop_ends : ∀ (k argv env a e : Nat), argv < 4294967296 → env < 4294967296 →
    Wrapped argv env k → (∀ j, j < k → ¬ Wrapped argv env j) →
    countLoop (k + 1) argv env a e = .ok (a + k, e + k) := by
  intro k
  induction k with
  | zero =>
    intro argv env a e ha he hw _
    exact if_neg ((wrapped_zero ha he).1 hw)
  | succ k ih =>
    intro argv env a e ha he hw hfirst
    have hc : argv ≠ 0 ∧ env ≠ 0 := by
      have := mt (wrapped_zero ha he).2 (hfirst 0 (Nat.succ_pos k))
      exact not_not.1 this
    rw [countLoop_enters hc, ih _ _ (a + 1) (e + 1) (add32_lt _ _) (add32_lt _ _)
      ((wrapped_next argv env k).2 hw)
      fun j hj hw' => hfirst (j + 1) (by omega) ((wrapped_next argv env j).1 hw')]
    exact congrArg Except.ok (Prod.ext (by dsimp only; omega) (by dsimp only; omega))

/-- **What the loop counts**: the rounds until a cursor is `NULL`, for both arrays. -/
theorem countLoop_ok {argv env n k : Nat} (ha : argv < 4294967296) (he : env < 4294967296) :
    (∃ rounds, countLoop rounds argv env 0 0 = .ok (n, k)) ↔
      n = k ∧ Wrapped argv env n ∧ ∀ j, j < n → ¬ Wrapped argv env j := by
  constructor
  · rintro ⟨rounds, h⟩
    obtain ⟨i, rfl, rfl, hw, hfirst⟩ := countLoop_wraps ha he h
    rw [Nat.zero_add]
    exact ⟨rfl, hw, hfirst⟩
  · rintro ⟨rfl, hw, hfirst⟩
    refine ⟨n + 1, ?_⟩
    rw [countLoop_ends n argv env 0 0 ha he hw hfirst, Nat.zero_add]

theorem PointerArray.add32_ne {m : Mem} {a n : Nat} (h : PointerArray m a n) :
    add32 a (4 * n) ≠ 0 := by
  have h0 := h.nonnull
  have hin := h.inside
  rw [add32_eq (by omega)]
  omega

theorem PointerArray.lt {m : Mem} {a n : Nat} (h : PointerArray m a n) : a < 4294967296 := by
  have := h.inside
  omega

/-- **`ExecVE` never counts its arguments**: a count that is right would be that of a cursor still
in its array. -/
theorem never_counts {m : Mem} {argv env n k : Nat} (ha : PointerArray m argv n)
    (he : PointerArray m env k) : ¬ Counts argv env n k := by
  rintro ⟨rounds, h, -⟩
  obtain ⟨rfl, hw, -⟩ := (countLoop_ok ha.lt he.lt).1 ⟨rounds, h⟩
  exact hw.elim ha.add32_ne he.add32_ne

theorem empty_array {a : Nat} (h0 : a ≠ 0) (h : a + 4 ≤ 4294967296) :
    PointerArray (fun _ => 0) a 0 where
  nonnull := h0
  inside := h
  entries i hi := absurd hi (Nat.not_lt_zero i)
  terminator := rfl

/-- Memory with two arguments at 0x1000 and one variable at 0x2000. -/
def twoArguments : Mem :=
  let m := write32 (fun _ => 0) 0x1000 0x3000
  let m := write32 m 0x1004 0x3008
  write32 m 0x2000 0x3010

theorem never_counts_two : PointerArray twoArguments 0x1000 2 ∧ PointerArray twoArguments 0x2000 1 ∧
    ¬ Counts 0x1000 0x2000 2 1 := by
  have hargv : PointerArray twoArguments 0x1000 2 := ⟨by decide, by decide, by decide, by decide⟩
  have henv : PointerArray twoArguments 0x2000 1 := ⟨by decide, by decide, by decide, by decide⟩
  exact ⟨hargv, henv, never_counts hargv henv⟩

/-- **Two empty arrays are miscounted.** -/
theorem empty_miscounted : ¬ ∀ (m : Mem) (argv env n k : Nat), PointerArray m argv n →
    PointerArray m env k → Counts argv env n k := by
  intro h
  obtain ⟨rounds, hc, -⟩ := h (fun _ => 0) 0x1000 0x2000 0 0
    (empty_array (by decide) (by decide)) (empty_array (by decide) (by decide))
  obtain ⟨-, hw, -⟩ := (countLoop_ok (by decide) (by decide)).1 ⟨rounds, hc⟩
  exact hw.elim (by decide) (by decide)

end ExecVE

end Dmanix
