import Mathlib.Data.List.Basic
import Mathlib.Data.List.InsertIdx

/-!
# The first slots of an array as a list

`slots a n` lists the slots `0 .. n - 1` of the array `a`. Moving the slots from `k` on up by one
and storing an item in slot `k` is `List.insertIdx` (`slots_insertIdx`), moving them down by one is
`List.eraseIdx` (`slots_eraseIdx`).
-/

namespace Slots

variable {α : Type}

def slots (a : Nat → α) (n : Nat) : List α := (List.range n).map a

@[simp] theorem length_slots (a : Nat → α) (n : Nat) : (slots a n).length = n := by simp [slots]

@[simp] theorem slots_zero (a : Nat → α) : slots a 0 = [] := rfl

theorem slots_getElem {a : Nat → α} {n i : Nat} (h : i < (slots a n).length) :
    (slots a n)[i] = a i := by
  simp [slots]

theorem slots_getElem? (a : Nat → α) (n i : Nat) :
    (slots a n)[i]? = if i < n then some (a i) else none := by
  split
  · rename_i h
    rw [List.getElem?_eq_getElem (by simpa using h), slots_getElem]
  · rename_i h
    exact List.getElem?_eq_none (by simpa using h)

theorem slots_congr {a b : Nat → α} {n : Nat} (h : ∀ i < n, a i = b i) : slots a n = slots b n :=
  List.map_congr_left fun i hi => h i (List.mem_range.1 hi)

theorem slots_succ (a : Nat → α) (n : Nat) : slots a (n + 1) = slots a n ++ [a n] := by
  simp [slots, List.range_succ]

/-- **Making room for an item.** -/
theorem slots_insertIdx {a b : Nat → α} {n k : Nat} {x : α} (hk : k ≤ n)
    (h : ∀ j ≤ n, b j = if j < k then a j else if j = k then x else a (j - 1)) :
    slots b (n + 1) = (slots a n).insertIdx k x := by
  apply List.ext_getElem
  · rw [List.length_insertIdx_of_le_length (by simpa using hk), length_slots, length_slots]
  · intro i h1 h2
    have hi : i ≤ n := by simpa [Nat.lt_succ_iff] using h1
    rw [slots_getElem h1, List.getElem_insertIdx, h i hi]
    split
    · rw [slots_getElem]
    · split
      · rfl
      · rw [slots_getElem]

/-- **Closing a gap.** -/
theorem slots_eraseIdx {a b : Nat → α} {n k : Nat} (hk : k < n)
    (h : ∀ j < n - 1, b j = if j < k then a j else a (j + 1)) :
    slots b (n - 1) = (slots a n).eraseIdx k := by
  apply List.ext_getElem
  · rw [List.length_eraseIdx_of_lt (by simpa using hk), length_slots, length_slots]
  · intro i h1 h2
    have hi : i < n - 1 := by simpa using h1
    rw [slots_getElem h1, List.getElem_eraseIdx, h i hi]
    split <;> rw [slots_getElem]

end Slots
