import Dmanix.Base.Assert
import Mathlib.Data.List.Basic

/-!
# Strings (`src/string.cc`)

A C string is the list of its bytes before the terminating NUL. `compare` is equality. `find` gives
the index of a character, except that it misses the last one (`find_first`).
-/

namespace Dmanix

/-- The bytes before the NUL. -/
abbrev CString := { s : List UInt8 // (0 : UInt8) ∉ s }

namespace CString

/-- `""` -/
def empty : CString := ⟨[], by decide⟩

/-- The loop of `compare(a, b)`; the end of a list is its NUL. -/
def compareBytes : List UInt8 → List UInt8 → Bool
  | a :: as, b :: bs => if a ≠ b then false else compareBytes as bs
  | [], [] => true
  | _, _ => false

/-- `compare(a, b)` -/
def compare (a b : CString) : Bool := compareBytes a.1 b.1

theorem compareBytes_iff : ∀ a b : List UInt8, compareBytes a b = true ↔ a = b
  | [], [] => by simp [compareBytes]
  | [], _ :: _ => by simp [compareBytes]
  | _ :: _, [] => by simp [compareBytes]
  | a :: as, b :: bs => by
    rw [compareBytes, List.cons.injEq]
    by_cases h : a = b
    · rw [if_neg (not_not.2 h), compareBytes_iff as bs]
      simp [h]
    · rw [if_pos h]
      simp [h]

/-- **`compare` is equality.** -/
theorem compare_iff {a b : CString} : compare a b = true ↔ a = b :=
  (compareBytes_iff a.1 b.1).trans Subtype.ext_iff.symm

/-- The loop of `find(s, delim)`: the bytes from where the cursor stops; it has moved behind the
character it stopped for. -/
def findRest (delim : UInt8) : List UInt8 → List UInt8
  | [] => []
  | c :: cs => if c ≠ delim then findRest delim cs else cs

/-- `find(s, delim)` -/
def find (s : CString) (delim : UInt8) : Nat :=
  match findRest delim s.1 with
  | [] => 0xFFFFFFFF
  | rest => s.1.length - rest.length - 1

/-! ## What `find` returns -/

/-- What `find` is for: the index of the first occurrence, and -1 exactly where there is none. -/
def FindsFirst (s : CString) (delim : UInt8) : Prop :=
  (delim ∈ s.1 → find s delim = s.1.idxOf delim) ∧ (find s delim = 0xFFFFFFFF ↔ delim ∉ s.1)

theorem findRest_eq (delim : UInt8) (l : List UInt8) :
    findRest delim l = l.drop (l.idxOf delim + 1) := by
  induction l with
  | nil => rfl
  | cons c cs ih =>
    by_cases h : c = delim
    · subst h
      simp [findRest]
    · simp [findRest, h, ih, List.idxOf_cons_ne]

theorem find_eq (s : CString) (delim : UInt8) : find s delim =
    if s.1.idxOf delim + 1 < s.1.length then s.1.idxOf delim else 0xFFFFFFFF := by
  rw [find, findRest_eq]
  by_cases h : s.1.idxOf delim + 1 < s.1.length
  · rw [if_pos h]
    cases hr : s.1.drop (s.1.idxOf delim + 1) with
    | nil =>
      have := List.drop_eq_nil_iff.1 hr
      omega
    | cons c cs =>
      have := congrArg List.length hr
      rw [List.length_drop] at this
      simp only
      omega
  · rw [if_neg h, List.drop_eq_nil_of_le (by omega)]

/-- **`find` finds the first occurrence** exactly where it is not the last character: a cursor that
stops at the NUL is taken for one that found nothing. -/
theorem find_first {s : CString} {delim : UInt8} (hlen : s.1.length < 0xFFFFFFFF) :
    FindsFirst s delim ↔ (delim ∈ s.1 → s.1.idxOf delim + 1 < s.1.length) := by
  rw [FindsFirst, find_eq]
  by_cases hmem : delim ∈ s.1
  · have hlt := List.idxOf_lt_length_of_mem hmem
    by_cases h : s.1.idxOf delim + 1 < s.1.length
    · rw [if_pos h]
      exact iff_of_true ⟨fun _ => rfl, iff_of_false (by omega) (not_not.2 hmem)⟩ fun _ => h
    · rw [if_neg h]
      exact iff_of_false (fun hf => hf.2.1 rfl hmem) fun hc => h (hc hmem)
  · have hend : s.1.idxOf delim = s.1.length := List.idxOf_eq_length hmem
    rw [if_neg (by omega)]
    exact iff_of_true ⟨fun h => absurd h hmem, iff_of_true rfl hmem⟩ fun h => absurd h hmem

/-- "ab": the first character is found. -/
theorem find_first_ab : FindsFirst ⟨[97, 98], by decide⟩ 97 ↔
    ((97 : UInt8) ∈ [97, 98] → List.idxOf (97 : UInt8) [97, 98] + 1 < 2) :=
  find_first (by decide)

/-- **The last character is not found**: `find("a", 'a')` is -1. -/
theorem last_not_found : find ⟨[97], by decide⟩ 97 = 0xFFFFFFFF ∧
    ¬ FindsFirst ⟨[97], by decide⟩ 97 :=
  ⟨by decide, fun h => h.2.1 (by decide) (by decide)⟩

end CString

end Dmanix
