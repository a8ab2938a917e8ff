import Mathlib.Data.Nat.Bitwise
import Mathlib.Tactic.NormNum

/-!
# 32-bit unsigned arithmetic on `Nat`

Machine words are `Nat`s below `2 ^ 32`; `add32` and `sub32` are the wrapping operations. The
lemmas turn them into `Nat`'s own `+` and `-` where nothing wraps, and the two masks of a 4 KiB
page into division, so that `omega` closes what remains.
-/

namespace Word32

/-- `a + b`, wrapping. -/
def add32 (a b : Nat) : Nat := (a + b) % 4294967296

/-- `a - b`, wrapping. -/
def sub32 (a b : Nat) : Nat := (a + (4294967296 - b % 4294967296)) % 4294967296

theorem add32_eq {a b : Nat} (h : a + b < 4294967296) : add32 a b = a + b :=
  Nat.mod_eq_of_lt h

theorem sub32_eq {a b : Nat} (hb : b ≤ a) (ha : a < 4294967296) : sub32 a b = a - b := by
  unfold sub32; omega

theorem add32_lt (a b : Nat) : add32 a b < 4294967296 := Nat.mod_lt _ (by decide)

/-- A sum of words goes round at most once. -/
theorem add32_cases {a b : Nat} (ha : a < 4294967296) (hb : b < 4294967296) :
    add32 a b = a + b ∨ add32 a b + 4294967296 = a + b := by
  unfold add32; omega

theorem sub32_lt (a b : Nat) : sub32 a b < 4294967296 := Nat.mod_lt _ (by decide)

theorem add32_inj {a i j : Nat} (hi : i < 4294967296) (hj : j < 4294967296)
    (h : add32 a i = add32 a j) : i = j := by
  unfold add32 at h; omega

/-- A difference of words is zero only for equal words. -/
theorem sub32_eq_zero {a b : Nat} (ha : a < 4294967296) (hb : b < 4294967296) :
    sub32 a b = 0 ↔ a = b := by
  unfold sub32; omega

/-! ## Page masks -/

/-- A mask splits into the page number's mask and the offset's mask. -/
theorem and_split (a m : Nat) :
    a &&& m = (a / 4096 &&& m / 4096) * 4096 + (a % 4096 &&& m % 4096) := by
  have hd := Nat.and_div_two_pow (a := a) (b := m) (n := 12)
  have hm := Nat.and_mod_two_pow (a := a) (b := m) (n := 12)
  norm_num only at hd hm
  rw [← hd, ← hm]
  omega

/-- The address of the page of `a`, `a & 0xFFFFF000`. -/
def pageBits (a : Nat) : Nat := a &&& 0xFFFFF000

theorem pageBits_eq {a : Nat} (h : a < 4294967296) : pageBits a = a / 4096 * 4096 := by
  have h20 := Nat.and_two_pow_sub_one_eq_mod (a / 4096) 20
  norm_num only at h20
  unfold pageBits
  rw [and_split]
  norm_num only [Nat.and_zero]
  rw [h20]
  omega

/-- Bit 12 of an address, `a & 0x1000`: the parity of its page number. -/
theorem and_page (a : Nat) : a &&& 0x1000 = a / 4096 % 2 * 4096 := by
  rw [and_split]
  norm_num only [Nat.and_zero, Nat.and_one_is_mod]
  omega

end Word32
