import Dmanix.Lib.Word32
import Mathlib.Data.Nat.Basic
import Mathlib.Logic.Function.Basic
import Mathlib.Tactic.Ring

/-!
# Byte memory and little-endian words

A memory is a function from addresses to bytes. `read32` and `write32` access the four bytes from
any byte address, aligned or not. The frame lemmas say what a store leaves alone:
`read32_write32_apart` for a word, `Off lo hi m m'` for all bytes outside a range. `fill` writes
the bytes of a range one by one, its addresses wrapping at 32 bits (`fill_inside`, `fill_outside`).
-/

namespace Bytes

abbrev Mem := Nat → UInt8

/-- The little-endian word at `a`. -/
def read32 (m : Mem) (a : Nat) : Nat :=
  (m a).toNat + 256 * (m (a + 1)).toNat + 65536 * (m (a + 2)).toNat + 16777216 * (m (a + 3)).toNat

/-- The little-endian half word at `a`. -/
def read16 (m : Mem) (a : Nat) : Nat := (m a).toNat + 256 * (m (a + 1)).toNat

/-- The memory after storing the word `w` at `a`. -/
def write32 (m : Mem) (a w : Nat) : Mem := fun x =>
  if a ≤ x ∧ x < a + 4 then UInt8.ofNat (w / 256 ^ (x - a)) else m x

theorem read16_lt (m : Mem) (a : Nat) : read16 m a < 65536 := by
  unfold read16
  have h0 := (m a).toNat_lt
  have h1 := (m (a + 1)).toNat_lt
  omega

theorem read32_lt (m : Mem) (a : Nat) : read32 m a < 4294967296 := by
  unfold read32
  have h0 := (m a).toNat_lt
  have h1 := (m (a + 1)).toNat_lt
  have h2 := (m (a + 2)).toNat_lt
  have h3 := (m (a + 3)).toNat_lt
  omega

/-- Equal bytes, wherever they lie, are equal words. -/
theorem read32_shift {m m' : Mem} {a b : Nat} (h : ∀ k, k < 4 → m' (a + k) = m (b + k)) :
    read32 m' a = read32 m b := by
  have h0 : m' a = m b := h 0 (by decide)
  unfold read32
  rw [h0, h 1 (by decide), h 2 (by decide), h 3 (by decide)]

theorem read16_shift {m m' : Mem} {a b : Nat} (h : ∀ k, k < 2 → m' (a + k) = m (b + k)) :
    read16 m' a = read16 m b := by
  have h0 : m' a = m b := h 0 (by decide)
  unfold read16
  rw [h0, h 1 (by decide)]

/-- A word depends on its four bytes only. -/
theorem read32_congr {m m' : Mem} {a : Nat} (h : ∀ x, a ≤ x → x < a + 4 → m' x = m x) :
    read32 m' a = read32 m a :=
  read32_shift fun k hk => h (a + k) (by omega) (by omega)

theorem write32_outside {m : Mem} {a w x : Nat} (h : x < a ∨ a + 4 ≤ x) :
    write32 m a w x = m x := by
  unfold write32
  rw [if_neg (by omega)]

theorem read32_write32 (m : Mem) (a w : Nat) : read32 (write32 m a w) a = w % 4294967296 := by
  have hb : ∀ i, i < 4 → (write32 m a w (a + i)).toNat = w / 256 ^ i % 256 := by
    intro i hi
    unfold write32
    rw [if_pos (by omega), Nat.add_sub_cancel_left, UInt8.toNat_ofNat']
  have h0 := hb 0 (by omega)
  have h1 := hb 1 (by omega)
  have h2 := hb 2 (by omega)
  have h3 := hb 3 (by omega)
  simp only [Nat.add_zero, Nat.reducePow, Nat.div_one] at h0 h1 h2 h3
  unfold read32
  rw [h0, h1, h2, h3]
  omega

theorem read32_write32_apart {m : Mem} {a b w : Nat} (h : a + 4 ≤ b ∨ b + 4 ≤ a) :
    read32 (write32 m a w) b = read32 m b :=
  read32_congr fun _ _ _ => write32_outside (by omega)

/-- Copying a word copies its bytes. -/
theorem write32_read32 (m m' : Mem) (a b : Nat) {x : Nat} (hl : b ≤ x) (hh : x < b + 4) :
    write32 m b (read32 m' a) x = m' (a + (x - b)) := by
  unfold write32
  rw [if_pos ⟨hl, hh⟩]
  have h0 := (m' a).toNat_lt
  have h1 := (m' (a + 1)).toNat_lt
  have h2 := (m' (a + 2)).toNat_lt
  have h3 := (m' (a + 3)).toNat_lt
  obtain ⟨i, rfl⟩ : ∃ i, x = b + i := ⟨x - b, by omega⟩
  rw [Nat.add_sub_cancel_left]
  have hi : i = 0 ∨ i = 1 ∨ i = 2 ∨ i = 3 := by omega
  apply UInt8.toNat_inj.1
  rw [UInt8.toNat_ofNat']
  unfold read32
  rcases hi with rfl | rfl | rfl | rfl
  · simp only [Nat.pow_zero, Nat.div_one, Nat.add_zero]
    omega
  · norm_num only
    omega
  · norm_num only
    omega
  · norm_num only
    omega

/-! ## What a computation leaves alone -/

/-- `m'` is `m` outside `[lo, hi)`. -/
def Off (lo hi : Nat) (m m' : Mem) : Prop := ∀ x, x < lo ∨ hi ≤ x → m' x = m x

theorem Off.refl (lo hi : Nat) (m : Mem) : Off lo hi m m := fun _ _ => rfl

theorem Off.trans {lo hi : Nat} {m m' m'' : Mem} (h : Off lo hi m m') (h' : Off lo hi m' m'') :
    Off lo hi m m'' := fun x hx => (h' x hx).trans (h x hx)

theorem Off.mono {lo hi lo' hi' : Nat} {m m' : Mem} (h : Off lo hi m m') (hl : lo' ≤ lo)
    (hh : hi ≤ hi') : Off lo' hi' m m' := fun x hx => h x (by omega)

theorem Off.write32 {lo hi : Nat} {m m' : Mem} {a : Nat} (w : Nat) (h : Off lo hi m m')
    (hl : lo ≤ a) (hh : a + 4 ≤ hi) : Off lo hi m (write32 m' a w) := fun x hx =>
  (write32_outside (by omega)).trans (h x hx)

theorem Off.read32 {lo hi : Nat} {m m' : Mem} {a : Nat} (h : Off lo hi m m')
    (ha : a + 4 ≤ lo ∨ hi ≤ a) : read32 m' a = read32 m a :=
  read32_congr fun x _ _ => h x (by omega)

/-! ## Writing a range -/

open Word32 (add32)

/-- The loop `for (i = 0; i < n; ++i) d[i] = f(i)`. -/
def fill (m : Mem) (d : Nat) (f : Nat → UInt8) : Nat → Mem
  | 0 => m
  | n + 1 => Function.update (fill m d f n) (add32 d n) (f n)

theorem fill_outside {m : Mem} {d : Nat} {f : Nat → UInt8} {a : Nat} :
    ∀ {n : Nat}, (∀ i, i < n → a ≠ add32 d i) → fill m d f n a = m a
  | 0, _ => rfl
  | n + 1, h => by
    rw [fill, Function.update_of_ne (h n (Nat.lt_succ_self n))]
    exact fill_outside fun i hi => h i (Nat.lt_succ_of_lt hi)

theorem fill_inside {m : Mem} {d : Nat} {f : Nat → UInt8} {i : Nat} :
    ∀ {n : Nat}, n ≤ 4294967296 → i < n → fill m d f n (add32 d i) = f i
  | n + 1, hn, hi => by
    rw [fill]
    rcases Nat.lt_succ_iff_lt_or_eq.1 hi with hlt | rfl
    · have hne : add32 d i ≠ add32 d n := fun he => by
        have := Word32.add32_inj (by omega) (by omega) he
        omega
      rw [Function.update_of_ne hne]
      exact fill_inside (by omega) hlt
    · rw [Function.update_self]

/-- The loop `for (i = 0; i < n; ++i) d[i] = s[i]`. -/
def copy (m : Mem) (d s : Nat) : Nat → Mem
  | 0 => m
  | n + 1 => Function.update (copy m d s n) (add32 d n) (copy m d s n (add32 s n))

/-- A copy in two pieces. -/
theorem copy_add (m : Mem) (d s n : Nat) : ∀ k,
    copy m d s (n + k) = copy (copy m d s n) (add32 d n) (add32 s n) k
  | 0 => rfl
  | k + 1 => by
    have hd : add32 (add32 d n) k = add32 d (n + k) := by unfold add32; omega
    have hs : add32 (add32 s n) k = add32 s (n + k) := by unfold add32; omega
    rw [← Nat.add_assoc, copy, copy, hd, hs, copy_add m d s n k]

/-- A copy to a range apart from its source. -/
theorem copy_eq_fill {m : Mem} {d s : Nat} : ∀ {n : Nat},
    (∀ i j, i < n → j < n → add32 s i ≠ add32 d j) →
      copy m d s n = fill m d (fun i => m (add32 s i)) n
  | 0, _ => rfl
  | n + 1, h => by
    have hs : fill m d (fun i => m (add32 s i)) n (add32 s n) = m (add32 s n) :=
      fill_outside fun j hj => h n j (Nat.lt_succ_self n) (Nat.lt_succ_of_lt hj)
    rw [copy, fill, copy_eq_fill fun i j hi hj =>
      h i j (Nat.lt_succ_of_lt hi) (Nat.lt_succ_of_lt hj), hs]

/-! ## Byte strings in memory -/

/-- The bytes `bs` lie at `a`. -/
def Holds (m : Mem) (a : Nat) (bs : List UInt8) : Prop := ∀ k b, bs[k]? = some b → m (a + k) = b

theorem holds_append {m : Mem} {a : Nat} {xs ys : List UInt8} :
    Holds m a (xs ++ ys) ↔ Holds m a xs ∧ Holds m (a + xs.length) ys := by
  constructor
  · intro h
    refine ⟨fun k b hk => h k b ?_, fun k b hk => ?_⟩
    · rw [List.getElem?_append_left (List.getElem?_eq_some_iff.1 hk).1, hk]
    · rw [Nat.add_assoc]
      refine h (xs.length + k) b ?_
      rw [List.getElem?_append_right (by omega), Nat.add_sub_cancel_left, hk]
  · rintro ⟨hx, hy⟩ k b hk
    rcases Nat.lt_or_ge k xs.length with hlt | hge
    · rw [List.getElem?_append_left hlt] at hk
      exact hx k b hk
    · rw [List.getElem?_append_right hge] at hk
      have := hy (k - xs.length) b hk
      rwa [show a + xs.length + (k - xs.length) = a + k by omega] at this

theorem Holds.congr {m m' : Mem} {a : Nat} {bs : List UInt8} (h : Holds m a bs)
    (hm : ∀ x, a ≤ x → x < a + bs.length → m' x = m x) : Holds m' a bs := fun k b hk => by
  have hlt := (List.getElem?_eq_some_iff.1 hk).1
  rw [hm (a + k) (by omega) (by omega), h k b hk]

/-- The bytes of a word, the low byte first. -/
def le32 (w : Nat) : List UInt8 :=
  [UInt8.ofNat w, UInt8.ofNat (w / 256), UInt8.ofNat (w / 65536), UInt8.ofNat (w / 16777216)]

theorem Holds.read32 {m : Mem} {a w : Nat} (h : Holds m a (le32 w)) :
    read32 m a = w % 4294967296 := by
  have h0 : m a = UInt8.ofNat w := h 0 _ rfl
  unfold Bytes.read32
  rw [h0, h 1 _ rfl, h 2 _ rfl, h 3 _ rfl]
  simp only [UInt8.toNat_ofNat']
  omega

end Bytes
