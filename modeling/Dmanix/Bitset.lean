import Dmanix.Base.Assert
import Mathlib.Data.List.Basic
import Mathlib.Data.List.Nodup
import Mathlib.Tactic.NormNum

/-!
# The bit set (`src/bitset.cc`)

A `bitset` of `n` bits is a table of `n / 32` words, `n` rounded down. `bit b i` is the bit the
operations mean by index `i`; an index whose word is outside the table is `Halt.wild`.

`set_ok`, `clear_ok` and `test_ok` describe the operations by `bit`; `next_some` and `next_none`
say that `next` finds the least clear bit of the table. `refines_set`: a bit set of `n` bits is a set
of the indices below `n` exactly when the rounding loses none of them.
-/

namespace Dmanix

/-- `bitset` -/
structure Bitset where
  table : Nat → BitVec 32
  size : Nat

namespace Bitset

/-- `bitset(num_bits)`: `INDEX_FROM_BIT(num_bits)` words, zeroed. -/
def create (numBits : Nat) : Bitset := ⟨fun _ => 0#32, numBits / 32⟩

/-- `table[index] = w` -/
def store (b : Bitset) (index : Nat) (w : BitVec 32) : Bitset :=
  { b with table := fun j => if j = index then w else b.table j }

/-- `set(frame)` -/
def set (b : Bitset) (frame : Nat) : Except Halt Bitset :=
  let index := frame / 32
  let offset := frame % 32
  if index < b.size then .ok (b.store index (b.table index ||| (1#32 <<< offset)))
  else .error (.wild index)

/-- `clear(frame)` -/
def clear (b : Bitset) (frame : Nat) : Except Halt Bitset :=
  let index := frame / 32
  let offset := frame % 32
  if index < b.size then .ok (b.store index (b.table index &&& ~~~(1#32 <<< offset)))
  else .error (.wild index)

/-- `test(frame)` -/
def test (b : Bitset) (frame : Nat) : Except Halt Bool :=
  let index := frame / 32
  let offset := frame % 32
  if index < b.size then .ok (b.table index &&& (1#32 <<< offset) != 0#32)
  else .error (.wild index)

/-- The inner loop of `next`: the first clear bit of the word `w`. -/
def nextIn (w : BitVec 32) : Option Nat :=
  if w = BitVec.allOnes 32 then none
  else (List.range 32).find? fun j => w &&& (1#32 <<< j) == 0#32

/-- `next()`; `none` is `NOT_FOUND`. -/
def next (b : Bitset) : Option Nat :=
  (List.range b.size).findSome? fun i => (nextIn (b.table i)).map (i * 4 * 8 + ·)

/-! ## Bits -/

/-- The bit of index `i`. -/
def bit (b : Bitset) (i : Nat) : Bool := (b.table (i / 32)).getLsbD (i % 32)

@[simp] theorem bit_create (n i : Nat) : (create n).bit i = false := by simp [bit, create]

theorem getLsbD_one_shift {j k : Nat} (hj : j < 32) : (1#32 <<< k).getLsbD j = decide (j = k) := by
  simp only [BitVec.getLsbD_shiftLeft, BitVec.getLsbD_one, hj, decide_true, Bool.true_and]
  grind

theorem and_one_shift {w : BitVec 32} {j : Nat} (hj : j < 32) :
    (w &&& (1#32 <<< j) = 0#32) ↔ w.getLsbD j = false := by
  constructor
  · intro h
    have := congrArg (BitVec.getLsbD · j) h
    simpa [getLsbD_one_shift hj] using this
  · intro h
    apply BitVec.eq_of_getLsbD_eq
    intro i hi
    rw [BitVec.getLsbD_and, getLsbD_one_shift hi, BitVec.getLsbD_zero]
    by_cases hij : i = j
    · subst hij; simp [h]
    · simp [hij]

theorem bit_store {b : Bitset} {index : Nat} {w : BitVec 32} (i : Nat) :
    (b.store index w).bit i = if i / 32 = index then w.getLsbD (i % 32) else b.bit i := by
  simp only [bit, store]
  split <;> simp_all

theorem set_ok {b : Bitset} {f : Nat} (h : f / 32 < b.size) :
    ∃ b', b.set f = .ok b' ∧ b'.size = b.size ∧ ∀ i, b'.bit i = (i == f || b.bit i) := by
  refine ⟨_, if_pos h, rfl, fun i => ?_⟩
  have hi := Nat.mod_lt i (show 0 < 32 by decide)
  rw [bit_store, BitVec.getLsbD_or, getLsbD_one_shift hi]
  by_cases he : i / 32 = f / 32
  · rw [if_pos he]
    have : (decide (i % 32 = f % 32)) = (i == f) := by
      rw [Bool.beq_eq_decide_eq]
      exact decide_eq_decide.2 (by omega)
    rw [this, Bool.or_comm, bit, he]
  · rw [if_neg he, beq_eq_false_iff_ne.2 (fun h => he (by rw [h])), Bool.false_or]

theorem clear_ok {b : Bitset} {f : Nat} (h : f / 32 < b.size) :
    ∃ b', b.clear f = .ok b' ∧ b'.size = b.size ∧ ∀ i, b'.bit i = (i != f && b.bit i) := by
  refine ⟨_, if_pos h, rfl, fun i => ?_⟩
  have hi := Nat.mod_lt i (show 0 < 32 by decide)
  rw [bit_store, BitVec.getLsbD_and, BitVec.getLsbD_not, getLsbD_one_shift hi]
  by_cases he : i / 32 = f / 32
  · rw [if_pos he]
    have : (decide (i % 32 = f % 32)) = (i == f) := by
      rw [Bool.beq_eq_decide_eq]
      exact decide_eq_decide.2 (by omega)
    rw [this, bit, he, bne, Bool.and_comm]
    simp [hi]
  · have hne : (i != f) = true := bne_iff_ne.2 fun h => he (by rw [h])
    rw [if_neg he, hne, Bool.true_and]

theorem test_ok {b : Bitset} {f : Nat} (h : f / 32 < b.size) : b.test f = .ok (b.bit f) := by
  have hi := Nat.mod_lt f (show 0 < 32 by decide)
  refine (if_pos h).trans (congrArg Except.ok ?_)
  cases hb : b.bit f with
  | false => rw [(and_one_shift hi).2 hb]; rfl
  | true =>
    rw [bne_iff_ne]
    intro h0
    rw [bit, (and_one_shift hi).1 h0] at hb
    cases hb

/-! ## Search -/

theorem nextIn_none {w : BitVec 32} : nextIn w = none ↔ ∀ j < 32, w.getLsbD j = true := by
  unfold nextIn
  split
  · subst w
    exact iff_of_true rfl fun j hj => by rw [BitVec.getLsbD_allOnes, decide_eq_true hj]
  · rename_i hw
    simp only [List.find?_eq_none, List.mem_range, beq_iff_eq]
    refine forall_congr' fun j => forall_congr' fun hj => ?_
    rw [and_one_shift hj, Bool.not_eq_false]

theorem nextIn_some {w : BitVec 32} {j : Nat} (h : nextIn w = some j) :
    j < 32 ∧ w.getLsbD j = false ∧ ∀ k < j, w.getLsbD k = true := by
  unfold nextIn at h
  split at h
  · cases h
  · obtain ⟨hp, as, bs, hr, has⟩ := List.find?_eq_some_iff_append.1 h
    have hj : j < 32 := List.mem_range.1 (hr ▸ by simp)
    refine ⟨hj, (and_one_shift hj).1 (beq_iff_eq.1 hp), fun k hk => ?_⟩
    have hk' : k ∈ as := by
      have hm : k ∈ List.range 32 := List.mem_range.2 (by omega)
      rw [hr, List.mem_append, List.mem_cons] at hm
      rcases hm with hm | rfl | hm
      · exact hm
      · omega
      · have hs := List.pairwise_lt_range (n := 32)
        rw [hr, List.pairwise_append, List.pairwise_cons] at hs
        have := hs.2.1.1 k hm
        omega
    have := has k hk'
    simp only [Bool.not_eq_true', beq_eq_false_iff_ne] at this
    rw [Ne, and_one_shift (by omega), Bool.not_eq_false] at this
    exact this

/-- `next` finds nothing exactly when every bit of the table is set. -/
theorem next_none {b : Bitset} : b.next = none ↔ ∀ i < 32 * b.size, b.bit i = true := by
  simp only [next, List.findSome?_eq_none_iff, List.mem_range, Option.map_eq_none_iff, nextIn_none]
  constructor
  · intro h i hi
    exact h (i / 32) (by omega) (i % 32) (by omega)
  · intro h i hi j hj
    have := h (32 * i + j) (by omega)
    rwa [bit, show (32 * i + j) / 32 = i by omega, show (32 * i + j) % 32 = j by omega] at this

/-- **`next` finds the least clear bit** of the table. -/
theorem next_some {b : Bitset} {f : Nat} (h : b.next = some f) :
    f < 32 * b.size ∧ b.bit f = false ∧ ∀ i < f, b.bit i = true := by
  obtain ⟨as, i, bs, hr, hi, has⟩ := List.findSome?_eq_some_iff.1 h
  obtain ⟨j, hj, rfl⟩ := Option.map_eq_some_iff.1 hi
  obtain ⟨hj32, hclear, hbelow⟩ := nextIn_some hj
  have hib : i < b.size := List.mem_range.1 (hr ▸ by simp)
  have hdm : (i * 4 * 8 + j) / 32 = i ∧ (i * 4 * 8 + j) % 32 = j := by omega
  refine ⟨by omega, by rw [bit, hdm.1, hdm.2, hclear], fun k hk => ?_⟩
  by_cases hki : k / 32 = i
  · rw [bit, hki]
    exact hbelow _ (by omega)
  · -- an earlier word has no clear bit
    have hm : k / 32 ∈ List.range b.size := List.mem_range.2 (by omega)
    rw [hr, List.mem_append, List.mem_cons] at hm
    rcases hm with hm | hm | hm
    · exact nextIn_none.1 (Option.map_eq_none_iff.1 (has _ hm)) _ (Nat.mod_lt _ (by decide))
    · exact absurd hm hki
    · have hs := List.pairwise_lt_range (n := b.size)
      rw [hr, List.pairwise_append, List.pairwise_cons] at hs
      have := hs.2.1.1 _ hm
      omega

/-! ## Counting clear bits -/

/-- The number of clear bits of the table. -/
def clearBits (b : Bitset) : Nat := (List.range (32 * b.size)).countP fun i => !b.bit i

/-- A clear bit is found as long as one is left. -/
theorem next_isSome {b : Bitset} (h : 0 < b.clearBits) : ∃ f, b.next = some f := by
  cases hn : b.next with
  | some f => exact ⟨f, rfl⟩
  | none =>
    obtain ⟨i, hi, hb⟩ := List.countP_pos_iff.1 h
    rw [next_none.1 hn i (List.mem_range.1 hi)] at hb
    cases hb

/-! ## A set of indices -/

/-- A call that changes the bit set. -/
inductive BitCall where
  | set (frame : Nat)
  | clear (frame : Nat)
  deriving DecidableEq, Repr

def BitCall.index : BitCall → Nat
  | .set frame => frame
  | .clear frame => frame

/-- A call. -/
def call (b : Bitset) : BitCall → Except Halt Bitset
  | .set frame => b.set frame
  | .clear frame => b.clear frame

/-- The last call on index `i`. -/
def lastCall (calls : List BitCall) (i : Nat) : Option BitCall :=
  calls.reverse.find? (·.index = i)

/-- What a set of the indices below `n` gives after the calls: no access outside the table, `test`
says which index was set last, and `next` is the least one that is not in the set. -/
def RefinesSet (n : Nat) (calls : List BitCall) : Prop :=
  ∃ b, calls.foldlM call (create n) = .ok b ∧
    (∀ i < n, b.test i = .ok (decide (lastCall calls i = some (.set i)))) ∧
    (∀ f, b.next = some f ↔ f < n ∧ lastCall calls f ≠ some (.set f) ∧
      ∀ i < f, lastCall calls i = some (.set i)) ∧
    (b.next = none ↔ ∀ i < n, lastCall calls i = some (.set i))

theorem lastCall_cons (c : BitCall) (calls : List BitCall) (i : Nat) :
    lastCall (c :: calls) i = (lastCall calls i).or (if c.index = i then some c else none) := by
  unfold lastCall
  rw [List.reverse_cons, List.find?_append, List.find?_singleton]
  simp

theorem call_ok {b : Bitset} {c : BitCall} (h : c.index / 32 < b.size) :
    ∃ b', b.call c = .ok b' ∧ b'.size = b.size ∧
      ∀ i, b'.bit i = if c.index = i then decide (c = .set i) else b.bit i := by
  cases c with
  | set f =>
    obtain ⟨b', hb, hs, hbit⟩ := set_ok h
    refine ⟨b', hb, hs, fun i => ?_⟩
    rw [hbit]
    by_cases hi : f = i
    · subst hi
      simp [BitCall.index]
    · simp [BitCall.index, hi, Ne.symm hi]
  | clear f =>
    obtain ⟨b', hb, hs, hbit⟩ := clear_ok h
    refine ⟨b', hb, hs, fun i => ?_⟩
    rw [hbit]
    by_cases hi : f = i
    · subst hi
      simp [BitCall.index]
    · simp [BitCall.index, hi, Ne.symm hi]

/-- **Calls inside the table**: each bit is as its last call left it. -/
theorem calls_ok (calls : List BitCall) : ∀ (b : Bitset), (∀ c ∈ calls, c.index / 32 < b.size) →
    ∃ b', calls.foldlM call b = .ok b' ∧ b'.size = b.size ∧ ∀ i, b'.bit i =
      match lastCall calls i with
      | some c => decide (c = .set i)
      | none => b.bit i := by
  induction calls with
  | nil => exact fun b _ => ⟨b, rfl, rfl, fun i => rfl⟩
  | cons c calls ih =>
    intro b hc
    obtain ⟨b₁, h₁, hs₁, hbit₁⟩ := call_ok (hc c List.mem_cons_self)
    obtain ⟨b', h', hs', hbit'⟩ := ih b₁ fun d hd => by
      rw [hs₁]
      exact hc d (List.mem_cons_of_mem _ hd)
    refine ⟨b', ?_, hs'.trans hs₁, fun i => ?_⟩
    · rw [List.foldlM_cons, h₁, ok_bind, h']
    · rw [hbit', lastCall_cons]
      cases lastCall calls i with
      | some d => rfl
      | none =>
        rw [hbit₁]
        by_cases hi : c.index = i <;> simp [hi]

theorem calls_size : ∀ (calls : List BitCall) {b b' : Bitset}, calls.foldlM call b = .ok b' →
    b'.size = b.size
  | [], _, _, h => by
    cases h
    rfl
  | c :: calls, b, b', h => by
    rw [List.foldlM_cons] at h
    obtain ⟨b₁, h₁, h⟩ := bind_ok.1 h
    have hs : b₁.size = b.size := by
      by_cases hc : c.index / 32 < b.size
      · obtain ⟨b₂, h₂, hs, -⟩ := call_ok hc
        cases h₁.symm.trans h₂
        exact hs
      · have he : b.call c = .error (.wild (c.index / 32)) := by
          cases c <;> exact if_neg hc
        cases he.symm.trans h₁
    exact (calls_size calls h).trans hs

/-- **A bit set of `n` bits is a set of the indices below `n`** exactly when `n` is a multiple of 32:
else the last indices have no word in the table. -/
theorem refines_set (n : Nat) (calls : List BitCall) (hc : ∀ c ∈ calls, c.index < n) :
    RefinesSet n calls ↔ n % 32 = 0 := by
  constructor
  · rintro ⟨b, hb, htest, -⟩
    by_contra hn
    -- the word of index `n - 1` is the first behind the table
    have hsize : b.size = n / 32 := calls_size calls hb
    have h := htest (n - 1) (by omega)
    rw [test, if_neg (by omega)] at h
    cases h
  · intro hn
    obtain ⟨b, hb, hsize, hbit⟩ := calls_ok calls (create n) fun c h => by
      have := hc c h
      show c.index / 32 < n / 32
      omega
    replace hsize : b.size = n / 32 := hsize
    replace hbit : ∀ i, b.bit i = decide (lastCall calls i = some (.set i)) := fun i => by
      rw [hbit]
      cases lastCall calls i with
      | none => simp
      | some c => simp
    have hset : ∀ i, b.bit i = true ↔ lastCall calls i = some (.set i) := fun i => by
      rw [hbit, decide_eq_true_iff]
    have hnext : ∀ f, b.next = some f → f < n ∧ lastCall calls f ≠ some (.set f) ∧
        ∀ i < f, lastCall calls i = some (.set i) := fun f hf => by
      obtain ⟨hlt, hclear, hbelow⟩ := next_some hf
      refine ⟨by omega, fun h => ?_, fun i hi => (hset i).1 (hbelow i hi)⟩
      rw [(hset f).2 h] at hclear
      cases hclear
    refine ⟨b, hb, fun i hi => ?_, fun f => ⟨hnext f, fun ⟨hf, hnot, hall⟩ => ?_⟩, ?_⟩
    · rw [test_ok (by omega), hbit]
    · cases h : b.next with
      | none => exact absurd ((hset f).1 (next_none.1 h f (by omega))) hnot
      | some g =>
        obtain ⟨hg, hgnot, hgall⟩ := hnext g h
        rcases Nat.lt_trichotomy f g with hlt | heq | hlt
        · exact absurd (hgall f hlt) hnot
        · rw [heq]
        · exact absurd (hall g hlt) hgnot
    · rw [next_none]
      constructor
      · exact fun h i hi => (hset i).1 (h i (by omega))
      · exact fun h i hi => (hset i).2 (h i (by omega))

theorem refines_set_64 : RefinesSet 64 [.set 2, .clear 0] ↔ 64 % 32 = 0 :=
  refines_set 64 [.set 2, .clear 0] (by decide)

/-- **The last bit of 33 has no word**: setting it is an access behind the table. -/
theorem last_bit_outside : ¬ RefinesSet 33 [.set 32] := by
  rintro ⟨b, hb, -⟩
  have h : [BitCall.set 32].foldlM call (create 33) = .error (.wild 1) := rfl
  cases h.symm.trans hb

end Bitset

end Dmanix
