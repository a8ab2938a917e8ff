import Dmanix.Base.Assert
import Dmanix.Lib.Run
import Dmanix.Lib.Word32
import Mathlib.Data.List.Perm.Basic
import Mathlib.Data.List.Sort

/-!
# The sorted index (`src/ordered_array.h`)

`OrderedArray<T>` keeps `size` items in the first slots of a caller-supplied array of `capacity`
slots, sorted by a predicate. A slot access at an index of at least `capacity` is `Halt.wild`.

`items` is the list the structure stands for. `insert_items`: `Insert` is `List.orderedInsert`.
`remove_items`: `Remove` is `List.eraseIdx`. `sorted_multiset`: along every run the items are
sorted and are what was inserted and not removed.
-/

namespace Dmanix

open Word32

/-- `OrderedArray<T>` -/
structure OrderedArray (α : Type) where
  array : Nat → α
  size : Nat
  capacity : Nat

namespace OrderedArray

variable {α : Type}

/-- `OrderedArray(array, capacity, predicate)`: every slot zeroed. -/
def create (zero : α) (capacity : Nat) : OrderedArray α := ⟨fun _ => zero, 0, capacity⟩

/-- The items, in order. -/
def items (a : OrderedArray α) : List α := (List.range a.size).map a.array

/-- `array[i]` -/
def read (a : OrderedArray α) (i : Nat) : Except Halt α :=
  if i < a.capacity then .ok (a.array i) else .error (.wild i)

/-- `array[i] = x` -/
def write (a : OrderedArray α) (i : Nat) (x : α) : Except Halt (OrderedArray α) :=
  if i < a.capacity then .ok { a with array := fun j => if j = i then x else a.array j }
  else .error (.wild i)

/-- `while (iterator < size && predicate(array[iterator], item)) ++iterator;`, with `n` slots left. -/
def findSlot (pred : α → α → Bool) (a : OrderedArray α) (item : α) :
    Nat → Nat → Except Halt Nat
  | 0, iterator => .ok iterator
  | n + 1, iterator => do
    let x ← a.read iterator
    if pred x item then findSlot pred a item n (iterator + 1) else .ok iterator

/-- `while (iterator < size) { ++iterator; tmp2 = array[iterator]; array[iterator] = tmp; tmp =
tmp2; }`, with `n` rounds left. -/
def shift : Nat → Nat → α → OrderedArray α → Except Halt (OrderedArray α)
  | 0, _, _, a => .ok a
  | n + 1, iterator, tmp, a => do
    let tmp2 ← a.read (iterator + 1)
    let a ← a.write (iterator + 1) tmp
    shift n (iterator + 1) tmp2 a

/-- `Insert(item)` -/
def insert (pred : α → α → Bool) (a : OrderedArray α) (item : α) :
    Except Halt (OrderedArray α) := do
  let iterator ← findSlot pred a item a.size 0
  let a ←
    if iterator = a.size then a.write a.size item
    else do
      let tmp ← a.read iterator
      let a ← a.write iterator item
      shift (a.size - iterator) iterator tmp a
  let a := { a with size := a.size + 1 }
  assert (a.size < a.capacity) "size < capacity"
  return a

/-- `Lookup(i)` -/
def lookup (a : OrderedArray α) (i : Nat) : Except Halt α := do
  assert (i < a.size) "i < size"
  a.read i

/-- `while (i < size) { array[i] = array[i+1]; ++i; }`, with `n` rounds left. -/
def close : Nat → Nat → OrderedArray α → Except Halt (OrderedArray α)
  | 0, _, a => .ok a
  | n + 1, i, a => do
    let x ← a.read (i + 1)
    let a ← a.write i x
    close n (i + 1) a

/-- `Remove(i)` -/
def remove (a : OrderedArray α) (i : Nat) : Except Halt (OrderedArray α) := do
  let a ← close (a.size - i) i a
  return { a with size := sub32 a.size 1 }

/-! ## Slots and items -/

@[simp] theorem length_items (a : OrderedArray α) : a.items.length = a.size := by simp [items]

@[simp] theorem items_create (zero : α) (capacity : Nat) : (create zero capacity).items = [] := rfl

theorem items_getElem {a : OrderedArray α} {i : Nat} (h : i < a.items.length) :
    a.items[i] = a.array i := by
  simp [items]

theorem read_ok {a : OrderedArray α} {i : Nat} (h : i < a.capacity) : a.read i = .ok (a.array i) :=
  if_pos h

theorem write_ok {a : OrderedArray α} {i : Nat} (x : α) (h : i < a.capacity) :
    a.write i x = .ok { a with array := fun j => if j = i then x else a.array j } :=
  if_pos h

theorem lookup_ok {a : OrderedArray α} {i : Nat} (h : i < a.size) (hc : a.size ≤ a.capacity) :
    a.lookup i = .ok (a.array i) := by
  simp only [lookup, h, decide_true, assert_true, bind, Except.bind]
  exact read_ok (by omega)

/-! ## Insert -/

/-- The first loop stops at the first item the predicate rejects. -/
theorem findSlot_ok (pred : α → α → Bool) (a : OrderedArray α) (item : α) :
    ∀ n i, i + n ≤ a.capacity → findSlot pred a item n i =
      .ok (i + (((List.range' i n).map a.array).takeWhile fun x => pred x item).length)
  | 0, i, _ => by simp [findSlot]
  | n + 1, i, h => by
    rw [findSlot, read_ok (by omega)]
    simp only [bind, Except.bind, List.range'_succ, List.map_cons, List.takeWhile_cons]
    by_cases hp : pred (a.array i) item
    · rw [if_pos hp, if_pos hp, findSlot_ok pred a item n (i + 1) (by omega)]
      simp only [List.length_cons, Except.ok.injEq]
      omega
    · rw [if_neg hp, if_neg hp]
      rfl

/-- The second loop moves `n` slots up by one and puts `tmp` in the first of them. -/
theorem shift_ok : ∀ (n i : Nat) (tmp : α) (a : OrderedArray α), i + n < a.capacity →
    shift n i tmp a = .ok { a with array := fun j =>
      if i < j ∧ j ≤ i + n then (if j = i + 1 then tmp else a.array (j - 1)) else a.array j }
  | 0, i, tmp, a, _ => by
    have h : (fun j => if i < j ∧ j ≤ i + 0 then (if j = i + 1 then tmp else a.array (j - 1))
        else a.array j) = a.array := funext fun j => if_neg (by omega)
    rw [h]
    rfl
  | n + 1, i, tmp, a, h => by
    rw [shift, read_ok (by omega), write_ok _ (by omega)]
    simp only [bind, Except.bind]
    rw [shift_ok n (i + 1) _ _ (by simp only; omega)]
    simp only [Except.ok.injEq, OrderedArray.mk.injEq, and_self, and_true]
    funext j
    grind

/-- The array with `item` put in slot `k` and the items from there on moved up. -/
def opened (a : OrderedArray α) (k : Nat) (item : α) : OrderedArray α :=
  { a with
    array := fun j =>
      if j < k then a.array j else if j = k then item
      else if j ≤ a.size then a.array (j - 1) else a.array j
    size := a.size + 1 }

theorem insert_eq {pred : α → α → Bool} {a : OrderedArray α} {item : α} {k : Nat}
    (hf : findSlot pred a item a.size 0 = .ok k) (hk : k ≤ a.size) (h : a.size < a.capacity) :
    insert pred a item = if a.size + 1 < a.capacity then .ok (a.opened k item)
      else .error (.panic "size < capacity") := by
  unfold insert
  rw [hf]
  simp only [bind, Except.bind]
  by_cases hks : k = a.size
  · subst hks
    have harr : (a.opened a.size item).array = fun j => if j = a.size then item else a.array j := by
      funext j
      simp only [opened]
      rcases Nat.lt_trichotomy j a.size with h1 | h1 | h1
      · rw [if_pos h1, if_neg (by omega)]
      · rw [if_neg (by omega), if_pos h1, if_pos h1]
      · rw [if_neg (by omega), if_neg (by omega), if_neg (by omega), if_neg (by omega)]
    rw [if_pos rfl, write_ok _ h, ← harr]
    by_cases hc : a.size + 1 < a.capacity <;> simp [assert, hc, pure, Except.pure, opened]
  · have harr : (a.opened k item).array = fun j =>
        if k < j ∧ j ≤ k + (a.size - k) then
          if j = k + 1 then a.array k else if j - 1 = k then item else a.array (j - 1)
        else if j = k then item else a.array j := by
      funext j
      simp only [opened]
      rcases Nat.lt_trichotomy j k with h1 | h1 | h1
      · rw [if_pos h1, if_neg (by omega), if_neg (by omega)]
      · rw [if_neg (by omega), if_pos h1, if_neg (by omega), if_pos h1]
      · rw [if_neg (by omega), if_neg (by omega)]
        by_cases h2 : j ≤ a.size
        · rw [if_pos h2, if_pos (by omega)]
          by_cases h3 : j = k + 1
          · subst h3; simp
          · rw [if_neg h3, if_neg (by omega)]
        · rw [if_neg h2, if_neg (by omega), if_neg (by omega)]
    rw [if_neg hks, read_ok (by omega), write_ok _ (by omega)]
    simp only
    rw [shift_ok _ _ _ _ (by simp only; omega)]
    simp only [← harr]
    by_cases hc : a.size + 1 < a.capacity <;> simp [assert, hc, pure, Except.pure, opened]

theorem items_opened {a : OrderedArray α} {k : Nat} (item : α) (hk : k ≤ a.size) :
    (a.opened k item).items = a.items.insertIdx k item := by
  apply List.ext_getElem
  · rw [List.length_insertIdx_of_le_length (by simpa using hk)]
    simp [opened]
  · intro i h1 h2
    have hi : i ≤ a.size := by simpa [opened, Nat.lt_succ_iff] using h1
    rw [items_getElem h1, List.getElem_insertIdx]
    simp only [opened, hi, if_true]
    split
    · rw [items_getElem]
    · split
      · rfl
      · rw [items_getElem]

theorem insertIdx_takeWhile (p : α → Bool) (x : α) : ∀ l : List α,
    l.insertIdx (l.takeWhile p).length x = l.takeWhile p ++ x :: l.dropWhile p
  | [] => rfl
  | y :: l => by
    by_cases h : p y
    · simp [h, insertIdx_takeWhile p x l]
    · simp [h]

/-- **`Insert` is ordered insertion**, and asserts that a slot stays free. -/
theorem insert_items (pred : α → α → Bool) {a : OrderedArray α} (item : α)
    (h : a.size < a.capacity) :
    ∃ a', a'.items = a.items.orderedInsert (fun x y => ¬ pred y x) item ∧
      a'.capacity = a.capacity ∧ a'.size = a.size + 1 ∧
      insert pred a item =
        if a.size + 1 < a.capacity then .ok a' else .error (.panic "size < capacity") := by
  have hf := findSlot_ok pred a item a.size 0 (by omega)
  rw [Nat.zero_add, ← List.range_eq_range'] at hf
  have hk : (a.items.takeWhile fun x => pred x item).length ≤ a.size := by
    rw [← length_items a]
    exact (List.takeWhile_prefix _).length_le
  refine ⟨a.opened (a.items.takeWhile fun x => pred x item).length item, ?_, rfl, rfl,
    insert_eq hf hk h⟩
  rw [items_opened item hk, List.orderedInsert_eq_take_drop]
  exact (insertIdx_takeWhile _ item a.items).trans (by simp)

/-! ## Remove -/

theorem close_ok : ∀ (n i : Nat) (a : OrderedArray α), i + n < a.capacity →
    close n i a = .ok { a with array := fun j =>
      if i ≤ j ∧ j < i + n then a.array (j + 1) else a.array j }
  | 0, i, a, _ => by
    have h : (fun j => if i ≤ j ∧ j < i + 0 then a.array (j + 1) else a.array j) = a.array :=
      funext fun j => if_neg (by omega)
    rw [h]
    rfl
  | n + 1, i, a, h => by
    rw [close, read_ok (by omega)]
    simp only [bind, Except.bind]
    rw [write_ok _ (by omega)]
    simp only
    rw [close_ok n (i + 1) _ (by simp only; omega)]
    simp only [Except.ok.injEq, OrderedArray.mk.injEq, and_self, and_true]
    funext j
    grind

/-- **`Remove` deletes one item** and keeps the order of the others. -/
theorem remove_items {a : OrderedArray α} {i : Nat} (hi : i < a.size) (h : a.size < a.capacity)
    (h32 : a.size < 4294967296) :
    ∃ a', remove a i = .ok a' ∧ a'.items = a.items.eraseIdx i ∧ a'.capacity = a.capacity ∧
      a'.size = a.size - 1 := by
  have hs : sub32 a.size 1 = a.size - 1 := sub32_eq (by omega) h32
  have hr : remove a i = .ok ⟨fun j => if i ≤ j ∧ j < i + (a.size - i) then a.array (j + 1)
      else a.array j, a.size - 1, a.capacity⟩ := by
    rw [remove, close_ok _ _ _ (by omega), ← hs]
    rfl
  refine ⟨_, hr, ?_, rfl, rfl⟩
  apply List.ext_getElem
  · rw [List.length_eraseIdx_of_lt (by simpa using hi)]
    simp
  · intro j h1 h2
    have hj : j < a.size - 1 := by simpa using h1
    rw [items_getElem h1, List.getElem_eraseIdx]
    by_cases hji : j < i
    · simp only [hji, dif_pos, if_neg (show ¬(i ≤ j ∧ j < i + (a.size - i)) by omega)]
      rw [items_getElem]
    · simp only [hji, dif_neg, not_false_iff,
        if_pos (show i ≤ j ∧ j < i + (a.size - i) by omega)]
      rw [items_getElem]

/-! ## Runs -/

/-- The order of the items: none before one the predicate puts first. -/
abbrev Le (pred : α → α → Bool) (x y : α) : Prop := ¬ pred y x

section
variable {pred : α → α → Bool} [IsStrictWeakOrder α (pred · ·)]

theorem le_total (x y : α) : Le pred x y ∨ Le pred y x := by
  by_contra h
  simp only [Le, not_or, not_not] at h
  exact irrefl_of (pred · ·) x (trans_of (pred · ·) h.2 h.1)

theorem le_trans {x y z : α} (hxy : Le pred x y) (hyz : Le pred y z) : Le pred x z := by
  intro hzx
  -- `x` and `z` are then both equivalent to `y`
  have h1 : ¬ pred x y := fun h => hyz (trans_of (pred · ·) hzx h)
  have h2 : ¬ pred y z := fun h => hxy (trans_of (pred · ·) h hzx)
  have hzx' := @IsStrictWeakOrder.incomp_trans _ (pred · ·) _ z y x ⟨hyz, h2⟩ ⟨hxy, h1⟩
  exact hzx'.1 hzx

/-- **`Insert` keeps the order.** -/
theorem sorted_orderedInsert {l : List α} (x : α) (h : l.Pairwise (Le pred)) :
    (l.orderedInsert (Le pred) x).Pairwise (Le pred) := by
  have : Std.Total (Le pred) := ⟨le_total⟩
  have : IsTrans α (Le pred) := ⟨fun _ _ _ => le_trans⟩
  exact h.orderedInsert x l

end

/-- A call that changes the array. -/
inductive IndexCall (α : Type) where
  | insert (item : α)
  | remove (i : Nat)

/-- An array with the items that were inserted and the items that were removed. -/
structure Ledger (α : Type) where
  array : OrderedArray α
  inserted : List α
  removed : List α

/-- One call that returns; `Remove(i)` takes the item `Lookup(i)` returns. -/
inductive Step (pred : α → α → Bool) : Ledger α → IndexCall α → Ledger α → Prop
  | insert {s : Ledger α} {item : α} {a : OrderedArray α} : s.array.insert pred item = .ok a →
      Step pred s (.insert item) ⟨a, item :: s.inserted, s.removed⟩
  | remove {s : Ledger α} {i : Nat} {x : α} {a : OrderedArray α} : i < s.array.size →
      s.array.lookup i = .ok x → s.array.remove i = .ok a →
      Step pred s (.remove i) ⟨a, s.inserted, x :: s.removed⟩

/-- The invariant: sorted, and the items are those inserted and not removed. -/
structure Sorted (pred : α → α → Bool) (capacity : Nat) (s : Ledger α) : Prop where
  slots : s.array.capacity = capacity
  fits : s.array.size < capacity ∨ s.array.size = 0
  sorted : s.array.items.Pairwise (Le pred)
  items : (s.array.items ++ s.removed).Perm s.inserted

theorem Sorted.remove {pred : α → α → Bool} {capacity i : Nat} {s : Ledger α} {x : α}
    {a : OrderedArray α} (h : Sorted pred capacity s) (h32 : capacity < 4294967296)
    (hi : i < s.array.size) (hx : s.array.lookup i = .ok x) (ha : s.array.remove i = .ok a) :
    Sorted pred capacity ⟨a, s.inserted, x :: s.removed⟩ := by
  have hc := h.slots
  have hlt : s.array.size < capacity := h.fits.resolve_right (by omega)
  obtain ⟨a', he, hit, hcap, hsz⟩ := remove_items hi (by omega) (by omega)
  cases he.symm.trans ha
  have hit0 : s.array.items.length = s.array.size := length_items _
  have hil : i < s.array.items.length := by omega
  have hxi : x = s.array.items[i] := by
    have hl := lookup_ok hi (show s.array.size ≤ s.array.capacity by omega)
    cases hx.symm.trans hl
    exact (items_getElem hil).symm
  refine ⟨hcap.trans hc, .inl (by simp only; omega), ?_, ?_⟩
  · rw [hit]
    exact h.sorted.sublist (List.eraseIdx_sublist _ _)
  · have hmove : (s.array.items.eraseIdx i ++ x :: s.removed).Perm
        (s.array.items ++ s.removed) := by
      refine List.perm_middle.trans ?_
      rw [hxi]
      exact (List.getElem_cons_eraseIdx_perm hil).append_right s.removed
    rw [hit]
    exact hmove.trans h.items

section
variable {pred : α → α → Bool} [IsStrictWeakOrder α (pred · ·)] {capacity : Nat}

theorem Sorted.insert {s : Ledger α} {item : α} {a : OrderedArray α} (h : Sorted pred capacity s)
    (ha : s.array.insert pred item = .ok a) :
    Sorted pred capacity ⟨a, item :: s.inserted, s.removed⟩ := by
  have hlt : s.array.size < s.array.capacity := by
    rcases h.fits with hf | hf
    · rwa [h.slots]
    · -- an array without slots takes no item
      by_contra hc
      have h0 : s.array.insert pred item = .error (.wild 0) := by
        rw [OrderedArray.insert, hf]
        simp only [findSlot, ok_bind, if_true, OrderedArray.write]
        rw [if_neg (by omega)]
        rfl
      cases h0.symm.trans ha
  obtain ⟨a', hi, hc, hs, he⟩ := insert_items pred item hlt
  rw [he] at ha
  split at ha
  · rename_i hroom
    cases ha
    refine ⟨hc.trans h.slots, .inl ?_, ?_, ?_⟩
    · rwa [hs, ← h.slots]
    · rw [hi]
      exact sorted_orderedInsert item h.sorted
    · rw [hi]
      exact ((List.perm_orderedInsert _ _ _).append_right _).trans (h.items.cons item)
  · cases ha

theorem Sorted.run {zero : α} (h32 : capacity < 4294967296) {s : Ledger α}
    (h : Guarded.Run (Step pred) (fun _ _ => True) ⟨create zero capacity, [], []⟩ s) :
    Sorted pred capacity s := by
  refine h.invariant ⟨rfl, .inr rfl, ?_, ?_⟩ fun t c u ht _ hs => ?_
  · exact List.Pairwise.nil
  · exact List.Perm.nil
  · cases hs with
    | insert ha => exact ht.insert ha
    | remove hi hx ha => exact ht.remove h32 hi hx ha

/-- **The array is a sorted multiset.** Along every run of `Insert` and `Remove` calls that return,
the items are sorted and are those inserted and not removed; `Remove(i)` deletes the item
`Lookup(i)` returns from between the others; and no call goes to a slot at or above the capacity,
also not the `Insert` that fills the last slot and stops at the ASSERT behind it. -/
theorem sorted_multiset {zero : α} (h32 : capacity < 4294967296) {s : Ledger α}
    (h : Guarded.Run (Step pred) (fun _ _ => True) ⟨create zero capacity, [], []⟩ s) :
    s.array.items.Pairwise (fun x y => ¬ pred y x) ∧
    (s.array.items ++ s.removed).Perm s.inserted ∧
    (∀ i < s.array.size, ∃ x a, s.array.lookup i = .ok x ∧ s.array.remove i = .ok a ∧
      s.array.items[i]? = some x ∧ a.items = s.array.items.eraseIdx i) ∧
    (∀ item, s.array.size + 1 < capacity → ∃ a, s.array.insert pred item = .ok a) ∧
    (∀ item, s.array.size + 1 = capacity →
      s.array.insert pred item = .error (.panic "size < capacity")) := by
  have hS := Sorted.run h32 h
  have hc := hS.slots
  refine ⟨hS.sorted, hS.items, fun i hi => ?_, fun item hroom => ?_, fun item hfull => ?_⟩
  · have hlt : s.array.size < capacity := hS.fits.resolve_right (by omega)
    obtain ⟨a, ha, hit, -, -⟩ := remove_items hi (by omega) (by omega)
    refine ⟨_, a, lookup_ok hi (by omega), ha, ?_, hit⟩
    rw [List.getElem?_eq_getElem (by simpa using hi), items_getElem]
  · obtain ⟨a, -, -, -, ha⟩ := insert_items pred item (show s.array.size < s.array.capacity by omega)
    rw [if_pos (by omega)] at ha
    exact ⟨a, ha⟩
  · obtain ⟨a, -, -, -, ha⟩ := insert_items pred item (show s.array.size < s.array.capacity by omega)
    rwa [if_neg (by omega)] at ha

end

/-- Numbers in the order of `DefaultPredicate`: four are inserted and one is removed. -/
theorem sorted_multiset_removed : ∃ s : Ledger Nat,
    Guarded.Run (Step fun x y => decide (x < y)) (fun _ _ => True) ⟨create 0 5, [], []⟩ s ∧
    s.inserted = [1, 7, 3, 7] ∧ s.removed = [3] ∧ s.array.size = 3 ∧
    s.array.items.Pairwise (fun x y => ¬ decide (y < x) = true) ∧
    (s.array.items ++ [3]).Perm [1, 7, 3, 7] := by
  have hswo : IsStrictWeakOrder Nat (fun x y => decide (x < y) = true) := {
    irrefl := by simp
    trans := by simpa using fun a b c => Nat.lt_trans
    incomp_trans := by
      intro a b c
      simp only [decide_eq_true_eq]
      omega }
  have hfour : Guarded.Run (Step fun x y => decide (x < y)) (fun _ _ => True) ⟨create 0 5, [], []⟩ _ :=
    .tail (.tail (.tail (.tail .refl trivial (@Step.insert _ _ _ 7 _ rfl)) trivial
      (@Step.insert _ _ _ 3 _ rfl)) trivial (@Step.insert _ _ _ 7 _ rfl)) trivial
      (@Step.insert _ _ _ 1 _ rfl)
  have hrun := hfour.tail trivial (.remove (i := 1) (by decide) rfl rfl)
  obtain ⟨h1, h2, -⟩ := sorted_multiset (by decide) hrun
  exact ⟨_, hrun, rfl, rfl, rfl, h1, h2⟩

end OrderedArray

end Dmanix
