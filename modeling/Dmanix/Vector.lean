import Dmanix.Base.Assert
import Dmanix.Lib.Run
import Dmanix.Lib.Slots

/-!
# The fixed-capacity vector (`src/vector.h`)

`Vector α N` is `vector<T, N>`: an array of `N` slots, the first `size` of them in use. `array` also
gives slot `N`, the memory behind the array, which `remove` reads when the vector is full.

`push_front`, `push_back` and `insert` take a `const T&`. What it refers to may be an item of the
vector itself, and `insert` reads it after its loop has moved the items: `Ref` keeps the two kinds of
argument apart.

`listCall N` is what the operations are for: the same calls on a list of at most `N` items, given the
item the argument refers to when the call is made, `none` for one that cannot be performed.
`refines_list`: along every run the vector holds the list, and a call agrees with the list's exactly
when it is not an insertion that finds a free slot and goes behind the last item (`insert` checks its
index against the capacity and not against the size), or whose argument the loop has overwritten with
another item (`Meant`).

`callInside` is `call` with every access to `array_` checked. `stays_inside`: the accesses stay below
`N` but for a removal from a full vector, whose loop reads the slot behind the last one.
-/

namespace Dmanix

open Slots

/-- `vector<T, N>` -/
structure Vector (α : Type) (N : Nat) where
  array : Nat → α
  size : Nat

/-- What a `const T&` refers to: an object outside the array, or a slot of it. -/
inductive Ref (α : Type) (N : Nat) where
  | outside (t : α)
  | slot (i : Fin N)

/-- A call of a member function, with what is passed for the item. -/
inductive VectorCall (τ : Type) where
  | pushFront (t : τ)
  | pushBack (t : τ)
  | popFront
  | popBack
  | insert (index : Nat) (t : τ)
  | remove (index : Nat)
  | atIndex (index : Nat)

def VectorCall.map {τ υ : Type} (f : τ → υ) : VectorCall τ → VectorCall υ
  | .pushFront t => .pushFront (f t)
  | .pushBack t => .pushBack (f t)
  | .popFront => .popFront
  | .popBack => .popBack
  | .insert index t => .insert index (f t)
  | .remove index => .remove index
  | .atIndex index => .atIndex index

/-- The object a reference refers to, in an array that holds `a`. -/
def Ref.read {α : Type} {N : Nat} (a : Nat → α) : Ref α N → α
  | .outside t => t
  | .slot i => a i

namespace Vector

variable {α : Type} {N : Nat}

/-- `vector()`, over whatever the slots hold. -/
def create (N : Nat) (slots : Nat → α) : Vector α N := ⟨slots, 0⟩

/-- The items, in order. -/
def items (v : Vector α N) : List α := slots v.array v.size

/-- `array_[i] = x` -/
def store (a : Nat → α) (i : Nat) (x : α) : Nat → α := fun j => if j = i then x else a j

/-- `for (i = size_; i > index; --i) array_[i] = array_[i - 1];`, with `n` rounds left. -/
def shiftUp : Nat → Nat → (Nat → α) → Nat → α
  | 0, _, a => a
  | n + 1, i, a => shiftUp n (i - 1) (store a i (a (i - 1)))

/-- `for (i = index; i < size_; ++i) array_[i] = array_[i + 1];`, with `n` rounds left. -/
def shiftDown : Nat → Nat → (Nat → α) → Nat → α
  | 0, _, a => a
  | n + 1, i, a => shiftDown n (i + 1) (store a i (a (i + 1)))

/-- `at(index)` -/
def atIndex (v : Vector α N) (index : Nat) : Except Halt α := do
  assert (index < v.size) "index < size_"
  return v.array index

/-- `insert(index, t)` -/
def insert (v : Vector α N) (index : Nat) (t : Ref α N) : Except Halt (Vector α N) := do
  assert (index < N) "index < N"
  assert (v.size < N) "size_ < N"
  let array := shiftUp (v.size - index) v.size v.array
  return ⟨store array index (t.read array), v.size + 1⟩

/-- `remove(index)` -/
def remove (v : Vector α N) (index : Nat) : Except Halt (α × Vector α N) := do
  assert (index < N) "index < N"
  assert (v.size > 0) "size_ > 0"
  let ret ← v.atIndex index
  return (ret, ⟨shiftDown (v.size - index) index v.array, v.size - 1⟩)

/-- `push_front(t)` -/
def pushFront (v : Vector α N) (t : Ref α N) : Except Halt (Vector α N) := v.insert 0 t

/-- `push_back(t)` -/
def pushBack (v : Vector α N) (t : Ref α N) : Except Halt (Vector α N) := do
  assert (v.size < N) "size_ < N"
  return ⟨store v.array v.size (t.read v.array), v.size + 1⟩

/-- `pop_front()` -/
def popFront (v : Vector α N) : Except Halt (α × Vector α N) := v.remove 0

/-- `pop_back()` -/
def popBack (v : Vector α N) : Except Halt (α × Vector α N) := do
  assert (v.size > 0) "size_ > 0"
  return (v.array (v.size - 1), ⟨v.array, v.size - 1⟩)

/-- A call: the value returned, if any, and the vector after it. -/
def call (v : Vector α N) : VectorCall (Ref α N) → Except Halt (Option α × Vector α N)
  | .pushFront t => do return (none, ← v.pushFront t)
  | .pushBack t => do return (none, ← v.pushBack t)
  | .popFront => do let (x, v) ← v.popFront; return (some x, v)
  | .popBack => do let (x, v) ← v.popBack; return (some x, v)
  | .insert index t => do return (none, ← v.insert index t)
  | .remove index => do let (x, v) ← v.remove index; return (some x, v)
  | .atIndex index => do return (some (← v.atIndex index), v)

/-! ## Bounded lists -/

/-- The call on a list of at most `N` items. -/
def listCall (N : Nat) (l : List α) : VectorCall α → Option (Option α × List α)
  | .pushFront t => if l.length < N then some (none, t :: l) else none
  | .pushBack t => if l.length < N then some (none, l ++ [t]) else none
  | .popFront => l.head?.map fun x => (some x, l.tail)
  | .popBack => l.getLast?.map fun x => (some x, l.dropLast)
  | .insert index t =>
    if index ≤ l.length ∧ l.length < N then some (none, l.insertIdx index t) else none
  | .remove index => l[index]?.map fun x => (some x, l.eraseIdx index)
  | .atIndex index => l[index]?.map fun x => (some x, l)

/-- The call with the items its argument refers to when it is made. -/
def given (v : Vector α N) (c : VectorCall (Ref α N)) : VectorCall α := c.map (·.read v.array)

/-- The vector's outcome is the list's: the same value and items, or an ASSERT fires for a call the
list cannot perform. -/
def Agree (v : Vector α N) (l : List α) (c : VectorCall (Ref α N)) : Prop :=
  match v.call c, listCall N l (v.given c) with
  | .ok (x, v'), some (y, l') => x = y ∧ v'.items = l'
  | .error (.panic _), none => True
  | _, _ => False

/-- The vector after a call; one that stops at an ASSERT is not carried out. -/
def next (v : Vector α N) (c : VectorCall (Ref α N)) : Vector α N :=
  match v.call c with
  | .ok (_, v') => v'
  | .error _ => v

/-- The list after a call; one that cannot be performed is not carried out. -/
def listNext (N : Nat) (l : List α) (c : VectorCall α) : List α :=
  match listCall N l c with
  | some (_, l') => l'
  | none => l

/-- One call on a vector and on a list. -/
inductive Step : Vector α N × List α → VectorCall (Ref α N) → Vector α N × List α → Prop
  | mk (v : Vector α N) (l : List α) (c : VectorCall (Ref α N)) :
    Step (v, l) c (v.next c, listNext N l (v.given c))

/-- Making room at `index` leaves what `t` refers to as it was: it is not one of the slots the loop
stores to, or the slot below holds the same item. -/
def Unmoved (v : Vector α N) (index : Nat) : Ref α N → Prop
  | .outside _ => True
  | .slot i => index < i → i ≤ v.size → v.array (i - 1) = v.array i

/-- An insertion that finds no free slot, or one that goes no further than behind the last item and
whose argument is not overwritten. -/
def InsertMeant (v : Vector α N) (index : Nat) (t : Ref α N) : Prop :=
  N ≤ index ∨ N ≤ v.size ∨ index ≤ v.size ∧ v.Unmoved index t

/-- The calls that do what they mean. -/
def Meant (s : Vector α N × List α) : VectorCall (Ref α N) → Prop
  | .pushFront t => s.1.InsertMeant 0 t
  | .insert index t => s.1.InsertMeant index t
  | _ => True

/-! ## The loops -/

theorem shiftUp_eq : ∀ (n i : Nat) (a : Nat → α), n ≤ i →
    shiftUp n i a = fun j => if i - n < j ∧ j ≤ i then a (j - 1) else a j
  | 0, i, a, _ => by
    funext j
    rw [if_neg (by omega)]
    rfl
  | n + 1, i, a, h => by
    rw [shiftUp, shiftUp_eq n (i - 1) _ (by omega)]
    funext j
    unfold store
    grind

theorem shiftDown_eq : ∀ (n i : Nat) (a : Nat → α),
    shiftDown n i a = fun j => if i ≤ j ∧ j < i + n then a (j + 1) else a j
  | 0, i, a => by
    funext j
    rw [if_neg (by omega)]
    rfl
  | n + 1, i, a => by
    rw [shiftDown, shiftDown_eq n (i + 1)]
    funext j
    unfold store
    grind

/-! ## The operations -/

@[simp] theorem length_items (v : Vector α N) : v.items.length = v.size := length_slots _ _

theorem atIndex_ok {v : Vector α N} {i : Nat} (h : i < v.size) :
    v.atIndex i = .ok (v.array i) := by
  simp only [atIndex, h, decide_true, assert_true, ok_bind]
  rfl

theorem atIndex_panic {v : Vector α N} {i : Nat} (h : ¬ i < v.size) :
    v.atIndex i = .error (.panic "index < size_") := by
  simp only [atIndex, h, decide_false, assert_false]
  rfl

/-- The item `insert` stores: what its argument refers to once there is room at `i`. -/
def inserted (v : Vector α N) (i : Nat) (t : Ref α N) : α :=
  t.read (shiftUp (v.size - i) v.size v.array)

/-- It is what the argument referred to before exactly when the loop leaves that as it was. -/
theorem inserted_iff {v : Vector α N} {i : Nat} {t : Ref α N} :
    v.inserted i t = t.read v.array ↔ v.Unmoved i t := by
  cases t with
  | outside t => exact iff_of_true rfl trivial
  | slot j =>
    unfold inserted
    rw [shiftUp_eq _ _ _ (Nat.sub_le _ _)]
    simp only [Ref.read, Unmoved]
    by_cases hj : i < j ∧ j ≤ v.size
    · rw [if_pos (by omega)]
      exact ⟨fun h _ _ => h, fun h => h hj.1 hj.2⟩
    · rw [if_neg (by omega)]
      exact iff_of_true rfl fun h1 h2 => absurd ⟨h1, h2⟩ hj

/-- **`insert` at an index up to the size.** -/
theorem insert_items {v : Vector α N} {i : Nat} {t : Ref α N} (hi : i ≤ v.size) (hs : v.size < N) :
    ∃ v', v.insert i t = .ok v' ∧ v'.items = v.items.insertIdx i (v.inserted i t) ∧
      v'.size = v.size + 1 := by
  refine ⟨⟨store (shiftUp (v.size - i) v.size v.array) i (v.inserted i t), v.size + 1⟩, ?_, ?_, rfl⟩
  · simp only [insert, hs, show i < N by omega, decide_true, assert_true, ok_bind]
    rfl
  · refine slots_insertIdx hi fun j hj => ?_
    simp only [store]
    rw [shiftUp_eq _ _ _ (by omega)]
    grind

theorem insert_panic {v : Vector α N} {i : Nat} {t : Ref α N} (h : N ≤ i ∨ N ≤ v.size) :
    ∃ msg, v.insert i t = .error (.panic msg) := by
  by_cases hi : i < N
  · refine ⟨"size_ < N", ?_⟩
    simp only [insert, hi, show ¬ v.size < N by omega, decide_true, decide_false, assert_true,
      assert_false, ok_bind]
    rfl
  · refine ⟨"index < N", ?_⟩
    simp only [insert, hi, decide_false, assert_false]
    rfl

/-- `insert` never checks its index against the size. -/
theorem insert_behind {v : Vector α N} {i : Nat} {t : Ref α N} (hi : i < N) (hs : v.size < N) :
    ∃ v', v.insert i t = .ok v' ∧ v'.size = v.size + 1 := by
  refine ⟨⟨store (shiftUp (v.size - i) v.size v.array) i (v.inserted i t), v.size + 1⟩, ?_, rfl⟩
  simp only [insert, hs, hi, decide_true, assert_true, ok_bind]
  rfl

/-- **`remove` at an index below the size.** -/
theorem remove_items {v : Vector α N} {i : Nat} (hi : i < v.size) (hN : v.size ≤ N) :
    ∃ v', v.remove i = .ok (v.array i, v') ∧ v'.items = v.items.eraseIdx i ∧
      v'.size = v.size - 1 := by
  refine ⟨⟨shiftDown (v.size - i) i v.array, v.size - 1⟩, ?_, ?_, rfl⟩
  · simp only [remove, show i < N by omega, show v.size > 0 by omega, decide_true, assert_true,
      ok_bind, atIndex_ok hi]
    rfl
  · refine slots_eraseIdx hi fun j hj => ?_
    rw [shiftDown_eq]
    grind

theorem remove_panic {v : Vector α N} {i : Nat} (hi : ¬ i < v.size) :
    ∃ msg, v.remove i = .error (.panic msg) := by
  by_cases hN : i < N
  · by_cases h0 : v.size > 0
    · refine ⟨"index < size_", ?_⟩
      simp only [remove, hN, h0, decide_true, assert_true, ok_bind, atIndex_panic hi]
      rfl
    · refine ⟨"size_ > 0", ?_⟩
      simp only [remove, hN, h0, decide_true, decide_false, assert_true, assert_false, ok_bind]
      rfl
  · refine ⟨"index < N", ?_⟩
    simp only [remove, hN, decide_false, assert_false]
    rfl

theorem pushBack_items {v : Vector α N} {t : Ref α N} (hs : v.size < N) :
    ∃ v', v.pushBack t = .ok v' ∧ v'.items = v.items ++ [t.read v.array] ∧
      v'.size = v.size + 1 := by
  refine ⟨⟨store v.array v.size (t.read v.array), v.size + 1⟩, ?_, ?_, rfl⟩
  · simp only [pushBack, hs, decide_true, assert_true, ok_bind]
    rfl
  · show slots (store v.array v.size (t.read v.array)) (v.size + 1) =
      slots v.array v.size ++ [t.read v.array]
    have hlast : store v.array v.size (t.read v.array) v.size = t.read v.array := if_pos rfl
    have hrest : slots (store v.array v.size (t.read v.array)) v.size = slots v.array v.size :=
      slots_congr fun i hi => if_neg (Nat.ne_of_lt hi)
    rw [slots_succ, hlast, hrest]

theorem popBack_items {v : Vector α N} (hs : v.size > 0) :
    ∃ v', v.popBack = .ok (v.array (v.size - 1), v') ∧ v'.items = v.items.dropLast ∧
      v'.size = v.size - 1 := by
  refine ⟨⟨v.array, v.size - 1⟩, ?_, ?_, rfl⟩
  · simp only [popBack, hs, decide_true, assert_true, ok_bind]
    rfl
  · show slots v.array (v.size - 1) = (slots v.array v.size).dropLast
    obtain ⟨n, hn⟩ : ∃ n, v.size = n + 1 := ⟨v.size - 1, by omega⟩
    rw [hn, slots_succ, List.dropLast_concat]
    rfl

/-! ## Refinement -/

/-- A vector holding a list of at most `N` items. -/
structure Holds (v : Vector α N) (l : List α) : Prop where
  items : v.items = l
  fits : v.size ≤ N

theorem Holds.length {v : Vector α N} {l : List α} (h : Holds v l) : l.length = v.size := by
  rw [← h.items, length_items]

theorem Holds.getElem? {v : Vector α N} {l : List α} (h : Holds v l) (i : Nat) :
    l[i]? = if i < v.size then some (v.array i) else none := by
  rw [← h.items]
  exact slots_getElem? _ _ _

/-- A call carried out on both sides with the same value, or on neither. -/
inductive Outcome (v : Vector α N) (l : List α) (c : VectorCall (Ref α N)) : Prop
  | done (x : Option α) (v' : Vector α N) (l' : List α) : v.call c = .ok (x, v') →
      listCall N l (v.given c) = some (x, l') → Holds v' l' → Outcome v l c
  | stopped (msg : String) : v.call c = .error (.panic msg) → listCall N l (v.given c) = none →
      Outcome v l c

section
variable {v : Vector α N} {l : List α} (h : Holds v l)
include h

theorem outcome_insert {i : Nat} {t : Ref α N} (hm : v.InsertMeant i t) :
    Outcome v l (.insert i t) := by
  have hl := h.length
  unfold InsertMeant at hm
  by_cases hok : i ≤ v.size ∧ v.size < N
  · obtain ⟨v', hv, hi, hs⟩ := insert_items (t := t) hok.1 hok.2
    have ht : v.Unmoved i t := by
      obtain hn | hn | hn := hm
      · omega
      · omega
      · exact hn.2
    refine .done none v' (l.insertIdx i (t.read v.array)) ?_ ?_ ⟨?_, ?_⟩
    · simp only [call, hv]
      rfl
    · rw [← hl] at hok
      exact if_pos hok
    · rw [hi, h.items, inserted_iff.2 ht]
    · omega
  · obtain ⟨msg, hv⟩ := insert_panic (v := v) (i := i) (t := t) (by omega)
    refine .stopped msg ?_ ?_
    · simp only [call, hv]
      rfl
    · rw [← hl] at hok
      exact if_neg hok

theorem outcome_remove (i : Nat) : Outcome v l (.remove i) := by
  have hget := h.getElem? i
  by_cases hi : i < v.size
  · obtain ⟨v', hv, hit, hs⟩ := remove_items hi h.fits
    rw [if_pos hi] at hget
    refine .done (some (v.array i)) v' (l.eraseIdx i) ?_ ?_ ⟨?_, ?_⟩
    · simp only [call, hv]
      rfl
    · rw [given, VectorCall.map, listCall, hget]
      rfl
    · rw [hit, h.items]
    · have := h.fits
      omega
  · obtain ⟨msg, hv⟩ := remove_panic (v := v) (i := i) hi
    rw [if_neg hi] at hget
    refine .stopped msg ?_ ?_
    · simp only [call, hv]
      rfl
    · rw [given, VectorCall.map, listCall, hget]
      rfl

theorem outcome_pushBack (t : Ref α N) : Outcome v l (.pushBack t) := by
  have hl := h.length
  by_cases hs : v.size < N
  · obtain ⟨v', hv, hit, hsz⟩ := pushBack_items (t := t) hs
    refine .done none v' (l ++ [t.read v.array]) ?_ (if_pos (by omega)) ⟨?_, by omega⟩
    · simp only [call, hv]
      rfl
    · rw [hit, h.items]
  · refine .stopped "size_ < N" ?_ (if_neg (by omega))
    simp only [call, pushBack, hs, decide_false, assert_false]
    rfl

theorem outcome_popBack : Outcome v l .popBack := by
  have hl := h.length
  by_cases hs : v.size > 0
  · obtain ⟨v', hv, hit, hsz⟩ := popBack_items hs
    have hlast : l.getLast? = some (v.array (v.size - 1)) := by
      rw [List.getLast?_eq_getElem?, h.getElem?, hl, if_pos (by omega)]
    refine .done (some (v.array (v.size - 1))) v' l.dropLast ?_ ?_ ⟨?_, ?_⟩
    · simp only [call, hv]
      rfl
    · rw [given, VectorCall.map, listCall, hlast]
      rfl
    · rw [hit, h.items]
    · have := h.fits
      omega
  · have hnil : l = [] := List.eq_nil_of_length_eq_zero (by omega)
    refine .stopped "size_ > 0" ?_ ?_
    · simp only [call, popBack, hs, decide_false, assert_false]
      rfl
    · rw [hnil]
      rfl

theorem outcome_atIndex (i : Nat) : Outcome v l (.atIndex i) := by
  have hget := h.getElem? i
  by_cases hi : i < v.size
  · rw [if_pos hi] at hget
    refine .done (some (v.array i)) v l ?_ ?_ h
    · simp only [call, atIndex_ok hi]
      rfl
    · rw [given, VectorCall.map, listCall, hget]
      rfl
  · rw [if_neg hi] at hget
    refine .stopped "index < size_" ?_ ?_
    · simp only [call, atIndex_panic hi]
      rfl
    · rw [given, VectorCall.map, listCall, hget]
      rfl

/-- **One call.** -/
theorem outcome {c : VectorCall (Ref α N)} (hm : Meant (v, l) c) : Outcome v l c := by
  cases c with
  | pushFront t =>
    -- `push_front` is `insert(0, t)`, on the list as in the vector
    have hlist : listCall N l (v.given (.pushFront t)) = listCall N l (v.given (.insert 0 t)) := by
      simp [given, VectorCall.map, listCall]
    cases outcome_insert h hm with
    | done x v' l' hv hl hh => exact .done x v' l' hv (hlist.trans hl) hh
    | stopped msg hv hl => exact .stopped msg hv (hlist.trans hl)
  | pushBack t => exact outcome_pushBack h t
  | popFront =>
    have hlist : listCall N l (v.given .popFront) = listCall N l (v.given (.remove 0)) := by
      cases l <;> rfl
    cases outcome_remove h 0 with
    | done x v' l' hv hl hh => exact .done x v' l' hv (hlist.trans hl) hh
    | stopped msg hv hl => exact .stopped msg hv (hlist.trans hl)
  | popBack => exact outcome_popBack h
  | insert i t => exact outcome_insert h hm
  | remove i => exact outcome_remove h i
  | atIndex i => exact outcome_atIndex h i

end

theorem Outcome.agree {v : Vector α N} {l : List α} {c : VectorCall (Ref α N)}
    (h : Outcome v l c) :
    Agree v l c ∧ (Holds v l → Holds (v.next c) (listNext N l (v.given c))) := by
  unfold Agree next listNext
  cases h with
  | done x v' l' hv hl hh =>
    rw [hv, hl]
    exact ⟨⟨rfl, hh.items⟩, fun _ => hh⟩
  | stopped msg hv hl =>
    rw [hv, hl]
    exact ⟨trivial, id⟩

/-- Behind the last item the insertion is carried out where the list's is not; up to there it puts
in another item. -/
theorem insert_not_agree {v : Vector α N} {l : List α} {i : Nat} {t : Ref α N} (h : Holds v l)
    (hm : ¬ v.InsertMeant i t) : ¬ Agree v l (.insert i t) := by
  simp only [InsertMeant, not_or, Nat.not_le, not_and] at hm
  obtain ⟨hi, hs, hm⟩ := hm
  have hlen := h.length
  unfold Agree
  by_cases hle : i ≤ v.size
  · obtain ⟨v', hv, hit, -⟩ := insert_items (t := t) hle hs
    have hl : listCall N l (v.given (.insert i t)) =
        some (none, l.insertIdx i (t.read v.array)) := if_pos ⟨by omega, by omega⟩
    rw [hl]
    simp only [call, hv]
    rintro ⟨-, he⟩
    rw [hit, h.items] at he
    have hat := congrArg (·[i]?) he
    simp only [List.getElem?_insertIdx_self] at hat
    rw [if_pos (by omega), if_pos (by omega), Option.some.injEq] at hat
    exact hm hle (inserted_iff.1 hat)
  · obtain ⟨v', hv, -⟩ := insert_behind (t := t) hi hs
    have hl : listCall N l (v.given (.insert i t)) = none := if_neg (by omega)
    rw [hl]
    simp only [call, hv]
    exact id

theorem not_agree {v : Vector α N} {l : List α} {c : VectorCall (Ref α N)} (h : Holds v l)
    (hm : ¬ Meant (v, l) c) : ¬ Agree v l c := by
  cases c with
  | pushFront t =>
    have hagree : Agree v l (.pushFront t) ↔ Agree v l (.insert 0 t) := by
      have hlist : listCall N l (v.given (.pushFront t)) = listCall N l (v.given (.insert 0 t)) := by
        simp [given, VectorCall.map, listCall]
      unfold Agree
      rw [hlist]
      exact Iff.rfl
    exact fun ha => insert_not_agree h hm (hagree.1 ha)
  | insert i t => exact insert_not_agree h hm
  | _ => exact absurd trivial hm

theorem holds_run {s : Vector α N × List α} {slots : Nat → α}
    (h : Guarded.Run Step Meant (create N slots, []) s) : Holds s.1 s.2 := by
  refine h.invariant (P := fun s => Holds s.1 s.2) ⟨rfl, Nat.zero_le _⟩ fun t c u ht hm hs => ?_
  cases hs with
  | mk v l c => exact (outcome ht hm).agree.2 ht

/-- **The vector is a list of at most `N` items.** Along every run from an empty vector whose
insertions go no further than behind the last item and keep what their argument refers to, the vector
holds the list; and the next call agrees with the list's exactly when it is meant so too. -/
theorem refines_list {v : Vector α N} {l : List α} {slots : Nat → α}
    (h : Guarded.Run Step Meant (create N slots, []) (v, l)) :
    v.size = l.length ∧ v.items = l ∧ ∀ c, Agree v l c ↔ Meant (v, l) c := by
  have hh : Holds v l := holds_run h
  refine ⟨hh.length.symm, hh.items, fun c => ⟨fun ha => ?_, fun hm => (outcome hh hm).agree.1⟩⟩
  by_contra hm
  exact not_agree hh hm ha

/-- An empty vector of ten numbers. -/
def ten : Vector Nat 10 := create 10 fun _ => 0

/-- Three numbers. -/
def oneTwoThree : Vector Nat 10 :=
  ((ten.next (.pushBack (.outside 1))).next (.pushBack (.outside 2))).next (.pushBack (.outside 3))

/-- The first of them put in front once more, and the third item removed. -/
def doubled : Vector Nat 10 := (oneTwoThree.next (.pushFront (.slot 0))).next (.remove 2)

theorem refines_list_doubled : doubled.size = [1, 1, 3].length ∧ doubled.items = [1, 1, 3] ∧
    ∀ c, Agree doubled [1, 1, 3] c ↔ Meant (doubled, [1, 1, 3]) c :=
  @refines_list Nat 10 doubled [1, 1, 3] (fun _ => 0)
    (.tail (i := .remove 2)
      (.tail (i := .pushFront (.slot 0))
        (.tail (i := .pushBack (.outside 3))
          (.tail (i := .pushBack (.outside 2))
            (.tail (i := .pushBack (.outside 1)) .refl trivial (.mk ten [] _)) trivial (.mk _ _ _))
          trivial (.mk _ _ _))
        (.inr (.inr ⟨Nat.zero_le _, fun h => absurd h (Nat.lt_irrefl 0)⟩)) (.mk oneTwoThree _ _))
      trivial (.mk _ _ _))

/-- **An insertion two places behind the last item is accepted.** -/
theorem insert_behind_accepted : ¬ Agree ten [] (.insert 2 (.outside 7)) := id

/-- `push_front(v.at(1))` puts in the first item, which its loop has moved there. -/
example : (oneTwoThree.next (.pushFront (.slot 1))).items = [1, 1, 2, 3] := rfl

/-! ## Accesses -/

section
variable (N)

/-- `array_[i]`, read -/
def readInside (a : Nat → α) (i : Nat) : Except Halt α :=
  if i < N then .ok (a i) else .error (.wild i)

/-- `array_[i] = x` -/
def writeInside (a : Nat → α) (i : Nat) (x : α) : Except Halt (Nat → α) :=
  if i < N then .ok (store a i x) else .error (.wild i)

/-- What `t` refers to, read -/
def referInside (a : Nat → α) : Ref α N → Except Halt α
  | .outside t => .ok t
  | .slot i => readInside N a i

/-- `shiftUp` with checked accesses. -/
def shiftUpInside : Nat → Nat → (Nat → α) → Except Halt (Nat → α)
  | 0, _, a => .ok a
  | n + 1, i, a => do
    let x ← readInside N a (i - 1)
    let a ← writeInside N a i x
    shiftUpInside n (i - 1) a

/-- `shiftDown` with checked accesses. -/
def shiftDownInside : Nat → Nat → (Nat → α) → Except Halt (Nat → α)
  | 0, _, a => .ok a
  | n + 1, i, a => do
    let x ← readInside N a (i + 1)
    let a ← writeInside N a i x
    shiftDownInside n (i + 1) a

end

/-- `at(index)` with checked accesses. -/
def atIndexInside (v : Vector α N) (index : Nat) : Except Halt α := do
  assert (index < v.size) "index < size_"
  readInside N v.array index

/-- `insert(index, t)` with checked accesses. -/
def insertInside (v : Vector α N) (index : Nat) (t : Ref α N) : Except Halt (Vector α N) := do
  assert (index < N) "index < N"
  assert (v.size < N) "size_ < N"
  let array ← shiftUpInside N (v.size - index) v.size v.array
  let x ← referInside N array t
  let array ← writeInside N array index x
  return ⟨array, v.size + 1⟩

/-- `remove(index)` with checked accesses. -/
def removeInside (v : Vector α N) (index : Nat) : Except Halt (α × Vector α N) := do
  assert (index < N) "index < N"
  assert (v.size > 0) "size_ > 0"
  let ret ← v.atIndexInside index
  let array ← shiftDownInside N (v.size - index) index v.array
  return (ret, ⟨array, v.size - 1⟩)

/-- `push_back(t)` with checked accesses. -/
def pushBackInside (v : Vector α N) (t : Ref α N) : Except Halt (Vector α N) := do
  assert (v.size < N) "size_ < N"
  let x ← referInside N v.array t
  let array ← writeInside N v.array v.size x
  return ⟨array, v.size + 1⟩

/-- `pop_back()` with checked accesses. -/
def popBackInside (v : Vector α N) : Except Halt (α × Vector α N) := do
  assert (v.size > 0) "size_ > 0"
  let x ← readInside N v.array (v.size - 1)
  return (x, ⟨v.array, v.size - 1⟩)

/-- A call with checked accesses. -/
def callInside (v : Vector α N) : VectorCall (Ref α N) → Except Halt (Option α × Vector α N)
  | .pushFront t => do return (none, ← v.insertInside 0 t)
  | .pushBack t => do return (none, ← v.pushBackInside t)
  | .popFront => do let (x, v) ← v.removeInside 0; return (some x, v)
  | .popBack => do let (x, v) ← v.popBackInside; return (some x, v)
  | .insert index t => do return (none, ← v.insertInside index t)
  | .remove index => do let (x, v) ← v.removeInside index; return (some x, v)
  | .atIndex index => do return (some (← v.atIndexInside index), v)

/-- A removal from a full vector. -/
def RemovesFull (v : Vector α N) : VectorCall (Ref α N) → Prop
  | .popFront | .remove _ => v.size = N
  | _ => False

theorem readInside_ok {a : Nat → α} {i : Nat} (h : i < N) : readInside N a i = .ok (a i) := if_pos h

theorem writeInside_ok {a : Nat → α} {i : Nat} {x : α} (h : i < N) :
    writeInside N a i x = .ok (store a i x) := if_pos h

theorem referInside_ok (a : Nat → α) : ∀ t : Ref α N, referInside N a t = .ok (t.read a)
  | .outside _ => rfl
  | .slot i => readInside_ok i.isLt

theorem shiftUpInside_ok : ∀ (n i : Nat) (a : Nat → α), n ≤ i → i < N →
    shiftUpInside N n i a = .ok (shiftUp n i a)
  | 0, _, _, _, _ => rfl
  | n + 1, i, a, hn, hi => by
    rw [shiftUpInside, readInside_ok (by omega), ok_bind, writeInside_ok hi, ok_bind]
    exact shiftUpInside_ok n (i - 1) _ (by omega) (by omega)

theorem shiftDownInside_ok : ∀ (n i : Nat) (a : Nat → α), i + n < N →
    shiftDownInside N n i a = .ok (shiftDown n i a)
  | 0, _, _, _ => rfl
  | n + 1, i, a, hi => by
    rw [shiftDownInside, readInside_ok (by omega), ok_bind, writeInside_ok (by omega), ok_bind]
    exact shiftDownInside_ok n (i + 1) _ (by omega)

/-- The loop of `remove` on a full vector ends with slot `N`. -/
theorem shiftDownInside_full : ∀ (n i : Nat) (a : Nat → α), i + (n + 1) = N →
    shiftDownInside N (n + 1) i a = .error (.wild N)
  | 0, i, a, hi => by
    subst hi
    simp [shiftDownInside, readInside, bind, Except.bind]
  | n + 1, i, a, hi => by
    rw [shiftDownInside, readInside_ok (by omega), ok_bind, writeInside_ok (by omega), ok_bind]
    exact shiftDownInside_full n (i + 1) _ (by omega)

theorem insert_cases {v v' : Vector α N} {i : Nat} {t : Ref α N} (h : v.insert i t = .ok v') :
    i < N ∧ v.size < N ∧
      v' = ⟨store (shiftUp (v.size - i) v.size v.array) i (v.inserted i t), v.size + 1⟩ := by
  unfold insert at h
  obtain ⟨_, hi, h⟩ := bind_ok.1 h
  obtain ⟨_, hs, h⟩ := bind_ok.1 h
  rw [assert_ok, decide_eq_true_iff] at hi hs
  cases h
  exact ⟨hi, hs, rfl⟩

theorem remove_cases {v : Vector α N} {i : Nat} {r : α × Vector α N} (h : v.remove i = .ok r) :
    i < N ∧ i < v.size ∧
      r = (v.array i, ⟨shiftDown (v.size - i) i v.array, v.size - 1⟩) := by
  unfold remove atIndex at h
  obtain ⟨_, hi, h⟩ := bind_ok.1 h
  obtain ⟨_, -, h⟩ := bind_ok.1 h
  obtain ⟨x, hx, h⟩ := bind_ok.1 h
  obtain ⟨_, hs, hx⟩ := bind_ok.1 hx
  rw [assert_ok, decide_eq_true_iff] at hi hs
  cases hx
  cases h
  exact ⟨hi, hs, rfl⟩

/-- `insert` stays inside the array. -/
theorem insertInside_ok {v v' : Vector α N} {i : Nat} {t : Ref α N} (h : v.insert i t = .ok v') :
    v.insertInside i t = .ok v' := by
  obtain ⟨hi, hs, rfl⟩ := insert_cases h
  unfold insertInside
  rw [decide_eq_true hi, decide_eq_true hs, assert_true, ok_bind, assert_true, ok_bind,
    shiftUpInside_ok _ _ _ (Nat.sub_le _ _) hs, ok_bind, referInside_ok, ok_bind, writeInside_ok hi,
    ok_bind]
  rfl

/-- `remove` stays inside the array exactly when the vector is not full. -/
theorem removeInside_iff {v : Vector α N} {i : Nat} {r : α × Vector α N} (hv : v.size ≤ N)
    (h : v.remove i = .ok r) : v.removeInside i = .ok r ↔ v.size ≠ N := by
  obtain ⟨hi, hs, rfl⟩ := remove_cases h
  unfold removeInside atIndexInside
  rw [decide_eq_true hi, decide_eq_true (show v.size > 0 by omega), decide_eq_true hs, assert_true,
    ok_bind, assert_true, ok_bind, assert_true, ok_bind, readInside_ok hi, ok_bind]
  constructor
  · intro hok hfull
    obtain ⟨n, hn⟩ : ∃ n, v.size - i = n + 1 := ⟨v.size - i - 1, by omega⟩
    rw [hn, shiftDownInside_full n i _ (by omega)] at hok
    cases hok
  · intro hne
    rw [shiftDownInside_ok _ _ _ (by omega), ok_bind]
    rfl

/-- A call keeps the size within the capacity. -/
theorem size_le {v v' : Vector α N} {c : VectorCall (Ref α N)} {x : Option α} (hv : v.size ≤ N)
    (h : v.call c = .ok (x, v')) : v'.size ≤ N := by
  cases c with
  | pushFront t =>
    obtain ⟨w, hw, h⟩ := bind_ok.1 h
    obtain ⟨-, hs, rfl⟩ := insert_cases hw
    cases h
    exact hs
  | insert i t =>
    obtain ⟨w, hw, h⟩ := bind_ok.1 h
    obtain ⟨-, hs, rfl⟩ := insert_cases hw
    cases h
    exact hs
  | popFront =>
    obtain ⟨w, hw, h⟩ := bind_ok.1 h
    obtain ⟨-, hs, rfl⟩ := remove_cases hw
    cases h
    exact Nat.le_trans (Nat.sub_le _ _) hv
  | remove i =>
    obtain ⟨w, hw, h⟩ := bind_ok.1 h
    obtain ⟨-, hs, rfl⟩ := remove_cases hw
    cases h
    exact Nat.le_trans (Nat.sub_le _ _) hv
  | pushBack t =>
    obtain ⟨w, hw, h⟩ := bind_ok.1 h
    obtain ⟨_, hs, hw⟩ := bind_ok.1 hw
    rw [assert_ok, decide_eq_true_iff] at hs
    cases hw
    cases h
    exact hs
  | popBack =>
    obtain ⟨w, hw, h⟩ := bind_ok.1 h
    obtain ⟨_, -, hw⟩ := bind_ok.1 hw
    cases hw
    cases h
    exact Nat.le_trans (Nat.sub_le _ _) hv
  | atIndex i =>
    obtain ⟨w, -, h⟩ := bind_ok.1 h
    cases h
    exact hv

/-- **Accesses stay inside the array**, in every state a run reaches and for every call whose ASSERTs
pass, exactly when the call does not remove from a full vector. -/
theorem stays_inside {slots : Nat → α} {v : Vector α N} {c : VectorCall (Ref α N)}
    {r : Option α × Vector α N}
    (h : Guarded.Run (fun v c v' => v' = v.next c) (fun _ _ => True) (create N slots) v)
    (hc : v.call c = .ok r) : v.callInside c = .ok r ↔ ¬ RemovesFull v c := by
  have hv : v.size ≤ N := by
    refine h.invariant (P := fun v => v.size ≤ N) (Nat.zero_le _) fun t c u ht _ hu => ?_
    subst hu
    unfold next
    split
    · rename_i x v' hx
      exact size_le ht hx
    · exact ht
  -- `pop_front` and `remove`
  have removal {i : Nat} {w : α × Vector α N} (hw : v.remove i = .ok w)
      (hc : (.ok (some w.1, w.2) : Except Halt _) = .ok r) :
      ((v.removeInside i >>= fun w => .ok (some w.1, w.2)) = .ok r) ↔ ¬ v.size = N := by
    cases hc
    rw [← Ne, ← removeInside_iff hv hw, bind_ok]
    constructor
    · rintro ⟨w', hw', he⟩
      simp only [Except.ok.injEq, Prod.mk.injEq, Option.some.injEq] at he
      rw [hw', Prod.ext he.1 he.2]
    · intro hok
      exact ⟨w, hok, rfl⟩
  cases c with
  | pushFront t =>
    obtain ⟨w, hw, hc⟩ := bind_ok.1 hc
    refine iff_of_true ?_ id
    rw [callInside, insertInside_ok hw, ok_bind]
    exact hc
  | insert i t =>
    obtain ⟨w, hw, hc⟩ := bind_ok.1 hc
    refine iff_of_true ?_ id
    rw [callInside, insertInside_ok hw, ok_bind]
    exact hc
  | popFront =>
    obtain ⟨⟨x, w⟩, hw, hc⟩ := bind_ok.1 hc
    exact removal hw hc
  | remove i =>
    obtain ⟨⟨x, w⟩, hw, hc⟩ := bind_ok.1 hc
    exact removal hw hc
  | pushBack t =>
    obtain ⟨w, hw, hc⟩ := bind_ok.1 hc
    refine iff_of_true ?_ id
    obtain ⟨_, hs, hw⟩ := bind_ok.1 hw
    rw [assert_ok, decide_eq_true_iff] at hs
    rw [callInside, pushBackInside, decide_eq_true hs, assert_true, ok_bind, referInside_ok, ok_bind,
      writeInside_ok hs]
    cases hw
    exact hc
  | popBack =>
    obtain ⟨w, hw, hc⟩ := bind_ok.1 hc
    refine iff_of_true ?_ id
    obtain ⟨_, hs, hw⟩ := bind_ok.1 hw
    rw [assert_ok, decide_eq_true_iff] at hs
    rw [callInside, popBackInside, decide_eq_true hs, assert_true, ok_bind,
      readInside_ok (by omega)]
    cases hw
    exact hc
  | atIndex i =>
    obtain ⟨w, hw, hc⟩ := bind_ok.1 hc
    refine iff_of_true ?_ id
    obtain ⟨_, hs, hw⟩ := bind_ok.1 hw
    rw [assert_ok, decide_eq_true_iff] at hs
    rw [callInside, atIndexInside, decide_eq_true hs, assert_true, ok_bind,
      readInside_ok (by omega)]
    cases hw
    exact hc

/-- A vector of three numbers, full. -/
def threeFull : Vector Nat 3 :=
  (((create 3 fun _ => 0).next (.pushBack (.outside 1))).next (.pushBack (.outside 2))).next
    (.insert 0 (.slot 1))

theorem stays_inside_popBack : threeFull.callInside .popBack =
      .ok (some 2, threeFull.next .popBack) ↔ ¬ RemovesFull threeFull .popBack :=
  @stays_inside Nat 3 (fun _ => 0) threeFull .popBack _
    (.tail (i := .insert 0 (.slot 1))
      (.tail (i := .pushBack (.outside 2))
        (.tail (i := .pushBack (.outside 1)) .refl trivial rfl) trivial rfl) trivial rfl) rfl

/-- A vector of one number, full. -/
def oneFull : Vector Nat 1 := (create 1 fun _ => 0).next (.pushBack (.outside 3))

/-- **A removal from a full vector reads behind the array.** -/
theorem full_removal_outside : Guarded.Run (fun v c v' => v' = v.next c) (fun _ _ => True)
      (create 1 fun _ => 0) oneFull ∧
    (∃ r, oneFull.call .popFront = .ok r) ∧ oneFull.callInside .popFront = .error (.wild 1) :=
  ⟨.tail (i := .pushBack (.outside 3)) .refl trivial rfl, ⟨_, rfl⟩, rfl⟩

end Vector

end Dmanix
