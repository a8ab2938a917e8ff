import Mathlib.Data.List.Perm.Basic
import Mathlib.Data.List.Sort
import Mathlib.Order.Defs.LinearOrder

/-!
# Lists sorted by a key that changes

A list sorted by `key` stays sorted when one item `x` gets another key just where that key lies
between those before and behind `x`. `SortedBut key x l`: the items other than `x` are sorted;
`SortedBut.rekey` gives `x` a key, `SortedBut.erase` takes `x` out. In a sorted list the first item
with a property is one of least key (`SortedBy.first_least`).
-/

namespace Keyed

variable {α β : Type*} [LinearOrder β]

/-- The keys do not decrease. -/
def SortedBy (key : α → β) (l : List α) : Prop := l.Pairwise fun a b => key a ≤ key b

/-- The keys of the items other than `x` do not decrease. -/
def SortedBut (key : α → β) (x : α) (l : List α) : Prop :=
  l.Pairwise fun a b => a ≠ x → b ≠ x → key a ≤ key b

/-- `k` is at least each key before `x` and at most each key behind it. -/
def Between (key : α → β) (x : α) (k : β) (l : List α) : Prop :=
  ∀ a b, l = a ++ x :: b → (∀ y ∈ a, key y ≤ k) ∧ ∀ y ∈ b, k ≤ key y

variable {key key' : α → β} {x : α} {l l' : List α}

theorem SortedBy.but (h : SortedBy key l) (x : α) : SortedBut key x l := h.imp fun hab _ _ => hab

theorem SortedBy.sublist (h : SortedBy key l) (hs : l'.Sublist l) : SortedBy key l' :=
  List.Pairwise.sublist hs h

theorem SortedBut.sublist (h : SortedBut key x l) (hs : l'.Sublist l) : SortedBut key x l' :=
  List.Pairwise.sublist hs h

theorem SortedBy.congr (h : SortedBy key l) (hk : ∀ a ∈ l, key' a = key a) : SortedBy key' l :=
  List.Pairwise.imp_of_mem (fun {a b} ha hb hab => by rw [hk a ha, hk b hb]; exact hab) h

theorem SortedBut.congr (h : SortedBut key x l) (hk : ∀ a ∈ l, a ≠ x → key' a = key a) :
    SortedBut key' x l :=
  List.Pairwise.imp_of_mem
    (fun {a b} ha hb hab hax hbx => by rw [hk a ha hax, hk b hb hbx]; exact hab hax hbx) h

theorem Between.congr {k : β} (h : Between key x k l) (hn : l.Nodup)
    (hk : ∀ a ∈ l, a ≠ x → key' a = key a) : Between key' x k l := by
  intro a b hl
  obtain ⟨ha, hb⟩ := h a b hl
  rw [hl, List.nodup_middle, List.nodup_cons, List.mem_append, not_or] at hn
  refine ⟨fun y hy => ?_, fun y hy => ?_⟩
  · rw [hk y (by rw [hl]; simp [hy]) fun he => hn.1.1 (he ▸ hy)]
    exact ha y hy
  · rw [hk y (by rw [hl]; simp [hy]) fun he => hn.1.2 (he ▸ hy)]
    exact hb y hy

theorem Between.sublist {k : β} (h : Between key x k l) (hs : l'.Sublist l) : Between key x k l' := by
  intro a b hab
  rw [hab, List.append_sublist_iff] at hs
  obtain ⟨a₁, b₁, rfl, ha, hb⟩ := hs
  rw [List.cons_sublist_iff] at hb
  obtain ⟨c, d, rfl, hc, hd⟩ := hb
  obtain ⟨c₁, c₂, rfl⟩ := List.append_of_mem hc
  obtain ⟨hbefore, hbehind⟩ := h (a₁ ++ c₁) (c₂ ++ d) (by simp)
  exact ⟨fun y hy => hbefore y (List.mem_append_left _ (ha.subset hy)),
    fun y hy => hbehind y (List.mem_append_right _ (hd.subset hy))⟩

/-- A list of one item is in any order. -/
theorem SortedBy.of_short (h : l.length ≤ 1) : SortedBy key l := by
  match l with
  | [] => exact .nil
  | [_] => exact List.pairwise_singleton _ _

theorem Between.of_short {k : β} (h : l.length ≤ 1) : Between key x k l := by
  intro a b hab
  rw [hab, List.length_append, List.length_cons] at h
  obtain rfl := List.length_eq_zero_iff.1 (show a.length = 0 by omega)
  obtain rfl := List.length_eq_zero_iff.1 (show b.length = 0 by omega)
  exact ⟨fun _ hy => (List.not_mem_nil hy).elim, fun _ hy => (List.not_mem_nil hy).elim⟩

theorem SortedBut.of_not_mem (h : SortedBut key x l) (hx : x ∉ l) : SortedBy key l :=
  List.Pairwise.imp_of_mem
    (fun {_ _} ha hb hab => hab (fun he => hx (he ▸ ha)) fun he => hx (he ▸ hb)) h

/-- **`x` gets a key** between those of its neighbours. -/
theorem SortedBut.rekey (h : SortedBut key x l) (hn : l.Nodup)
    (hk : ∀ a ∈ l, a ≠ x → key' a = key a) (hb : Between key x (key' x) l) : SortedBy key' l := by
  have h' := h.congr hk
  have hb' := hb.congr hn hk
  by_cases hx : x ∈ l
  · obtain ⟨a, b, rfl⟩ := List.append_of_mem hx
    obtain ⟨hbefore, hbehind⟩ := hb' a b rfl
    rw [List.nodup_middle, List.nodup_cons, List.mem_append, not_or] at hn
    obtain ⟨ha, hxb, hab⟩ := List.pairwise_append.1 h'
    have hb₁ := (List.pairwise_cons.1 hxb).2
    refine List.pairwise_append.2 ⟨SortedBut.of_not_mem ha hn.1.1,
      List.pairwise_cons.2 ⟨hbehind, SortedBut.of_not_mem hb₁ hn.1.2⟩, fun y hy z hz => ?_⟩
    rcases List.mem_cons.1 hz with rfl | hz
    · exact hbefore y hy
    · exact (hbefore y hy).trans (hbehind z hz)
  · exact h'.of_not_mem hx

/-- **`x` is taken out.** -/
theorem SortedBut.erase (h : SortedBut key x l) (hn : l.Nodup) {i : Nat} (hi : i < l.length)
    (hx : l[i] = x) : SortedBy key (l.eraseIdx i) := by
  have hp := (List.getElem_cons_eraseIdx_perm hi).nodup_iff.2 hn
  rw [hx, List.nodup_cons] at hp
  exact (h.sublist (List.eraseIdx_sublist l i)).of_not_mem hp.1

/-- **An item is put in.** -/
theorem SortedBy.insert (h : SortedBy key l) (x : α) :
    SortedBy key (l.orderedInsert (fun a b => key a ≤ key b) x) := by
  have : Std.Total fun a b : α => key a ≤ key b := ⟨fun a b => le_total (key a) (key b)⟩
  have : IsTrans α fun a b => key a ≤ key b := ⟨fun _ _ _ => le_trans⟩
  exact List.Pairwise.orderedInsert x l h

/-- **The first match is a least one.** -/
theorem SortedBy.first_least (h : SortedBy key l) {p : α → Bool} {i : Nat}
    (hf : l.findIdx? p = some i) :
    ∃ x, l[i]? = some x ∧ p x = true ∧ ∀ y ∈ l, p y = true → key x ≤ key y := by
  obtain ⟨hi, hp, hbefore⟩ := List.findIdx?_eq_some_iff_getElem.1 hf
  refine ⟨l[i], List.getElem?_eq_getElem hi, hp, fun y hy hpy => ?_⟩
  obtain ⟨j, hj, rfl⟩ := List.getElem_of_mem hy
  rcases Nat.lt_trichotomy j i with hlt | rfl | hlt
  · exact absurd hpy (hbefore j hlt)
  · exact le_refl _
  · exact List.pairwise_iff_getElem.1 h i j hi hj hlt

end Keyed
