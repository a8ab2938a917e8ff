import Mathlib.Algebra.GroupWithZero.Nat
import Mathlib.Data.List.Basic
import Mathlib.Data.List.Pairwise

/-!
# Cells laid end to end

`place len a bs` lays the cells `bs` of lengths `len` end to end from address `a` and lists each
with its address; `extent len bs` is their total length. A cell of the middle of a list lies
between the two halves (`mem_place_iff`), placed cells lie in the region (`place_bounds`) and do
not overlap (`place_pairwise`), and a list is edited in the middle by editing one summand of
`place_append`.
-/

namespace Tiling

variable {β : Type} (len : β → Nat)

/-- The cells with their addresses. -/
def place : Nat → List β → List (Nat × β)
  | _, [] => []
  | a, b :: bs => (a, b) :: place (a + len b) bs

/-- The total length. -/
def extent (bs : List β) : Nat := (bs.map len).sum

@[simp] theorem extent_nil : extent len [] = 0 := rfl

@[simp] theorem extent_cons (b : β) (bs : List β) : extent len (b :: bs) = len b + extent len bs := by
  simp [extent]

@[simp] theorem extent_append (l r : List β) : extent len (l ++ r) = extent len l + extent len r := by
  simp [extent]

@[simp] theorem place_nil (a : Nat) : place len a [] = [] := rfl

@[simp] theorem place_cons (a : Nat) (b : β) (bs : List β) :
    place len a (b :: bs) = (a, b) :: place len (a + len b) bs := rfl

theorem place_append : ∀ (a : Nat) (l r : List β),
    place len a (l ++ r) = place len a l ++ place len (a + extent len l) r
  | a, [], r => by simp
  | a, b :: l, r => by
    simp only [List.cons_append, place_cons, extent_cons, List.cons.injEq, true_and]
    rw [place_append (a + len b) l r, Nat.add_assoc]

variable {len}

@[simp] theorem length_place : ∀ (a : Nat) (bs : List β), (place len a bs).length = bs.length
  | _, [] => rfl
  | a, b :: bs => by rw [place_cons, List.length_cons, List.length_cons, length_place]

theorem mem_place_iff {a x : Nat} {b : β} : ∀ {bs : List β},
    (x, b) ∈ place len a bs ↔ ∃ l r, bs = l ++ b :: r ∧ x = a + extent len l := by
  intro bs
  constructor
  · intro h
    induction bs generalizing a with
    | nil => simp at h
    | cons c bs ih =>
      rw [place_cons, List.mem_cons, Prod.mk.injEq] at h
      rcases h with ⟨rfl, rfl⟩ | h
      · exact ⟨[], bs, rfl, by simp⟩
      · obtain ⟨l, r, rfl, rfl⟩ := ih h
        exact ⟨c :: l, r, rfl, by simp; omega⟩
  · rintro ⟨l, r, rfl, rfl⟩
    rw [place_append]
    simp

theorem place_bounds {a x : Nat} {b : β} {bs : List β} (h : (x, b) ∈ place len a bs) :
    a ≤ x ∧ x + len b ≤ a + extent len bs := by
  obtain ⟨l, r, rfl, rfl⟩ := mem_place_iff.1 h
  simp only [extent_append, extent_cons]
  omega

/-- **Placed cells do not overlap.** -/
theorem place_pairwise (len : β → Nat) (a : Nat) : ∀ bs : List β,
    (place len a bs).Pairwise fun p q => p.1 + len p.2 ≤ q.1
  | [] => .nil
  | b :: bs => by
    rw [place_cons, List.pairwise_cons]
    exact ⟨fun q hq => (place_bounds hq).1, place_pairwise len (a + len b) bs⟩

/-- Two placed cells are the same cell or one ends before the other starts. -/
theorem place_apart {a : Nat} {bs : List β} {p q : Nat × β} (hp : p ∈ place len a bs)
    (hq : q ∈ place len a bs) : p = q ∨ p.1 + len p.2 ≤ q.1 ∨ q.1 + len q.2 ≤ p.1 := by
  have h := place_pairwise len a bs
  generalize place len a bs = L at hp hq h
  induction L with
  | nil => simp at hp
  | cons c L ih =>
    rw [List.pairwise_cons] at h
    rcases List.mem_cons.1 hp with ep | hp' <;> rcases List.mem_cons.1 hq with eq | hq'
    · exact .inl (ep.trans eq.symm)
    · exact .inr (.inl (ep ▸ h.1 q hq'))
    · exact .inr (.inr (eq ▸ h.1 p hp'))
    · exact ih hp' hq' h.2

/-- Cells of positive length placed at one address are the same cell. -/
theorem place_inj {a x : Nat} {b c : β} {bs : List β} (hpos : ∀ b ∈ bs, 0 < len b)
    (hb : (x, b) ∈ place len a bs) (hc : (x, c) ∈ place len a bs) : b = c := by
  have hm : ∀ d, (x, d) ∈ place len a bs → 0 < len d := fun d hd => by
    obtain ⟨l, r, rfl, -⟩ := mem_place_iff.1 hd
    exact hpos d (by simp)
  rcases place_apart hb hc with h | h | h
  · simpa using h
  · have := hm b hb; simp only at h; omega
  · have := hm c hc; simp only at h; omega

/-- A list of cells of positive length is cut at an address in one way. -/
theorem extent_inj : ∀ {l l' r r' : List β}, l ++ r = l' ++ r' → extent len l = extent len l' →
    (∀ b ∈ l ++ r, 0 < len b) → l = l' ∧ r = r'
  | [], [], _, _, h, _, _ => ⟨rfl, h⟩
  | [], c :: l', r, r', h, he, hpos => by
    have := hpos c (by rw [h]; exact List.mem_cons_self)
    rw [extent_nil, extent_cons] at he
    omega
  | b :: l, [], r, r', h, he, hpos => by
    have := hpos b List.mem_cons_self
    rw [extent_nil, extent_cons] at he
    omega
  | b :: l, c :: l', r, r', h, he, hpos => by
    rw [List.cons_append, List.cons_append, List.cons.injEq] at h
    obtain ⟨rfl, h⟩ := h
    rw [extent_cons, extent_cons] at he
    obtain ⟨rfl, rfl⟩ := extent_inj h (by omega) fun d hd => hpos d (List.mem_cons_of_mem _ hd)
    exact ⟨rfl, rfl⟩

/-- The addresses of cells of positive length are distinct. -/
theorem place_nodup {a : Nat} {bs : List β} (hpos : ∀ b ∈ bs, 0 < len b) :
    ((place len a bs).map Prod.fst).Nodup := by
  induction bs generalizing a with
  | nil => simp
  | cons b bs ih =>
    rw [place_cons, List.map_cons, List.nodup_cons]
    refine ⟨fun hm => ?_, ih fun c hc => hpos c (List.mem_cons_of_mem _ hc)⟩
    obtain ⟨⟨x, c⟩, hc, rfl⟩ := List.mem_map.1 hm
    have := (place_bounds hc).1
    have := hpos b List.mem_cons_self
    omega

theorem mem_of_mem_place {a x : Nat} {b : β} {bs : List β} (h : (x, b) ∈ place len a bs) : b ∈ bs := by
  obtain ⟨l, r, rfl, -⟩ := mem_place_iff.1 h
  simp

end Tiling
