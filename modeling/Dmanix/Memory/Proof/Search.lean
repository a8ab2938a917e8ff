import Dmanix.Memory.Proof.Layout

/-!
# Finding a hole

`FindSmallestHole` returns the first index entry that fits (`findSmallestHole_some`), where a hole
at `h` fits `size` bytes when it has `size` plus `gapOffset` bytes (`fits_iff`). `lastHole` is the
hole with the highest address (`lastHole_some`), and in a heap whose highest hole ends at
`end_address` that hole is the last block (`Laid.last_hole`).
-/

namespace Dmanix

open Word32 Bytes Tiling

namespace HeapState

theorem fits_iff {s : HeapState} {size h : Nat} {pageAlign : Bool} (hlo : 4096 ≤ h)
    (hhi : h + 4 < 4294967296) (hs : size < 2147483648) :
    s.fits size pageAlign h = true ↔ size + gapOffset pageAlign h ≤ (s.header h).size := by
  unfold fits gapOffset
  cases pageAlign with
  | false => simp
  | true =>
    have hm := Nat.mod_lt (h + 4) (show 4096 > 0 by decide)
    simp only [if_true, add32_eq hhi, pageBits_eq hhi, int32, if_pos hs]
    rw [if_pos (by omega)]
    simp only [decide_eq_true_eq]
    omega

theorem findSmallestHole_some {s : HeapState} {size i : Nat} {pageAlign : Bool} :
    s.findSmallestHole size pageAlign = some i ↔ ∃ hi : i < s.index.items.length,
      s.fits size pageAlign s.index.items[i] = true ∧
        ∀ j (hj : j < i),
          ¬ s.fits size pageAlign (s.index.items.get ⟨j, Nat.lt_trans hj hi⟩) = true :=
  List.findIdx?_eq_some_iff_getElem

theorem findSmallestHole_none {s : HeapState} {size : Nat} {pageAlign : Bool} :
    s.findSmallestHole size pageAlign = none ↔
      ∀ h ∈ s.index.items, ¬ s.fits size pageAlign h = true := by
  unfold findSmallestHole
  simp only [List.findIdx?_eq_none_iff, Bool.not_eq_true]

/-- The scan for the highest address, from any best so far. -/
theorem lastHole_foldl : ∀ (l : List Nat) (best : Option Nat),
    (∀ h, l.foldl (fun best tmp => if tmp > best.getD 0 then some tmp else best) best = some h →
      (h ∈ l ∨ best = some h) ∧ best.getD 0 ≤ h ∧ ∀ x ∈ l, x ≤ h) ∧
    (l.foldl (fun best tmp => if tmp > best.getD 0 then some tmp else best) best = none →
      best = none ∧ ∀ x ∈ l, x = 0)
  | [], best => by
    refine ⟨fun h hb => ?_, fun hb => ⟨hb, by simp⟩⟩
    rw [List.foldl_nil] at hb
    subst hb
    simp
  | y :: l, best => by
    rw [List.foldl_cons]
    obtain ⟨h1, h2⟩ := lastHole_foldl l (if y > best.getD 0 then some y else best)
    refine ⟨fun h hb => ?_, fun hb => ?_⟩
    · obtain ⟨hm, hle, hall⟩ := h1 h hb
      by_cases hy : y > best.getD 0
      · rw [if_pos hy] at hm hle
        simp only [Option.getD_some] at hle
        refine ⟨?_, by omega, fun x hx => ?_⟩
        · rcases hm with hm | hm
          · exact .inl (List.mem_cons_of_mem _ hm)
          · cases hm
            exact .inl List.mem_cons_self
        · rcases List.mem_cons.1 hx with rfl | hx
          · exact hle
          · exact hall x hx
      · rw [if_neg hy] at hm hle
        refine ⟨hm.imp_left (List.mem_cons_of_mem _), hle, fun x hx => ?_⟩
        rcases List.mem_cons.1 hx with rfl | hx
        · omega
        · exact hall x hx
    · obtain ⟨hn, hall⟩ := h2 hb
      by_cases hy : y > best.getD 0
      · rw [if_pos hy] at hn
        cases hn
      · rw [if_neg hy] at hn
        subst hn
        refine ⟨rfl, fun x hx => ?_⟩
        rcases List.mem_cons.1 hx with rfl | hx
        · simpa using hy
        · exact hall x hx

theorem lastHole_some {s : HeapState} {h : Nat} (hl : s.lastHole = some h) :
    h ∈ s.index.items ∧ ∀ x ∈ s.index.items, x ≤ h := by
  obtain ⟨hm, -, hall⟩ := (lastHole_foldl s.index.items none).1 h hl
  exact ⟨hm.resolve_right (by simp), hall⟩

theorem lastHole_none {s : HeapState} (hl : s.lastHole = none) (hpos : ∀ x ∈ s.index.items, 0 < x) :
    s.index.items = [] := by
  refine List.eq_nil_iff_forall_not_mem.2 fun x hx => ?_
  have := ((lastHole_foldl s.index.items none).2 hl).2 x hx
  have := hpos x hx
  omega

end HeapState

/-! ## Holes of a heap -/

section
variable {s : HeapState} {bs : List Block} (h : Laid s bs)
include h

/-- An index entry is the header of a hole block. -/
theorem Laid.hole_mem {x : Nat} (hx : x ∈ s.index.items) :
    ∃ n, (x, ⟨true, n⟩) ∈ place Block.size s.startAddress bs :=
  mem_holes.1 (h.index.mem_iff.1 hx)

theorem Laid.hole_split {x : Nat} (hx : x ∈ s.index.items) : ∃ l r n, bs = l ++ ⟨true, n⟩ :: r ∧
    x = s.startAddress + extent Block.size l ∧ Tagged s.mem x ⟨true, n⟩ := by
  obtain ⟨n, hn⟩ := h.hole_mem hx
  obtain ⟨l, r, hb, hxe⟩ := mem_place_iff.1 hn
  exact ⟨l, r, n, hb, hxe, h.tags _ hn⟩

/-- Index entries are addresses inside the heap, with room for a block. -/
theorem Laid.hole_bounds {x : Nat} (hx : x ∈ s.index.items) : 4096 ≤ x ∧ s.startAddress ≤ x ∧
    8 ≤ (header s.mem x).size ∧ x + (header s.mem x).size ≤ s.endAddress := by
  obtain ⟨n, hn⟩ := h.hole_mem hx
  obtain ⟨h1, h2⟩ := place_bounds hn
  have ht := h.tags _ hn
  have h8 := ht.least
  have hl := h.low
  have hf := h.fills
  rw [ht.header]
  simp only at h1 h2 h8 ⊢
  omega

theorem Laid.hole_apart {x y : Nat} (hx : x ∈ s.index.items) (hy : y ∈ s.index.items) (hxy : x < y) :
    x + (header s.mem x).size ≤ y := by
  obtain ⟨n, hn⟩ := h.hole_mem hx
  obtain ⟨m, hm⟩ := h.hole_mem hy
  rw [(h.tags _ hn).header]
  rcases place_apart hn hm with he | he | he
  · cases he
    omega
  · exact he
  · simp only at he ⊢
    omega

theorem Laid.fits_iff {size x : Nat} {pageAlign : Bool} (hx : x ∈ s.index.items)
    (hs : size < 2147483648) :
    s.fits size pageAlign x = true ↔ size + gapOffset pageAlign x ≤ (header s.mem x).size := by
  have hb := h.hole_bounds hx
  have ht := h.top
  exact HeapState.fits_iff hb.1 (by omega) hs

/-- The highest hole, when it ends at `end_address`, is the last block. -/
theorem Laid.last_hole {x : Nat} (hx : x ∈ s.index.items)
    (he : x + (header s.mem x).size = s.endAddress) :
    ∃ l, bs = l ++ [⟨true, (header s.mem x).size⟩] ∧ x = s.startAddress + extent Block.size l := by
  obtain ⟨l, r, n, rfl, rfl, ht⟩ := h.hole_split hx
  have hf := h.fills
  rw [ht.header] at he ⊢
  simp only [extent_append, extent_cons] at hf he
  have hr : r = [] := by
    cases r with
    | nil => rfl
    | cons b r =>
      have h8 := h.tags.pos b (by simp)
      simp only [extent_cons] at hf
      omega
  exact ⟨l, by rw [hr], rfl⟩

end

end Dmanix
