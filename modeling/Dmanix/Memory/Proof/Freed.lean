import Dmanix.Memory.Proof.Alloc
import Dmanix.Memory.Proof.Contract

/-!
# `Free`

Under `FreeOk` a call of `Free` that returns makes a hole of the block and the holes next to it,
cut at the end of the smallest heap when it ends the heap, and leaves every byte of the other
allocations alone (`WF.freed`). `Laid.free_cases` names the hole before that.
-/

namespace Dmanix

open Word32 Bytes Tiling

/-! ## The merged hole -/

section
variable {s t : HeapState} {bs l r l' before after r' : List Block} {q m x n : Nat}

theorem HeadHole.holeAt (h : HeadHole r after r') (ht : AllTagged s.mem q r)
    (last : r = [] → s.holeAt q = false) :
    (if s.holeAt q then (s.header q).size else 0) = extent Block.size after := by
  rcases h.piece with rfl | ⟨k, rfl⟩
  · have hr : r = r' := h.split
    have hno : s.holeAt q = false := by
      cases r with
      | nil => exact last rfl
      | cons b r =>
        have hb := h.none rfl b (by rw [← hr]; rfl)
        have hh := (allTagged_cons.1 ht).1.header
        unfold HeapState.holeAt
        rw [show s.header q = ⟨0x1FF, b.hole, b.size⟩ from hh, hb]
        rfl
    rw [hno]
    rfl
  · rw [h.split, List.singleton_append, allTagged_cons] at ht
    have hh : s.header q = ⟨0x1FF, true, k⟩ := ht.1.header
    unfold HeapState.holeAt
    rw [hh]
    simp

theorem Laid.merged_eq (h : Laid s (l ++ ⟨false, m⟩ :: r))
    (hq : q = s.startAddress + extent Block.size l)
    (first : l = [] → (s.storeHeaderHole q true).holeBefore q = none)
    (last : r = [] → s.holeAt (q + m) = false) (hl : EndHole l l' before) (hr : HeadHole r after r')
    (hx : x = s.startAddress + extent Block.size l')
    (hn : n = extent Block.size (before ++ ⟨false, m⟩ :: after)) : s.merged (q + 4) = (x, n) := by
  have hlow := h.low
  have htop := h.top
  have hf := h.fills
  have htags := h.tags
  rw [allTagged_append, allTagged_cons, ← hq] at htags
  rw [extent_append, extent_cons] at hf
  simp only at hf htags
  obtain ⟨htl, ht, htr⟩ := htags
  have hm : (s.header q).size = m := congrArg Header.size ht.header
  have hright := hr.holeAt htr last
  have hoff : Off q (q + 4) s.mem (s.storeHeaderHole q true).mem := off_setHeader _ _ _
  obtain ⟨l₁, before₁, x₁, hl₁, hx₁, hcase⟩ := htl.holeBefore_cases hq hlow (by omega) hoff first
  obtain ⟨rfl, rfl⟩ := hl.unique hl₁
  unfold HeapState.merged
  rw [Nat.add_sub_cancel]
  simp only [hm, hright]
  rw [hn, extent_append, extent_cons]
  rcases hcase with ⟨rfl, hnone⟩ | ⟨k, rfl, hsome⟩
  · have hll : l = l' := by simpa using hl.split
    rw [hnone, hx, hq, hll]
    simp
  · have htk : Tagged s.mem x ⟨true, k⟩ := by
      rw [hl.split, allTagged_append, allTagged_single, ← hx] at htl
      exact htl.2
    have hxs : (s.header x).size = k := congrArg Header.size htk.header
    rw [hsome, show x₁ = x from hx₁.trans hx.symm]
    simp only [hxs, extent_cons, extent_nil]
    rw [Prod.mk.injEq]
    exact ⟨rfl, by omega⟩

/-- **The merged hole** of a `Free(q + 4)` in the heap of the blocks `l`, one of `m` bytes at `q`, and
`r`: `n` bytes at `x`, with the tags of one hole in `v`, and `idx` the index without the hole above. -/
structure Merging (s : HeapState) (l r : List Block) (q m : Nat) (l' before after r' : List Block)
    (x n : Nat) (v : HeapState) (idx : OrderedArray Nat) : Prop where
  left : EndHole l l' before
  right : HeadHole r after r'
  addr : x = s.startAddress + extent Block.size l'
  size : n = extent Block.size (before ++ ⟨false, m⟩ :: after)
  merged : s.merged (q + 4) = (x, n)
  joined : Joined s v x n
  index : idx.items.Perm (holes s.startAddress l' ++
    ((if before = [] then [] else [x]) ++ holes (x + n) r'))
  sub : idx.items.Sublist s.index.items
  capacity : idx.capacity = s.index.capacity
  smaller : idx.size ≤ s.index.size
  fits : n < 4194304 → HeapState.Fits s v
  touches : l ≠ [] → r ≠ [] → HeapState.Touches Touch.Inside s v

/-- **`Free`** merges, then shrinks the heap when the merged hole ends it, then enters the hole. -/
theorem Laid.free_cases (h : Laid s (l ++ ⟨false, m⟩ :: r))
    (hq : q = s.startAddress + extent Block.size l)
    (first : l = [] → (s.storeHeaderHole q true).holeBefore q = none)
    (hf : s.free (q + 4) = .ok t) :
    ∃ l' before after r' x n v idx, Merging s l r q m l' before after r' x n v idx ∧
      ((x + n ≠ s.endAddress ∧ (if before.isEmpty then
          ({ v with index := idx } : HeapState).indexInsert x
        else .ok { v with index := idx }) = .ok t) ∨
      (x + n = s.endAddress ∧ r' = [] ∧ ∃ w, ({ v with index := idx } : HeapState).shrink x (q + m) =
        .ok w ∧ (if before.isEmpty then w.indexInsert x else .ok w) = .ok t)) := by
  have hlow := h.low
  have htop := h.top
  have hfills := h.fills
  have h8 : 8 ≤ m := h.tags.pos ⟨false, m⟩ (by simp)
  -- `coalesce` returned, so the word at `end_address` was no hole
  obtain ⟨res, hc⟩ : ∃ res, s.coalesce (q + 4) = .ok res := by
    unfold HeapState.free at hf
    rw [if_neg (by omega)] at hf
    obtain ⟨res, hc, -⟩ := bind_ok.1 hf
    exact ⟨res, hc⟩
  have last := h.coalesce_last hq first hc
  obtain ⟨l', before, after, r', x, n, v, idx, hl, hr, hx, hn, hj, hi, hsub, hcap, hsize, hfits,
    hreach, hco⟩ := h.coalesce_ok hq first last
  have hm := h.merged_eq hq first last hl hr hx hn
  have hve : v.endAddress = s.endAddress := (congrArg Heap.endAddress hj.heap :)
  have hext : x + n + extent Block.size r' = s.endAddress := by
    rw [hx, hn, ← hfills, hl.split, hr.split]
    simp only [extent_append, extent_cons]
    omega
  have hn8 : 8 ≤ n := by
    rw [hn, extent_append, extent_cons]
    simp only
    omega
  have hadd : add32 (x + n - 4) 4 = x + n := by
    rw [add32_eq (by omega)]
    omega
  refine ⟨l', before, after, r', x, n, v, idx, ⟨hl, hr, hx, hn, hm, hj, hi, hsub, hcap, hsize, hfits,
    hreach⟩, ?_⟩
  by_cases he : x + n = s.endAddress
  · have hr' : r' = [] := by
      cases r' with
      | nil => rfl
      | cons b r' =>
        have hb := h.tags.pos b (by rw [hr.split]; simp)
        rw [extent_cons] at hext
        omega
    exact .inr ⟨he, hr', HeapState.free_shrink (by omega) hco (by rw [hadd, he]; exact hve.symm) hf⟩
  · refine .inl ⟨he, ?_⟩
    rw [HeapState.free_keep (by omega) hco (by rw [hadd]; exact fun h => he (h.trans hve))] at hf
    exact hf

/-! ## The blocks afterwards -/

theorem Merging.blocks {v : HeapState} {idx : OrderedArray Nat}
    (hM : Merging s l r q m l' before after r' x n v idx) :
    l ++ ⟨false, m⟩ :: r = l' ++ ((before ++ ⟨false, m⟩ :: after) ++ r') := by
  rw [hM.left.split, hM.right.split]
  simp

theorem Merging.freed {v : HeapState} {idx : OrderedArray Nat} {k : Nat}
    (hM : Merging s l r q m l' before after r' x n v idx)
    (hq : q = s.startAddress + extent Block.size l) (hk : k = n ∨ r' = []) :
    (allocs s.startAddress (l ++ ⟨false, m⟩ :: r)).Perm
      ((q, m) :: allocs s.startAddress (l' ++ ⟨true, k⟩ :: r')) := by
  have hxq : q = x + extent Block.size before := by
    rw [hq, hM.left.split, extent_append, hM.addr]
    omega
  have hlast : allocs (q + m) r = allocs (x + k) r' := by
    rw [hM.right.split, allocs_append, hM.right.piece.allocs, List.nil_append]
    rcases hk with rfl | rfl
    · rw [hM.size, extent_append, extent_cons, hxq]
      simp only [Nat.add_assoc]
    · rfl
  rw [allocs_append, allocs_cons, allocs_append, allocs_cons, ← hq, ← hM.addr, hlast,
    hM.left.split, allocs_append, hM.left.piece.allocs]
  simp only [Bool.false_eq_true, if_false, if_true, List.nil_append, List.append_nil,
    List.singleton_append]
  exact List.perm_middle

/-- `t` is `s` with the block of `m` bytes at `q` freed. -/
structure Freed (s t : HeapState) (bs bs' : List Block) (q m : Nat) : Prop where
  wf : WF t bs'
  start : t.startAddress = s.startAddress
  max : t.maxAddress = s.maxAddress
  shrinks : t.endAddress ≤ s.endAddress
  off : Off s.startAddress s.endAddress s.mem t.mem
  block : (allocs s.startAddress bs).Perm ((q, m) :: allocs t.startAddress bs')
  same : SameOn (allocs t.startAddress bs') s.mem t.mem

theorem HeapState.shrink_fits {u w : HeapState} {e : Nat} (hx : u.startAddress ≤ x)
    (hmin : x + 8 ≤ u.startAddress + 0x70000) (hle : u.startAddress + 0x70000 ≤ u.endAddress)
    (hend : x + n = u.endAddress) (htop : u.endAddress < 4294967296) (h22 : n < 4194304)
    (hh : u.header x = ⟨0x1FF, true, n % 4194304⟩) (h : u.shrink x e = .ok w) : Fits u w := by
  rw [shrink_eq hx hmin hle hend htop (congrArg Header.size hh)] at h
  obtain ⟨P, -, h⟩ := bind_ok.1 h
  cases h
  have hv : sub32 (n % 4194304) (u.endAddress - u.startAddress - 0x70000) < 4194304 := by
    rw [Nat.mod_eq_of_lt h22, sub32_eq (by omega) (by omega)]
    omega
  unfold shrunk
  have h1 : Fits u ((u.moveEnd P (u.startAddress + 0x70000)).touch x) := .of_eq rfl
  exact (h1.trans (storeHeaderSize_fits hv)).trans (sealFooter_fits _ _)

theorem HeapState.entered_fits {u t : HeapState} {doAdd : Bool}
    (h : (if doAdd then u.indexInsert x else .ok u) = .ok t) : Fits u t := by
  cases doAdd with
  | false =>
    cases h
    exact .refl _
  | true => exact indexInsert_fits h

/-- **`Free`.** A call that returns makes a hole of the block. -/
theorem WF.freed (h : WF s bs) (hq : (q, m) ∈ allocs s.startAddress bs)
    (hok : s.FreeOk (q + 4)) (hf : s.free (q + 4) = .ok t) : ∃ bs', Freed s t bs bs' q m := by
  obtain ⟨l, r, rfl, hql⟩ := mem_place_iff.1 (mem_allocs.1 hq)
  obtain ⟨hfirst, hfits, hshrinks⟩ := hok
  rw [Nat.add_sub_cancel] at hfirst
  obtain ⟨l', before, after, r', x, n, v, idx, hM, hcase⟩ := h.laid.free_cases hql
    (fun hl => hfirst (by rw [hql, hl]; rfl)) hf
  rw [hM.merged] at hfits hshrinks
  have hlaid := h.laid
  rw [hM.blocks] at hlaid
  have hend : x + n ≤ s.endAddress := by
    have hf := hlaid.fills
    have hM2 := hM.size
    have hM3 := hM.addr
    rw [extent_append, extent_append] at hf
    omega
  have hsv := hM.fits hfits
  have hx := hM.addr
  have hpage := h.startPage
  rcases hcase with ⟨-, ht⟩ | ⟨he, rfl, w, hw, ht⟩
  · obtain ⟨ht', hE⟩ := hlaid.hole_laid hM.left.piece hx hM.size hfits hM.joined hM.index hM.capacity
      hM.smaller ht
    have hst : t.startAddress = s.startAddress := (congrArg Heap.startAddress hE.heap :)
    have hen : t.endAddress = s.endAddress := (congrArg Heap.endAddress hE.heap :)
    refine ⟨_, ⟨⟨ht'.tags, ht'.fills, ht'.top, ht'.low, ?_, ?_, ?_, ht'.slots, ?_, fun w hw => ?_⟩,
      ht'.index⟩, hst, (congrArg Heap.maxAddress hE.heap :), hen.le,
      hE.off.mono (by omega) (by omega), ?_, ?_⟩
    · rw [hst, hen]
      exact h.room
    · rw [hst]
      exact hpage
    · rw [hen]
      exact h.endPage
    · rw [hE.capacity]
      exact h.capacity
    · exact (hE.stored w hw).elim (fun hv => (hsv w hv).elim (h.stored w) id) id
    · rw [hst]
      exact hM.freed hql (.inl rfl)
    · rw [hst, allocs_append, allocs_cons, ← hx]
      simp only [if_true, List.nil_append]
      exact .append (.of_off hE.off (.inl hx.symm.le)) (.of_off hE.off (.inr (Nat.le_refl _)))
  · obtain ⟨hmin, hle⟩ := hshrinks he
    rw [List.append_nil] at hlaid
    have hi := hM.index
    rw [holes_nil, List.append_nil] at hi
    obtain ⟨ht', hC⟩ := hlaid.shrunk_laid hM.left.piece hx he hmin hle hM.joined hi hM.capacity
      hM.smaller hw ht
    have hst : t.startAddress = s.startAddress := (congrArg Heap.startAddress hC.heap :)
    have hte : t.endAddress = s.startAddress + 0x70000 := (congrArg Heap.endAddress hC.heap :)
    have hust : v.startAddress = s.startAddress := (congrArg Heap.startAddress hM.joined.heap :)
    have huend : v.endAddress = s.endAddress := (congrArg Heap.endAddress hM.joined.heap :)
    have htop := h.top
    have hvw : HeapState.Fits v w := HeapState.shrink_fits (u := { v with index := idx }) (x := x)
      (n := n) (by show v.startAddress ≤ x; omega) (by show x + 8 ≤ v.startAddress + _; omega)
      (by show v.startAddress + _ ≤ v.endAddress; omega) (by show x + n = v.endAddress; omega)
      (by show v.endAddress < _; omega) hfits hM.joined.header hw
    have hall : HeapState.Fits s t := (hsv.trans hvw).trans (HeapState.entered_fits ht)
    refine ⟨_, ⟨⟨ht'.tags, ht'.fills, ht'.top, ht'.low, by omega, by omega, by omega, ht'.slots, ?_,
      fun w hw => ?_⟩, ht'.index⟩, hst, (congrArg Heap.maxAddress hC.heap :), by omega,
      hC.off.mono (by omega) (Nat.le_refl _), ?_, ?_⟩
    · rw [hC.capacity]
      exact h.capacity
    · exact (hall w hw).elim (h.stored w) id
    · rw [hst]
      exact hM.freed hql (.inr rfl)
    · rw [hst, allocs_append, allocs_cons]
      simp only [if_true, allocs_nil, List.append_nil]
      exact .of_off hC.off (.inl hx.symm.le)

end

end Dmanix
