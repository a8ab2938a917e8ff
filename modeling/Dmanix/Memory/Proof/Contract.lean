import Dmanix.Memory.Proof.Free
import Dmanix.Memory.Proof.FromHole

/-!
# Contraction

A `Free` whose merged hole ends at `end_address` calls `Contract` with the hole's offset in the heap.
`Contract` looks at bit 12 of the offset alone and then takes the larger of what is left and 448 KiB
(`contractSize_cases`), so the new end is the smallest heap's or the hole's own header.
`Laid.contracted_iff`: the heap is laid out again exactly when the hole starts at least a block below
the end of the smallest heap, the heap is no smaller, and no hole is read below its start.
-/

namespace Dmanix

open Word32 Bytes Tiling

theorem HeapState.contractSize_cases (n : Nat) : contractSize n = 0x70000 ∨
    (contractSize n = n ∧ 0x70000 ≤ n) := by
  have h12 : n &&& 0x1000 ≤ 0x1000 := Nat.and_le_right
  unfold contractSize
  dsimp only
  by_cases h : n &&& 0x1000 ≠ 0
  · rw [if_pos h, if_pos (by rw [add32_eq (by omega)]; omega)]
    exact .inl rfl
  · rw [if_neg h]
    split
    · exact .inl rfl
    · exact .inr ⟨rfl, by omega⟩

/-! ## What the calls leave -/

/-- `idx` is the index `old`, perhaps without the entry `y`. -/
structure Kept (old idx : OrderedArray Nat) (y : Nat) : Prop where
  sub : ∀ z ∈ idx.items, z ∈ old.items
  keeps : ∀ z ∈ old.items, z ≠ y → z ∈ idx.items
  size : idx.size ≤ old.size
  capacity : idx.capacity = old.capacity

theorem Kept.refl (idx : OrderedArray Nat) (y : Nat) : Kept idx idx y :=
  ⟨fun _ h => h, fun _ h _ => h, Nat.le_refl _, rfl⟩

theorem Kept.trans {a b c : OrderedArray Nat} {y : Nat} (h : Kept a b y) (h' : Kept b c y) :
    Kept a c y :=
  ⟨fun z hz => h.sub z (h'.sub z hz), fun z hz hne => h'.keeps z (h.keeps z hz hne) hne,
    h'.size.trans h.size, h'.capacity.trans h.capacity⟩

theorem Kept.removed {old idx : OrderedArray Nat} {y : Nat} (hp : old.items.Perm (y :: idx.items))
    (hc : idx.capacity = old.capacity) (hs : idx.size = old.size - 1) : Kept old idx y := by
  refine ⟨fun z hz => hp.mem_iff.2 (List.mem_cons_of_mem _ hz), fun z hz hne => ?_,
    hs.le.trans (Nat.sub_le _ _), hc⟩
  exact (List.mem_cons.1 (hp.mem_iff.1 hz)).resolve_left hne

namespace HeapState

variable {s u v t : HeapState} {p q m x f right : Nat} {doAdd : Bool}

/-- **`coalesce`, whatever it read below the block**: the hole of `holeBefore` takes the block, and the
index loses at most the hole above. -/
theorem coalesce_inv (ht : Tagged s.mem q ⟨false, m⟩) (hb : q + m < 4294967296)
    (hs : s.index.size < s.index.capacity) (hcap : s.index.capacity ≤ 0x20000)
    (hc : s.coalesce (q + 4) = .ok (u, x, f, right, doAdd)) :
    right = q + m ∧ u.toHeap = { s.toHeap with index := u.index } ∧ Kept s.index u.index (q + m) ∧
      (((s.storeHeaderHole q true).holeBefore q = none ∧ x = q ∧ doAdd = true) ∨
        ((s.storeHeaderHole q true).holeBefore q = some x ∧ doAdd = false)) := by
  have h8 := ht.least
  simp only at h8
  rw [coalesce_tagged ht hb] at hc
  have hy : add32 (q + m - 4) 4 = q + m := by
    rw [add32_eq (by omega)]
    omega
  have hbefore : (s.marked q (q + m - 4)).holeBefore q = (s.storeHeaderHole q true).holeBefore q :=
    holeBefore_congr rfl
  have hmark : (s.marked q (q + m - 4)).toHeap = s.toHeap := rfl
  -- the left merge keeps the heap object
  obtain ⟨w, y, d, hleft, hw, hd⟩ : ∃ (w : HeapState) (y : Nat) (d : Bool),
      (s.marked q (q + m - 4)).coalesceLeft q (q + m - 4) = (w, y, d) ∧ w.toHeap = s.toHeap ∧
      (((s.storeHeaderHole q true).holeBefore q = none ∧ y = q ∧ d = true) ∨
        ((s.storeHeaderHole q true).holeBefore q = some y ∧ d = false)) := by
    cases hh : (s.storeHeaderHole q true).holeBefore q with
    | none =>
      refine ⟨_, q, true, coalesceLeft_none (hbefore.trans hh), ?_, .inl ⟨rfl, rfl, rfl⟩⟩
      split <;> simp [hmark]
    | some y =>
      exact ⟨_, y, false, coalesceLeft_some (hbefore.trans hh), by simp [hmark], .inr ⟨rfl, rfl⟩⟩
  rw [hleft] at hc
  dsimp only at hc
  obtain ⟨r, hr, hc⟩ := bind_ok.1 hc
  cases hc
  cases hat : w.holeAt (q + m) with
  | false =>
    rw [coalesceRight_none hy hat] at hr
    cases hr
    refine ⟨rfl, ?_, ?_, hd⟩
    · rw [toHeap_touch, hw]
    · rw [toHeap_touch, hw]
      exact .refl _ _
  | true =>
    have hmem := coalesceRight_mem hy hat hr
    obtain ⟨idx, hright, hp, -, hcp, hsz⟩ := coalesceRight_removed (x := x) hy hat hmem
      (by rw [hw]; exact hs) (by rw [hw]; exact hcap)
    rw [hright] at hr
    cases hr
    rw [hw] at hp hcp hsz
    refine ⟨rfl, ?_, .removed hp hcp hsz, hd⟩
    show ({ ((w.touch (q + m)).mergeRight x (q + m)).1.toHeap with index := idx } : Heap) = _
    rw [toHeap_mergeRight, toHeap_touch, hw]

theorem free_shrink (hp : p ≠ 0) (hc : s.coalesce p = .ok (u, x, f, right, doAdd))
    (he : add32 f 4 = u.endAddress) (hf : s.free p = .ok t) :
    ∃ v, u.shrink x right = .ok v ∧ (if doAdd then v.indexInsert x else .ok v) = .ok t := by
  unfold free at hf
  rw [if_neg hp, hc] at hf
  simp only [ok_bind] at hf
  rw [if_pos he] at hf
  obtain ⟨v, hv, hf⟩ := bind_ok.1 hf
  exact ⟨v, hv, hf⟩

theorem contract_ok {n k : Nat} (h : u.contract n = .ok (k, v)) :
    k = contractSize n ∧ ∃ P, v = u.moveEnd P (add32 u.startAddress k) := by
  unfold contract at h
  obtain ⟨_, -, h⟩ := bind_ok.1 h
  obtain ⟨P, -, h⟩ := bind_ok.1 h
  cases h
  exact ⟨rfl, P, rfl⟩

theorem shrink_inv (hs : u.index.size < u.index.capacity) (hcap : u.index.capacity ≤ 0x20000)
    (h : u.shrink x right = .ok v) : v.startAddress = u.startAddress ∧
      v.endAddress = add32 u.startAddress (contractSize (sub32 x u.startAddress)) ∧
      Kept u.index v.index right := by
  unfold shrink at h
  obtain ⟨⟨k, w⟩, hw, h⟩ := bind_ok.1 h
  obtain ⟨rfl, P, rfl⟩ := contract_ok hw
  dsimp only at h
  split at h
  · cases h
    exact ⟨rfl, rfl, .refl _ _⟩
  · split at h
    · rename_i hlt
      have hmem : right ∈ u.index.items := by
        have hlt' : u.index.items.findIdx (· == right) < u.index.items.length := by
          rw [OrderedArray.length_items]
          exact hlt
        obtain ⟨z, hz, hzy⟩ := List.findIdx_lt_length.1 hlt'
        rw [beq_iff_eq] at hzy
        exact hzy ▸ hz
      obtain ⟨-, idx, hrem, hp, -, hc, hsz⟩ := remove_entry (s := (u.moveEnd P
        (add32 u.startAddress (contractSize (sub32 x u.startAddress)))).touch x) hmem hs hcap
      rw [show ((u.moveEnd P (add32 u.startAddress
        (contractSize (sub32 x u.startAddress)))).touch x).indexRemove _ = _ from hrem] at h
      cases h
      exact ⟨rfl, rfl, .removed hp hc hsz⟩
    · cases h
      exact ⟨rfl, rfl, .refl _ _⟩

end HeapState

/-- **`t` is `s` after the block of `m` bytes under `p` was freed and the merged hole at `x`
contracted**: the new end is on a page, not above the old one nor below the hole's header, the other
allocations are where they were, and the heap is laid out up to the new end. -/
structure Contracted (s t : HeapState) (bs : List Block) (p m x : Nat) : Prop where
  start : t.startAddress = s.startAddress
  page : t.endAddress % 4096 = 0
  shorter : t.endAddress ≤ s.endAddress
  header : x ≤ t.endAddress
  laid : ∃ bs', Laid t bs' ∧
    (allocs s.startAddress bs).Perm ((p - 4, m) :: allocs t.startAddress bs')

/-- No hole is read below the first block, and the merged hole starts a block or more below the end of
the smallest heap, which is no larger than the heap. -/
def HeapState.ShrinkOk (s : HeapState) (p : Nat) : Prop :=
  (p - 4 = s.startAddress → (s.storeHeaderHole (p - 4) true).holeBefore (p - 4) = none) ∧
    (s.merged p).1 + 8 ≤ s.startAddress + 0x70000 ∧ s.startAddress + 0x70000 ≤ s.endAddress

theorem allocs_nodup {a : Nat} {bs : List Block} (h : ∀ b ∈ bs, 8 ≤ b.size) :
    ((allocs a bs).map (·.1)).Nodup := by
  have hn := @place_nodup _ Block.size a _ fun b hb => Nat.lt_of_lt_of_le (by decide) (h b hb)
  have hs : ((allocs a bs).map (·.1)).Sublist ((place Block.size a bs).map Prod.fst) := by
    unfold allocs
    rw [List.map_map]
    exact List.filter_sublist.map _
  exact hn.sublist hs

section
variable {s t u : HeapState} {bs : List Block} {p q m x f right : Nat} {doAdd : Bool}

theorem HeapState.merged_fst (h : ((s.storeHeaderHole q true).holeBefore q = none ∧ x = q) ∨
    (s.storeHeaderHole q true).holeBefore q = some x) : (s.merged (q + 4)).1 = x := by
  unfold merged
  rw [Nat.add_sub_cancel]
  dsimp only
  rcases h with ⟨h, rfl⟩ | h <;> rw [h]

/-- **A heap that lost its first block to a hole below is not laid out again**: the block is no
allocation any more, and no hole the index lists. -/
theorem Contracted.first (h : Laid s bs) (hq : (q, m) ∈ allocs s.startAddress bs)
    (hqs : q = s.startAddress) (hsub : ∀ z ∈ t.index.items, z ∈ s.index.items)
    (hend : t.endAddress ≠ s.startAddress) : ¬ Contracted s t bs (q + 4) m x := by
  rintro ⟨hst, -, -, -, bs', ht, hperm⟩
  subst hqs
  rw [Nat.add_sub_cancel, hst] at hperm
  have hf := ht.fills
  have hpos : ∀ b ∈ bs, 8 ≤ b.size := h.tags.pos
  cases bs' with
  | nil =>
    rw [extent_nil, hst] at hf
    exact hend hf.symm
  | cons b bs' =>
    cases hb : b.hole with
    | true =>
      have hmem : s.startAddress ∈ t.index.items := by
        refine ht.index.mem_iff.2 ?_
        rw [hst, holes_cons, hb]
        exact List.mem_cons_self
      obtain ⟨n, hn⟩ := h.hole_mem (hsub _ hmem)
      have hsame := place_inj (fun b hb => Nat.lt_of_lt_of_le (by decide) (hpos b hb)) hn
        (mem_allocs.1 hq)
      cases hsame
    | false =>
      have hnd := (hperm.map (·.1)).nodup_iff.1 (allocs_nodup hpos)
      rw [List.map_cons, List.nodup_cons] at hnd
      refine hnd.1 (List.mem_map.2 ⟨(s.startAddress, b.size), ?_, rfl⟩)
      rw [allocs_cons, hb]
      exact List.mem_cons_self

/-- **Contraction that keeps the heap** starts from a hole below the end of the smallest heap. -/
theorem Laid.shrinkOk (h : Laid s bs) (hq : (q, m) ∈ allocs s.startAddress bs)
    (hc : s.coalesce (q + 4) = .ok (u, x, f, right, doAdd)) (he : add32 f 4 = u.endAddress)
    (hf : s.free (q + 4) = .ok t) (hC : Contracted s t bs (q + 4) m x) : s.ShrinkOk (q + 4) := by
  have hlow := h.low
  have htop := h.top
  have hfills := h.fills
  have hplace := mem_allocs.1 hq
  have htag := h.tags _ hplace
  have hb := place_bounds hplace
  have h8 := htag.least
  simp only at htag hb h8
  obtain ⟨rfl, hheap, hkept, hcase⟩ :=
    HeapState.coalesce_inv htag (by omega) h.slots h.capacity hc
  obtain ⟨v, hv, hins⟩ := HeapState.free_shrink (by omega) hc he hf
  have hust : u.startAddress = s.startAddress := (congrArg Heap.startAddress hheap :)
  have hslots : u.index.size < u.index.capacity := by
    have := h.slots
    have := hkept.size
    rw [hkept.capacity]
    omega
  obtain ⟨hvst, hvend, hvkept⟩ :=
    HeapState.shrink_inv hslots (by rw [hkept.capacity]; exact h.capacity) hv
  rw [hust] at hvend
  have hall := hkept.trans hvkept
  have hsize := HeapState.contractSize_cases (sub32 x s.startAddress)
  have hsub32 : sub32 x s.startAddress < 4294967296 := sub32_lt _ _
  have htend : t.endAddress = v.endAddress := by
    cases doAdd with
    | false => cases hins; rfl
    | true => exact (congrArg Heap.endAddress (HeapState.indexInsert_heap hins) :)
  have hne : t.endAddress ≠ s.startAddress := by
    rw [htend, hvend]
    unfold add32
    omega
  have first : q = s.startAddress → (s.storeHeaderHole q true).holeBefore q = none := by
    intro hqs
    rcases hcase with ⟨hnone, -, -⟩ | ⟨-, rfl⟩
    · exact hnone
    · cases hins
      exact absurd hC (Contracted.first h hq hqs hall.sub hne)
  have hx : (s.merged (q + 4)).1 = x :=
    HeapState.merged_fst (hcase.imp (fun h => ⟨h.1, h.2.1⟩) And.left)
  -- the hole is listed afterwards
  have hmem : x ∈ t.index.items := by
    rcases hcase with ⟨-, rfl, rfl⟩ | ⟨hsome, rfl⟩
    · have hvslots : v.index.size < v.index.capacity := by
        have := hvkept.size
        rw [hvkept.capacity]
        omega
      obtain ⟨-, -, -, hit⟩ := HeapState.indexInsert_ok hvslots hins 0 0
      rw [hit]
      exact (List.mem_orderedInsert _).2 (.inl rfl)
    · cases hins
      obtain ⟨l, r, hbs, hql⟩ := mem_place_iff.1 hplace
      have htags := h.tags
      rw [hbs, allTagged_append] at htags
      have hoff : Off q (q + 4) s.mem (s.storeHeaderHole q true).mem := off_setHeader s.mem q _
      obtain ⟨l', before, y, ⟨hl, -, -⟩, hy, hbefore⟩ :=
        htags.1.holeBefore_cases hql hlow (by omega) hoff
        fun hl => first (by rw [hql, hl]; rfl)
      rw [hsome] at hbefore
      rcases hbefore with ⟨-, hno⟩ | ⟨k, rfl, hyes⟩
      · cases hno
      · cases hyes
        have hxi : x ∈ s.index.items := by
          refine h.index.mem_iff.2 (mem_holes.2 ⟨k, mem_place_iff.2 ⟨l', ⟨false, m⟩ :: r, ?_, hy⟩⟩)
          rw [hbs, hl]
          simp
        have hxq : x ≤ q := by
          rw [hql, hl, extent_append, hy]
          omega
        exact hall.keeps x hxi (by omega)
  obtain ⟨hst, -, hshort, -, bs', ht, -⟩ := hC
  have hbd := ht.hole_bounds hmem
  unfold HeapState.ShrinkOk
  rw [hx, Nat.add_sub_cancel]
  refine ⟨first, ?_⟩
  have hxs : sub32 x s.startAddress = x - s.startAddress := sub32_eq (by omega) (by omega)
  rw [hxs] at hsize hvend
  rw [htend, hvend] at hbd hshort
  unfold add32 at hbd hshort
  omega

/-- **The hole is shortened** to the end of the smallest heap, however its size was cut. -/
theorem HeapState.shrink_ok {v : HeapState} {n e : Nat} (hx : u.startAddress ≤ x)
    (hmin : x + 8 ≤ u.startAddress + 0x70000) (hle : u.startAddress + 0x70000 ≤ u.endAddress)
    (hend : x + n = u.endAddress) (htop : u.endAddress < 4294967296)
    (hh : u.header x = ⟨0x1FF, true, n % 4194304⟩) (h : u.shrink x e = .ok v) :
    v.toHeap = { u.toHeap with endAddress := u.startAddress + 0x70000 } ∧
      Off x u.endAddress u.mem v.mem ∧
      Tagged v.mem x ⟨true, u.startAddress + 0x70000 - x⟩ := by
  rw [shrink_eq hx hmin hle hend htop (congrArg Header.size hh)] at h
  obtain ⟨P, -, h⟩ := bind_ok.1 h
  cases h
  obtain ⟨hmod, -⟩ := sub32_cut (n := n) (r := u.endAddress - u.startAddress - 0x70000)
    (by omega) (by omega) (by omega)
  generalize sub32 (n % 4194304) (u.endAddress - u.startAddress - 0x70000) = w at *
  generalize hu : ((u.moveEnd P (u.startAddress + 0x70000)).touch x).storeHeaderSize x w = u'
  have hhd : u'.header x = ⟨0x1FF, true, u.startAddress + 0x70000 - x⟩ := by
    rw [← hu, header_resize (u := (u.moveEnd P (u.startAddress + 0x70000)).touch x) hh, hmod,
      show n - (u.endAddress - u.startAddress - 0x70000) = u.startAddress + 0x70000 - x by omega]
  have hoff : Off x (x + 4) u.mem u'.mem := by
    rw [← hu]
    exact off_setHeader u.mem x _
  obtain ⟨-, hseal, hmag, hsz⟩ :=
    u'.sealFooter_apart (f := u.startAddress + 0x70000 - 4) (h := x) (by omega)
  rw [shrunk, hu]
  have hend' : x + (u.startAddress + 0x70000 - x) - 4 = u.startAddress + 0x70000 - 4 := by omega
  refine ⟨?_, ?_, ⟨by simp only; omega, by simp only; omega, ?_, ?_, ?_⟩⟩
  · rw [toHeap_sealFooter, ← hu]
    rfl
  · exact (hoff.mono (Nat.le_refl _) (by omega)).trans (hseal.mono (by omega) (by omega))
  · exact (header_off hseal (.inl (by omega))).trans hhd
  · simp only [hend']
    exact hmag
  · simp only [hend']
    rw [hhd] at hsz
    exact hsz

/-- `t` is `s` with the end of the smallest heap, where the merged hole at `x` now ends. -/
structure Cut (s t : HeapState) (x : Nat) : Prop where
  heap : t.toHeap =
    { s.toHeap with index := t.index, endAddress := s.startAddress + 0x70000 }
  off : Off x s.endAddress s.mem t.mem
  capacity : t.index.capacity = s.index.capacity

/-- **The merged hole, cut at the end of the smallest heap**, is the last block. -/
theorem Laid.shrunk_laid {l' before after : List Block} {v w : HeapState} {n e : Nat}
    {idx : OrderedArray Nat} (h : Laid s (l' ++ (before ++ ⟨false, m⟩ :: after))) (hb : Piece before)
    (hx : x = s.startAddress + extent Block.size l') (hend : x + n = s.endAddress)
    (hmin : x + 8 ≤ s.startAddress + 0x70000) (hle : s.startAddress + 0x70000 ≤ s.endAddress)
    (hj : Joined s v x n)
    (hi : idx.items.Perm (holes s.startAddress l' ++ if before = [] then [] else [x]))
    (hcap : idx.capacity = s.index.capacity) (hsize : idx.size ≤ s.index.size)
    (hw : ({ v with index := idx } : HeapState).shrink x e = .ok w)
    (ht : (if before.isEmpty then w.indexInsert x else .ok w) = .ok t) :
    Laid t (l' ++ [⟨true, s.startAddress + 0x70000 - x⟩]) ∧ Cut s t x := by
  have htop := h.top
  have hust : v.startAddress = s.startAddress := (congrArg Heap.startAddress hj.heap :)
  have huend : v.endAddress = s.endAddress := (congrArg Heap.endAddress hj.heap :)
  obtain ⟨hheap, hoff, htag⟩ := HeapState.shrink_ok (u := { v with index := idx }) (x := x) (n := n)
    (by show v.startAddress ≤ x; omega) (by show x + 8 ≤ v.startAddress + _; omega)
    (by show v.startAddress + _ ≤ v.endAddress; omega) (by show x + n = v.endAddress; omega)
    (by show v.endAddress < _; omega) hj.header hw
  have hwidx : w.index = idx := (congrArg Heap.index hheap :)
  have hwslots : w.index.size < w.index.capacity := by
    rw [hwidx, hcap]
    exact Nat.lt_of_le_of_lt hsize h.slots
  obtain ⟨hr, hm, hslots, hitems⟩ := HeapState.entered hwslots (hwidx.symm ▸ hi) ht
  have hth : t.toHeap =
      { s.toHeap with index := t.index, endAddress := s.startAddress + 0x70000 } := by
    rw [hr.heap, hheap]
    show ({ v.toHeap with index := t.index, endAddress := v.startAddress + 0x70000 } : Heap) = _
    rw [hj.heap]
  have hst : t.startAddress = s.startAddress := (congrArg Heap.startAddress hth :)
  have hte : t.endAddress = s.startAddress + 0x70000 := (congrArg Heap.endAddress hth :)
  have hcap' : t.index.capacity = s.index.capacity := by
    rw [hr.capacity, hwidx, hcap]
  have hoffs : Off x s.endAddress s.mem t.mem := by
    rw [hm]
    refine (hj.off.mono (Nat.le_refl _) hend.le).trans ?_
    rw [← huend]
    exact hoff
  refine ⟨⟨?_, ?_, by omega, ?_, hslots, ?_, ?_⟩, hth, hoffs, hcap'⟩
  · rw [hst, allTagged_append, allTagged_single, ← hx]
    have htags := h.tags
    rw [allTagged_append] at htags
    refine ⟨htags.1.off hoffs (.inl hx.symm.le), ?_⟩
    rw [hm, ← hust]
    exact htag
  · rw [hst, hte]
    simp only [extent_append, extent_cons, extent_nil]
    omega
  · rw [hst]
    exact h.low
  · rw [hcap']
    exact h.capacity
  · rw [hst, holes_append, holes_cons, ← hx]
    refine hitems.trans ?_
    rcases hb with rfl | ⟨k, rfl⟩
    · simpa using (List.perm_append_singleton x _).symm
    · simp

/-- **A hole that starts below the end of the smallest heap** is contracted well. -/
theorem Laid.contracted (h : Laid s bs) (hp : PageBounds s) (hq : (q, m) ∈ allocs s.startAddress bs)
    (hc : s.coalesce (q + 4) = .ok (u, x, f, right, doAdd)) (he : add32 f 4 = u.endAddress)
    (hf : s.free (q + 4) = .ok t) (hok : s.ShrinkOk (q + 4)) :
    Contracted s t bs (q + 4) m x := by
  obtain ⟨first, hmin, hle⟩ := hok
  rw [Nat.add_sub_cancel] at first
  have htop := h.top
  have hfills := h.fills
  obtain ⟨l, r, rfl, hql⟩ := mem_place_iff.1 (mem_allocs.1 hq)
  have htag := h.tags _ (mem_allocs.1 hq)
  have hb := place_bounds (mem_allocs.1 hq)
  simp only at htag hb
  have first' : l = [] → (s.storeHeaderHole q true).holeBefore q = none :=
    fun hl => first (by rw [hql, hl]; rfl)
  obtain ⟨-, -, -, hcase⟩ := HeapState.coalesce_inv htag (by omega) h.slots h.capacity hc
  rw [HeapState.merged_fst (hcase.imp (fun h => ⟨h.1, h.2.1⟩) And.left)] at hmin
  obtain ⟨l', before, after, r', x', n, v, idx, ⟨rfl, hbefore, -⟩, ⟨rfl, hafter, -⟩, hx', hn, hj, hi,
    -, hcap, hsize, -, -, hco⟩ := h.coalesce_ok hql first' (h.coalesce_last hql first' hc)
  rw [hco] at hc
  cases hc
  have hext : s.startAddress + extent Block.size l' + n + extent Block.size r' = s.endAddress := by
    rw [hn, ← hfills]
    simp only [extent_append, extent_cons]
    omega
  have huend : v.endAddress = s.endAddress := (congrArg Heap.endAddress hj.heap :)
  have hn8 : 8 ≤ n := by
    have := htag.least
    simp only at this
    rw [hn]
    simp only [extent_append, extent_cons]
    omega
  -- the merged hole is the last block
  have hend : x + n = s.endAddress := by
    rw [add32_eq (by omega)] at he
    have : ({ v with index := idx } : HeapState).endAddress = s.endAddress := huend
    omega
  have hr' : r' = [] := by
    cases r' with
    | nil => rfl
    | cons b r' =>
      have := h.tags.pos b (by simp)
      rw [extent_cons] at hext
      omega
  subst hr'
  obtain ⟨w, hw, hins⟩ := HeapState.free_shrink (by omega) hco he hf
  rw [holes_nil, List.append_nil] at hi
  have hbs : (l' ++ before) ++ ⟨false, m⟩ :: (after ++ []) =
      l' ++ (before ++ ⟨false, m⟩ :: after) := by simp
  rw [hbs] at h
  obtain ⟨hlaid, hcut⟩ := h.shrunk_laid hbefore hx' hend hmin hle hj hi hcap hsize hw hins
  have hst : t.startAddress = s.startAddress := (congrArg Heap.startAddress hcut.heap :)
  have hte : t.endAddress = s.startAddress + 0x70000 := (congrArg Heap.endAddress hcut.heap :)
  refine ⟨hst, ?_, by omega, by omega, _, hlaid, ?_⟩
  · have := hp.startPage
    omega
  · rw [hst, Nat.add_sub_cancel, List.append_nil, allocs_append, allocs_append, allocs_cons,
      allocs_append, ← hql, hbefore.allocs, hafter.allocs]
    simp [allocs_cons]

/-- **Contraction** after a `Free` whose merged hole ends at `end_address`. -/
theorem Laid.contracted_iff (h : Laid s bs) (hp : PageBounds s)
    (hq : (p - 4, m) ∈ allocs s.startAddress bs)
    (hc : s.coalesce p = .ok (u, x, f, right, doAdd)) (he : add32 f 4 = u.endAddress)
    (hf : s.free p = .ok t) : Contracted s t bs p m x ↔ s.ShrinkOk p := by
  obtain ⟨q, rfl⟩ : ∃ q, p = q + 4 := by
    have := (place_bounds (mem_allocs.1 hq)).1
    have := h.low
    exact ⟨p - 4, by omega⟩
  rw [Nat.add_sub_cancel] at hq
  exact ⟨h.shrinkOk hq hc he hf, h.contracted hp hq hc he hf⟩

end

/-! ## Two blocks at the start of a heap -/

/-- A new heap from which two blocks were taken. -/
structure TwoBlocks (endAddr a b : Nat) (s : HeapState) : Prop where
  wf : WF s [⟨false, a + 8⟩, ⟨false, b + 8⟩, ⟨true, endAddr - 0xC0081000 - (a + 8) - (b + 8)⟩]
  start : s.startAddress = 0xC0081000
  limit : s.endAddress = endAddr

theorem two_blocks {endAddr a b : Nat} (he : endAddr % 4096 = 0) (hhi : endAddr ≤ 0xC0400000)
    (hab : 0xC0081000 + (a + 8) + (b + 8) + 8 ≤ endAddr) : ∃ s₀ p₀ s₁ p₁ s,
    Heap.create 0xC0000000 endAddr 0xCFFFF000 false false (fun _ => 0) Frames.blank = .ok s₀ ∧
    s₀.allocN 0 a false (fun _ => 0) = .ok (p₀, s₁) ∧
    s₁.allocN 0 b false (fun _ => 0) = .ok (p₁, s) ∧ p₁ = 0xC0081000 + (a + 8) + 4 ∧
    TwoBlocks endAddr a b s := by
  obtain ⟨s₀, hs₀⟩ := Heap.create_returns 0xCFFFF000 false false (fun _ => 0) Frames.blank
    (show 0xC0000000 % 4096 = 0 by decide) he
  obtain ⟨hwf₀, -, hst, hend, -⟩ := Heap.create_ok (by omega) (by omega) (by omega) hs₀
  obtain ⟨s₁, h₁, hr₁, hwf₁⟩ := @WF.alloc_at s₀ [] [] _ _ a false 0 (fun _ => 0) hwf₀ rfl
    (by omega) (show a + 8 + 0 ≤ _ by omega) nofun (by simp) (by simp)
  rw [show gapSize false _ = 0 from rfl, carved_zero, if_neg (by omega)] at hwf₁
  obtain ⟨s, h, hr, hwf⟩ := @WF.alloc_at s₁ [⟨false, a + 8⟩] [] _ _ b false 0 (fun _ => 0) hwf₁
    rfl (by omega) (show b + 8 + 0 ≤ _ by omega) nofun
    (by simp) (by simp)
  rw [show gapSize false _ = 0 from rfl, carved_zero, if_neg (by omega)] at hwf
  refine ⟨s₀, _, s₁, _, s, hs₀, h₁, h, ?_, ⟨hwf, ?_, ?_⟩⟩
  · rw [hr₁.startAddress, hst]
    rfl
  · rw [hr.startAddress, hr₁.startAddress, hst]
  · rw [hr.endAddress, hr₁.endAddress, hend]

theorem TwoBlocks.coalesce {endAddr a b : Nat} {s : HeapState} (h : TwoBlocks endAddr a b s)
    (hhi : endAddr ≤ 0xC0400000) (hab : 0xC0081000 + (a + 8) + (b + 8) + 8 ≤ endAddr) :
    ∃ n v idx, s.coalesce (0xC0081000 + (a + 8) + 4) = .ok ({ v with index := idx },
        0xC0081000 + (a + 8), endAddr - 4, 0xC0081000 + (a + 8) + (b + 8), true) ∧
      0xC0081000 + (a + 8) + n = endAddr ∧ Joined s v (0xC0081000 + (a + 8)) n ∧
      idx.items = [] ∧ idx.capacity = 0x20000 := by
  have hq : 0xC0081000 + (a + 8) = s.startAddress + extent Block.size [⟨false, a + 8⟩] := by
    rw [h.start]
    rfl
  obtain ⟨l', before, after, r', x, n, v, idx, hends, hheads, hx, hn, hj, hi, -, hcap, hsz, -, -, hco⟩ :=
    Laid.coalesce_ok (l := [⟨false, a + 8⟩]) h.wf.laid hq nofun nofun
  have hbefore : before = [] ∧ l' = [⟨false, a + 8⟩] := by
    rcases hends.piece with rfl | ⟨k, rfl⟩
    · exact ⟨rfl, by simpa using hends.split.symm⟩
    · have := hends.split
      cases l' <;> simp at this
  obtain ⟨rfl, rfl⟩ := hbefore
  have hafter : r' = [] ∧ extent Block.size after =
      endAddr - 0xC0081000 - (a + 8) - (b + 8) := by
    rcases hheads.piece with rfl | ⟨k, rfl⟩
    · have hno := hheads.none rfl
      rw [← show _ = r' from hheads.split] at hno
      exact absurd (hno _ rfl) (by simp)
    · have := hheads.split
      simp only [List.cons_append, List.nil_append, List.cons.injEq, Block.mk.injEq, true_and] at this
      exact ⟨this.2.symm, by simp [← this.1]⟩
  obtain ⟨rfl, hext⟩ := hafter
  rw [← hq] at hx
  subst hx
  rw [List.nil_append, extent_cons, hext] at hn
  simp only at hn
  refine ⟨n, v, idx, ?_, by omega, hj, ?_, ?_⟩
  · rw [hco, show 0xC0081000 + (a + 8) + n - 4 = endAddr - 4 by omega]
    rfl
  · rw [h.start] at hi
    exact List.perm_nil.1 (by simpa [holes_cons] using hi)
  · rw [hcap, h.wf.capacity]

namespace HeapState

variable {s t u w : HeapState} {p x f n right e : Nat}

theorem free_of (hp : p ≠ 0) (hc : s.coalesce p = .ok (u, x, f, right, true))
    (he : add32 f 4 = u.endAddress) (hs : u.shrink x right = .ok w)
    (hi : w.indexInsert x = .ok t) : s.free p = .ok t := by
  unfold free
  rw [if_neg hp, hc]
  simp only [ok_bind]
  rw [if_pos he, hs]
  exact hi

theorem contractPages_none {start newSize i rounds : Nat} {P : Paging} (h : i ≤ newSize) :
    contractPages start newSize (rounds + 1) i P = .ok P := by
  unfold contractPages
  rw [if_neg (by omega)]

theorem shrink_gone (hx : u.startAddress + 0x70000 ≤ x) (hend : x + n = u.endAddress) (h0 : 0 < n)
    (htop : u.endAddress < 4294967296) (hn : (u.header x).size = n)
    (hcs : contractSize (x - u.startAddress) = x - u.startAddress)
    (hpage : u.endAddress ≤ x + 0x1000) (hitems : u.index.items = []) :
    u.shrink x e = .ok ((u.moveEnd u.paging x).touch x) := by
  have hlen : sub32 u.endAddress u.startAddress = u.endAddress - u.startAddress :=
    sub32_eq (by omega) htop
  have hsub : sub32 x u.startAddress = x - u.startAddress := sub32_eq (by omega) (by omega)
  have hold : sub32 (u.endAddress - u.startAddress) 0x1000 = u.endAddress - u.startAddress - 0x1000 :=
    sub32_eq (by omega) (by omega)
  have hadd : add32 u.startAddress (x - u.startAddress) = x := by
    rw [add32_eq (by omega)]
    omega
  have hrem : sub32 (u.endAddress - u.startAddress) (x - u.startAddress) = n := by
    rw [sub32_eq (by omega) (by omega)]
    omega
  have hzero : sub32 n n = 0 := (sub32_eq_zero (by omega) (by omega)).2 rfl
  have hlt : x - u.startAddress < u.endAddress - u.startAddress := by omega
  have hsize : u.index.size = 0 := by
    have := OrderedArray.length_items u.index
    rw [hitems] at this
    exact this.symm
  have hpages : contractPages u.startAddress (x - u.startAddress) 0x100001
      (u.endAddress - u.startAddress - 0x1000) u.paging = .ok u.paging :=
    contractPages_none (by omega)
  unfold shrink contract
  simp only [hlen, hsub, hlt, decide_true, assert_true, ok_bind, hcs, hold, hpages, hadd]
  simp only [lift, Except.mapError, ok_bind, pure, Except.pure, header_touch, header_moveEnd, hn,
    hrem, hzero, gt_iff_lt, Nat.lt_irrefl, if_false]
  rw [if_neg (by show ¬ _ < u.index.size; omega)]

end HeapState

theorem HeapState.indexInsert_empty {w : HeapState} (x : Nat) (hi : w.index.items = [])
    (hc : w.index.capacity = 0x20000) :
    ∃ t, w.indexInsert x = .ok t ∧ t.endAddress = w.endAddress := by
  have hsize : w.index.size = 0 := by
    have hlen := OrderedArray.length_items w.index
    rw [hi] at hlen
    exact hlen.symm
  obtain ⟨idx, -, -, -, he⟩ := indexInsert_eq (s := w) x (by omega)
  rw [if_pos (by omega)] at he
  exact ⟨_, he, (congrArg Heap.endAddress (indexInsert_heap he) :)⟩

/-- **A good contraction**: a heap of 452 KiB shrinks to 448 KiB when its second block is freed. -/
theorem contracted_small : ∃ s t bs, Laid s bs ∧ s.free 0xC0081024 = .ok t ∧
    Contracted s t bs 0xC0081024 32 0xC0081020 := by
  obtain ⟨_, _, _, _, s, -, -, -, -, h⟩ := @two_blocks 0xC00F2000 24 24 (by decide) (by decide)
    (by decide)
  obtain ⟨n, v, idx, hco, hn, hj, hidx, hcap⟩ := h.coalesce (by decide) (by decide)
  have hust : v.startAddress = 0xC0081000 := (congrArg Heap.startAddress hj.heap :).trans h.start
  have huend : v.endAddress = 0xC00F2000 := (congrArg Heap.endAddress hj.heap :).trans h.limit
  have hq : (0xC0081020, 32) ∈ allocs s.startAddress
      [⟨false, 24 + 8⟩, ⟨false, 24 + 8⟩, ⟨true, 0xC00F2000 - 0xC0081000 - (24 + 8) - (24 + 8)⟩] := by
    rw [h.start]
    simp [allocs_cons]
  have hs := HeapState.shrink_eq (s := { v with index := idx }) (x := 0xC0081020) (n := n)
    (e := 0xC0081040) (by show v.startAddress ≤ _; omega) (by show _ ≤ v.startAddress + _; omega)
    (by show v.startAddress + _ ≤ v.endAddress; omega) (by show _ = v.endAddress; omega)
    (by show v.endAddress < _; omega) (congrArg Header.size hj.header)
  rw [show HeapState.contractPages _ 0x70000 0x100001 _ _ = .ok _ from
    HeapState.contractPages_none (by show v.endAddress - v.startAddress - _ ≤ _; omega)] at hs
  obtain ⟨t, hins, -⟩ := HeapState.indexInsert_empty 0xC0081020
    (w := ({ v with index := idx } : HeapState).shrunk 0xC0081020 _ v.paging) hidx hcap
  have hfree : s.free 0xC0081024 = .ok t :=
    HeapState.free_of (by decide) hco huend.symm hs hins
  have htag := h.wf.tags _ (mem_allocs.1 hq)
  obtain ⟨-, -, -, hcase⟩ := HeapState.coalesce_inv (q := 0xC0081020) htag (by decide) h.wf.slots
    h.wf.capacity.le hco
  have hx : (s.merged 0xC0081024).1 = 0xC0081020 :=
    HeapState.merged_fst (hcase.imp (fun h => ⟨h.1, h.2.1⟩) And.left)
  refine ⟨s, t, _, h.wf.laid, hfree,
    (h.wf.laid.contracted_iff h.wf.pageBounds hq hco huend.symm hfree).2 ⟨fun hstart => ?_, ?_⟩⟩
  · rw [h.start] at hstart
    exact absurd hstart (by decide)
  · rw [hx, h.start, h.limit]
    decide

/-- **A contraction to the hole's header**: in a new kernel heap a block is freed whose header is at
offset 0x7E010. The new end is that header, which is on no page. -/
theorem contracted_to_header : ∃ s₀ p₀ s₁ s u f right doAdd t bs,
    Heap.create 0xC0000000 0xC0100000 0xCFFFF000 false false (fun _ => 0) Frames.blank = .ok s₀ ∧
    s₀.allocN 0 0x7E008 false (fun _ => 0) = .ok (p₀, s₁) ∧
    s₁.allocN 0 8 false (fun _ => 0) = .ok (0xC00FF014, s) ∧ Laid s bs ∧ PageBounds s ∧
    (0xC00FF014 - 4, 16) ∈ allocs s.startAddress bs ∧
    s.coalesce 0xC00FF014 = .ok (u, 0xC00FF010, f, right, doAdd) ∧ add32 f 4 = u.endAddress ∧
    s.free 0xC00FF014 = .ok t ∧ ¬ Contracted s t bs 0xC00FF014 16 0xC00FF010 := by
  obtain ⟨s₀, p₀, s₁, p₁, s, hs₀, hs₁, hs, rfl, h⟩ := @two_blocks 0xC0100000 0x7E008 8 (by decide)
    (by decide) (by decide)
  obtain ⟨n, v, idx, hco, hn, hj, hidx, hcap⟩ := h.coalesce (by decide) (by decide)
  have hust : v.startAddress = 0xC0081000 := (congrArg Heap.startAddress hj.heap :).trans h.start
  have huend : v.endAddress = 0xC0100000 := (congrArg Heap.endAddress hj.heap :).trans h.limit
  have hq : (0xC00FF010, 16) ∈ allocs s.startAddress [⟨false, 0x7E008 + 8⟩, ⟨false, 8 + 8⟩,
      ⟨true, 0xC0100000 - 0xC0081000 - (0x7E008 + 8) - (8 + 8)⟩] := by
    rw [h.start]
    simp [allocs_cons]
  have hshrink := HeapState.shrink_gone (u := { v with index := idx }) (x := 0xC00FF010)
    (n := n % 4194304) (e := 0xC00FF020) (by show v.startAddress + _ ≤ _; omega)
    (by show _ = v.endAddress; omega) (by omega) (by show v.endAddress < _; omega)
    (congrArg Header.size hj.header) (by
      show HeapState.contractSize (_ - v.startAddress) = _ - v.startAddress
      rw [hust]
      decide) (by show v.endAddress ≤ _; omega) hidx
  obtain ⟨t, hins, htend⟩ := HeapState.indexInsert_empty 0xC00FF010
    (w := (({ v with index := idx } : HeapState).moveEnd v.paging 0xC00FF010).touch 0xC00FF010)
    hidx hcap
  refine ⟨s₀, p₀, s₁, s, _, _, _, true, t, _, hs₀, hs₁, hs, h.wf.laid, h.wf.pageBounds, hq, hco,
    huend.symm, HeapState.free_of (by decide) hco huend.symm hshrink hins, fun hC => ?_⟩
  have hpage := hC.page
  rw [htend] at hpage
  exact absurd hpage (by show ¬ 0xC00FF010 % 4096 = 0; decide)

end Dmanix
