import Dmanix.Memory.Proof.Alloc

/-!
# A new heap

`Heap::Create` leaves one hole, from the first page after the index array to `end_addr`:
`create_ok`. A heap with one hole that is large enough gives the block at its front, or on its
first page (`WF.alloc_at`).
-/

namespace Dmanix

open Word32 Bytes Tiling

theorem Heap.firstAddress_eq {start : Nat} (hs : start % 4096 = 0)
    (hlt : start + 0x81000 < 4294967296) :
    Heap.firstAddress start = start + 0x81000 := by
  have hadd : add32 start (4 * 0x20000) = start + 0x80000 := add32_eq (by omega)
  unfold Heap.firstAddress
  dsimp only
  rw [hadd, pageBits_eq (by omega), if_pos (by omega), add32_eq (by omega)]
  omega

/-- **`Heap::Create`**: a well-formed heap with one hole. -/
theorem Heap.create_ok {start endAddr max : Nat} {supervisor readonly : Bool} {mem : Mem}
    {P : Paging} {s : HeapState} (hlo : start + 0x81008 ≤ endAddr) (hhi : endAddr < 4294967296)
    (hsz : endAddr < start + 0x481000)
    (h : Heap.create start endAddr max supervisor readonly mem P = .ok s) :
    WF s [⟨true, endAddr - (start + 0x81000)⟩] ∧ s.paging = P ∧
      s.startAddress = start + 0x81000 ∧ s.endAddress = endAddr ∧ s.maxAddress = max ∧
      Off (start + 0x81000) endAddr mem s.mem := by
  unfold Heap.create at h
  obtain ⟨_, h1, h⟩ := bind_ok.1 h
  obtain ⟨_, h2, h⟩ := bind_ok.1 h
  rw [HeapState.assert_ok, decide_eq_true_iff] at h1 h2
  have hsub : sub32 endAddr (start + 0x81000) = endAddr - (start + 0x81000) :=
    sub32_eq (by omega) (by omega)
  rw [Heap.firstAddress_eq h1 (by omega)] at h
  dsimp only at h
  rw [hsub] at h
  generalize hx : start + 0x81000 = x at *
  generalize hn : endAddr - x = n at *
  generalize hs0 : ({
    index := .create 0 0x20000, startAddress := x, endAddress := endAddr, maxAddress := max
    supervisor := supervisor, readonly := readonly, mem := mem, paging := P
    stored := [], touched := [] } : HeapState) = s0 at h
  have hsize : ((s0.storeHeader x ⟨0x1FF, true, n⟩).header x).size = n := by
    show (Dmanix.header (setHeader _ x _) x).size = n
    rw [header_setHeader]
    exact Nat.mod_eq_of_lt (show n < 4194304 by omega)
  have hfoot : sub32 (add32 x n) 4 = x + n - 4 := by
    rw [add32_eq (by omega), sub32_eq (by omega) (by omega)]
  rw [hsize, hfoot] at h
  obtain ⟨hrw, htag⟩ := writeBlock_ok s0 (x := x) (n := n) true (by omega) (by omega)
  have hins : (s0.writeBlock x n true).indexInsert x = .ok s := h
  have hidx : (s0.writeBlock x n true).index = .create 0 0x20000 := by
    rw [HeapState.toHeap_writeBlock, ← hs0]
  obtain ⟨hr, hmem, hslots, hitems⟩ := HeapState.indexInsert_ok
    (by rw [hidx]; exact (by decide : 0 < 0x20000)) hins x (x + n)
  have hall := hrw.trans hr
  have hheap : s.toHeap = { s0.toHeap with index := s.index } := hall.heap
  subst hs0
  have hst : s.startAddress = x := hall.startAddress
  have hen : s.endAddress = endAddr := hall.endAddress
  have hoff : Off x endAddr mem s.mem := by
    have := hall.off
    rwa [show x + n = endAddr by omega] at this
  refine ⟨⟨⟨?_, ?_, ?_, ?_, ?_, ?_, ?_, hslots, ?_, fun v hv => ?_⟩, ?_⟩, hall.paging, hst, hen,
    hall.maxAddress, hoff⟩
  · rw [hst, allTagged_single, hmem]
    exact htag
  · rw [hst, hen]
    simp only [extent_cons, extent_nil]
    omega
  · rw [hen]; omega
  · rw [hst]; omega
  · rw [hst, hen]; omega
  · rw [hst]; omega
  · rw [hen]; omega
  · exact hall.capacity
  · exact (hall.stored v hv).elim (fun hv => absurd hv List.not_mem_nil) id
  · rw [hitems, hidx, hst]
    simp [holes_cons]

theorem Heap.create_returns {start endAddr : Nat} (max : Nat) (supervisor readonly : Bool)
    (mem : Mem) (P : Paging) (hs : start % 4096 = 0) (he : endAddr % 4096 = 0) :
    ∃ s, Heap.create start endAddr max supervisor readonly mem P = .ok s := by
  unfold Heap.create
  dsimp only
  rw [decide_eq_true hs, decide_eq_true he, HeapState.assert_true, ok_bind, HeapState.assert_true,
    ok_bind]
  generalize hs0 : HeapState.sealFooter _ _ _ = s0
  have hidx : s0.index = .create 0 0x20000 := by
    rw [← hs0]
    rfl
  obtain ⟨idx, -, -, -, hins⟩ := HeapState.indexInsert_eq (s := s0) (Heap.firstAddress start)
    (by rw [hidx]; exact (by decide : 0 < 0x20000))
  rw [hins, if_pos (by rw [hidx]; exact (by decide : 0 + 1 < 0x20000))]
  exact ⟨_, rfl⟩

theorem WF.moved {s t : HeapState} {bs : List Block} {lo hi : Nat} (h : WF s bs)
    (hh : t.toHeap = s.toHeap) (ho : Off lo hi s.mem t.mem)
    (hx : s.endAddress ≤ lo ∨ hi ≤ s.startAddress) (hst : t.stored = []) : WF t bs := by
  have hstart : t.startAddress = s.startAddress := congrArg Heap.startAddress hh
  have hend : t.endAddress = s.endAddress := congrArg Heap.endAddress hh
  have hidx : t.index = s.index := congrArg Heap.index hh
  have hf := h.fills
  refine ⟨⟨?_, ?_, ?_, ?_, ?_, ?_, ?_, ?_, ?_, fun v hv => ?_⟩, ?_⟩
  · rw [hstart]
    exact h.tags.off ho (by omega)
  · rw [hstart, hend]
    exact hf
  · rw [hend]
    exact h.top
  · rw [hstart]
    exact h.low
  · rw [hstart, hend]
    exact h.room
  · rw [hstart]
    exact h.startPage
  · rw [hend]
    exact h.endPage
  · rw [hidx]
    exact h.slots
  · rw [hidx]
    exact h.capacity
  · rw [hst] at hv
    exact absurd hv List.not_mem_nil
  · rw [hidx, hstart]
    exact h.index

/-! ## Allocation from the one large hole -/

section
variable {s : HeapState} {bs l r : List Block} {pos n size : Nat} {pageAlign : Bool}

theorem gapSize_le (pageAlign : Bool) (pos : Nat) :
    gapSize pageAlign pos ≤ gapOffset pageAlign pos := by
  unfold gapSize gapOffset
  split <;> omega

theorem WF.mem_index (h : WF s (l ++ ⟨true, n⟩ :: r))
    (hpos : pos = s.startAddress + extent Block.size l) :
    pos ∈ s.index.items ∧ (s.header pos).size = n := by
  have hp : (pos, ⟨true, n⟩) ∈ place Block.size s.startAddress (l ++ ⟨true, n⟩ :: r) :=
    mem_place_iff.2 ⟨l, r, rfl, hpos⟩
  refine ⟨h.index.mem_iff.2 (mem_holes.2 ⟨n, hp⟩), ?_⟩
  exact congrArg Header.size (h.tags _ hp).header

theorem WF.found (h : WF s (l ++ ⟨true, n⟩ :: r))
    (hpos : pos = s.startAddress + extent Block.size l) (hsz : size ≤ 4194304)
    (hfit : size + 8 + gapOffset pageAlign pos ≤ n)
    (hother : ∀ b ∈ l ++ r, b.hole = true → b.size < size + 8) :
    ∃ (i : Nat) (hi : i < s.index.items.length), s.index.items[i] = pos ∧
      s.findSmallestHole (size + 8) pageAlign = some i := by
  obtain ⟨hmem, hn⟩ := h.mem_index hpos
  cases hf : s.findSmallestHole (size + 8) pageAlign with
  | none =>
    have hnone := HeapState.findSmallestHole_none.1 hf pos hmem
    rw [h.laid.fits_iff hmem (by omega)] at hnone
    exact absurd (show _ ≤ _ by rw [← hn] at hfit; exact hfit) hnone
  | some i =>
    obtain ⟨hi, hfi, -⟩ := HeapState.findSmallestHole_some.1 hf
    have hx : s.index.items[i] ∈ s.index.items := List.getElem_mem hi
    rw [h.laid.fits_iff hx (by omega)] at hfi
    refine ⟨i, hi, ?_, rfl⟩
    by_contra hne
    obtain ⟨k, hk⟩ := h.laid.hole_mem hx
    have hsize : (header s.mem s.index.items[i]).size = k :=
      congrArg Header.size (h.tags _ hk).header
    have hb : (⟨true, k⟩ : Block) ∈ l ++ r := by
      rw [place_append, place_cons, ← hpos, List.mem_append, List.mem_cons] at hk
      rcases hk with hk | hk | hk
      · exact List.mem_append_left _ (mem_of_mem_place hk)
      · exact absurd (Prod.mk.inj hk).1 hne
      · exact List.mem_append_right _ (mem_of_mem_place hk)
    have := hother _ hb rfl
    simp only at this
    omega

/-- The index has an entry for each hole, no more than there are blocks. -/
theorem WF.index_size_le (h : WF s bs) : s.index.size ≤ bs.length := by
  have hlen := h.index.length_eq
  have hle : (holes s.startAddress bs).length ≤ bs.length := by
    unfold holes
    rw [List.length_map]
    refine (List.length_filter_le _ _).trans (Nat.le_of_eq ?_)
    rw [length_place]
  have hsz : s.index.items.length = s.index.size := by simp
  omega

/-- **A block from the one large hole.** -/
theorem WF.alloc_at (rounds : Nat) (fresh : Mem) (h : WF s (l ++ ⟨true, n⟩ :: r))
    (hpos : pos = s.startAddress + extent Block.size l) (hsz : size ≤ 4194304)
    (hfit : size + 8 + gapOffset pageAlign pos ≤ n) (hsplit : SplitOk pageAlign pos n (size + 8))
    (hother : ∀ b ∈ l ++ r, b.hole = true → b.size < size + 8)
    (hroom : (l ++ ⟨true, n⟩ :: r).length + 1 < 0x20000) :
    ∃ s', s.allocN rounds size pageAlign fresh = .ok (pos + gapSize pageAlign pos + 4, s') ∧
      Rewrote s s' pos (pos + n) ∧
      WF s' (l ++ (carved n (size + 8) (gapSize pageAlign pos) ++ r)) := by
  have hgap := gapSize_le pageAlign pos
  obtain ⟨hmem, hn⟩ := h.mem_index hpos
  obtain ⟨i, hi, hit, hf⟩ := h.found hpos hsz hfit hother
  have hsize := h.index_size_le
  have hcap := h.capacity
  obtain ⟨⟨p, s'⟩, hc⟩ := h.laid.carve_returns hi hit hn rfl (by omega) hsplit
    fun _ _ => by omega
  obtain ⟨l', r', hbs, hl', rfl, hr, hlaid, -⟩ :=
    h.laid.carve_ok hi hit hn rfl (by omega) hsplit hc
  have hwf := hlaid.wf h.toTiled hr
  -- the hole is the one between `l` and `r`
  have hle : extent Block.size l = extent Block.size l' := by omega
  have hpos8 : ∀ b ∈ l ++ ⟨true, n⟩ :: r, 0 < b.size := fun b hb =>
    Nat.lt_of_lt_of_le (by decide) (h.tags.pos b hb)
  obtain ⟨rfl, hr'⟩ := extent_inj hbs hle hpos8
  cases hr'
  exact ⟨s', (HeapState.allocN_some hsz hf).trans hc, hr, hwf⟩

end

end Dmanix
