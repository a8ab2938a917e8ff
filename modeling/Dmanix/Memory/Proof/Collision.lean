import Dmanix.Memory.Proof.Coherent

/-!
# A clone onto the directory it copies

`Alloc` adds new bytes to the highest hole also where that hole is not the last block, so that the
hole runs over the blocks behind it (`WF.alloc_onto`). The hole below the first clone becomes such
a one when a request takes the rest of the kernel heap exactly: the next `Directory::Clone` gets the
memory of the current directory and empties it (`clone_collides`).
-/

namespace Dmanix

open Word32 Bytes Outcome Machine Paging Tiling

/-! ## Growth below the last block -/

namespace HeapState

theorem expandPages_returns {lo newSize : Nat} (supervisor readonly : Bool)
    (hlo : 0x1000 ≤ lo) (hhi : lo + newSize ≤ 0xE0000000) : ∀ (m rounds i : Nat) (P : Paging)
      (K k : Nat), Backed P K k → k + m ≤ 32 * P.frames.size → newSize = i + 4096 * m →
      (∀ a, lo ≤ a → a < lo + newSize → P.kernelTable (a / 0x1000 / 1024) ≠ 0) →
      m < rounds → ∃ P', expandPages lo newSize supervisor readonly rounds i P = .ok P' ∧
        SameTables P P' ∧ ∃ k' ≤ k + m, Backed P' K k'
  | _, 0, _, _, _, _, _, _, _, _, hr => absurd hr (Nat.not_lt_zero _)
  | 0, rounds + 1, i, P, _, k, hb, _, hn, _, _ => by
    unfold expandPages
    rw [if_neg (by omega)]
    exact ⟨P, rfl, .refl P, k, Nat.le_refl k, hb⟩
  | m + 1, rounds + 1, i, P, K, k, hb, hk, hn, hT, hr => by
    have hadd : add32 lo i = lo + i := add32_eq (by omega)
    have hT' := hT (lo + i) (by omega) (by omega)
    obtain ⟨P₁, hP₁⟩ := allocFrame_ok (q := P.pageAt ((lo + i) / 0x1000)) (k := supervisor)
      (w := readonly) (hb.clearBits (by omega))
    have hs := allocFrame_same hP₁
    obtain ⟨k', hk', hb'⟩ : ∃ k' ≤ k + 1, Backed P₁ K k' := by
      rcases hb.heapPage (by omega) (by omega) hT' hP₁ with hb' | hb'
      · exact ⟨k, Nat.le_succ k, hb'⟩
      · exact ⟨k + 1, Nat.le_refl _, hb'⟩
    obtain ⟨P₂, hP₂, hs', k₂, hk₂, hb₂⟩ := expandPages_returns supervisor readonly hlo hhi m rounds
      (i + 0x1000)
      P₁ K k' hb' (by rw [hs.size]; omega) (by omega) (fun a h1 h2 => by
        rw [hs.kernelTable]
        exact hT a h1 h2) (by omega)
    refine ⟨P₂, ?_, hs.trans hs', k₂, by omega, hb₂⟩
    unfold expandPages
    rw [if_pos (by omega), hadd, getPage_kernel hT', ok_bind, hP₁, ok_bind,
      show add32 i 0x1000 = i + 0x1000 from add32_eq (by omega), hP₂]

end HeapState

theorem Laid.none_found {s : HeapState} {bs : List Block} {x n size : Nat} {pageAlign : Bool}
    (h : Laid s bs) (hx : s.index.items = [x]) (hn : (s.header x).size = n) (hsz : size ≤ 4194304)
    (hfit : n < size + 8 + gapOffset pageAlign x) :
    s.findSmallestHole (size + 8) pageAlign = none := by
  refine HeapState.findSmallestHole_none.2 fun y hy => ?_
  have hyx : y = x := by rw [hx] at hy; exact List.mem_singleton.1 hy
  subst hyx
  rw [h.fits_iff hy (by omega), show (header s.mem y).size = n from hn]
  omega

theorem HeapState.lastHole_one {s : HeapState} {x : Nat} (hx : s.index.items = [x]) (h0 : 0 < x) :
    s.lastHole = some x := by
  unfold HeapState.lastHole
  rw [hx, List.foldl_cons, List.foldl_nil]
  exact if_pos h0

/-- **The highest hole is stretched**, over the blocks behind it if there are any. -/
theorem Laid.grow_onto {s : HeapState} {bs : List Block} {x n w : Nat} {P : Paging} {fresh : Mem}
    (h : Laid s bs) (hb : PageBounds s) (hx : s.lastHole = some x) (hn : (s.header x).size = n)
    (hw : 0 < w) (h22 : n + growth w < 4194304) (hlim : s.endAddress + growth w ≤ s.maxAddress)
    (hmax : s.maxAddress < 4294967296)
    (hP : HeapState.expandPages s.startAddress (s.endAddress + growth w - s.startAddress)
      s.supervisor s.readonly 0x100001 (s.endAddress - s.startAddress) s.paging = .ok P) :
    s.grow w fresh = .ok ((s.extended P (growth w) fresh).stretched x (n + growth w)) ∧
      Rewrote (s.extended P (growth w) fresh)
        ((s.extended P (growth w) fresh).stretched x (n + growth w)) x (x + (n + growth w)) ∧
      Tagged ((s.extended P (growth w) fresh).stretched x (n + growth w)).mem x
        ⟨true, n + growth w⟩ := by
  obtain ⟨hmem, -⟩ := HeapState.lastHole_some hx
  have hbd := h.hole_bounds hmem
  obtain ⟨_, _, k, -, -, hT⟩ := h.hole_split hmem
  have hk : k = n := by rw [← hn]; exact (congrArg Header.size hT.header).symm
  subst hk
  rw [show (header s.mem x).size = k from hn] at hbd
  -- the hole in the extended heap
  have hxh : (s.extended P (growth w) fresh).header x = ⟨0x1FF, true, k⟩ :=
    (header_off (s.off_extended P (growth w) fresh) (.inl (by omega))).trans hT.header
  have hlast : (s.extended P (growth w) fresh).lastHole = some x := hx
  refine ⟨?_, HeapState.stretched_ok hxh (by omega) h22⟩
  rw [hb.grow_eq hw (by omega), decide_eq_true hlim, HeapState.assert_true, ok_bind, hP]
  show (s.extended P (growth w) fresh).addSpace s.endAddress (growth w) = _
  rw [HeapState.addSpace_some hlast hxh (by omega) h22 (by omega)]

theorem WF.alloc_onto {s : HeapState} {bs : List Block} {x n size rounds : Nat} {P : Paging}
    {fresh : Mem} (h : WF s bs) (hx : s.index.items = [x]) (hn : (s.header x).size = n)
    (hsz : size ≤ 4194304) (hfit : n < size + 8 + gapOffset true x)
    (hgrown : size + 8 + gapOffset true x ≤ n + growth (size + 8))
    (h22 : n + growth (size + 8) < 4194304) (hlim : s.endAddress + growth (size + 8) ≤ s.maxAddress)
    (hmax : s.maxAddress < 4294967296)
    (hP : HeapState.expandPages s.startAddress (s.endAddress + growth (size + 8) - s.startAddress)
      s.supervisor s.readonly 0x100001 (s.endAddress - s.startAddress) s.paging = .ok P)
    (hlow : x % 4096 ≤ 4084)
    (hrest : gapSize true x + (size + 8) + 8 ≤ n + growth (size + 8)) :
    ∃ t, s.allocN (rounds + 1) size true fresh = .ok (x + gapSize true x + 4, t) ∧
      t.paging = P ∧ t.startAddress = s.startAddress ∧
      t.endAddress = s.endAddress + growth (size + 8) := by
  have hmem : x ∈ s.index.items := by rw [hx]; exact List.mem_singleton.2 rfl
  have hbd := h.laid.hole_bounds hmem
  rw [show (header s.mem x).size = n from hn] at hbd
  have hgap := gapSize_le true x
  obtain ⟨hgrow, hr, htag⟩ := @Laid.grow_onto s bs x n (size + 8) P fresh h.laid
    h.toTiled.pageBounds (HeapState.lastHole_one hx (by omega)) hn (by omega) h22 hlim hmax hP
  generalize hg : growth (size + 8) = g at *
  generalize hu : (s.extended P g fresh).stretched x (n + g) = u at *
  have hidx : u.index = s.index := by
    rw [← hu]
    rfl
  have hend : u.endAddress = s.endAddress + g := hr.endAddress
  have hux : (u.header x).size = n + g := congrArg Header.size htag.header
  have hit : u.index.items = [x] := by rw [hidx, hx]
  have hlen : 0 < u.index.items.length := by rw [hit]; exact Nat.one_pos
  have hx0 : u.index.items[0] = x := by simp [hit]
  have hcap : u.index.size = 1 ∧ u.index.capacity = 0x20000 := by
    have hl : u.index.items.length = u.index.size := by simp
    rw [hit] at hl
    exact ⟨hl.symm, by rw [hidx]; exact h.capacity⟩
  have hnone := h.laid.none_found hx hn hsz hfit
  have hsome : u.findSmallestHole (size + 8) true = some 0 := by
    refine HeapState.findSmallestHole_some.2 ⟨hlen, ?_, fun j hj => absurd hj (Nat.not_lt_zero j)⟩
    rw [hx0, HeapState.fits_iff hbd.1 (by omega) (by omega), hux]
    exact hgrown
  -- the block, with a rest behind it
  have hsplit : SplitOk true x (n + g) (size + 8) := fun _ => ⟨hlow, .inr hrest⟩
  have hbs : blockSize (n + g - gapSize true x) (size + 8) = size + 8 := by
    unfold blockSize
    rw [if_neg (by omega)]
  have hcarve := @HeapState.carve_aligned u (n + g) 0 size hlen (by omega) (hx0.symm ▸ hux)
    (hx0.symm ▸ hbd.1) (by rw [hx0]; omega) (hx0.symm ▸ hsplit)
  rw [hx0, hbs] at hcarve
  have hplace := @HeapState.placeBlock_split (u.writeBlock x (gapSize true x) true)
    (x + gapSize true x) (n + g - gapSize true x) (size + 8) (by omega) (by omega)
    (by show _ ≤ u.endAddress; omega) (by show u.endAddress < _; omega)
  generalize hv : ((u.writeBlock x (gapSize true x) true).writeBlock (x + gapSize true x) (size + 8)
    false).writeBlock (x + gapSize true x + (size + 8)) (n + g - gapSize true x - (size + 8)) true
      = v at hplace
  have hvi : v.index = u.index := by
    rw [← hv]
    rfl
  obtain ⟨idx, -, -, -, hins⟩ := HeapState.indexInsert_eq (s := v)
    (x + gapSize true x + (size + 8)) (by rw [hvi]; omega)
  rw [if_pos (by rw [hvi]; omega)] at hins
  refine ⟨{ v.touchAll (v.compared (x + gapSize true x + (size + 8))) with index := idx }, ?_, ?_,
    ?_, ?_⟩
  · rw [HeapState.allocN_succ hsz hnone, hgrow, ok_bind, HeapState.allocN_some hsz hsome, hcarve,
      hplace, hins, ok_bind]
    rfl
  · rw [HeapState.paging_touchAll, ← hv, ← hu]
    rfl
  · show (v.touchAll _).toHeap.startAddress = _
    have hstart : u.startAddress = s.startAddress := hr.startAddress
    rw [HeapState.toHeap_touchAll, ← hstart, ← hv]
    rfl
  · show (v.touchAll _).toHeap.endAddress = _
    rw [HeapState.toHeap_touchAll, ← hend, ← hv]
    rfl

/-! ## The run -/

namespace Kernel

variable {M : Kernel} {K k : Nat}

/-- The kernel heap when a request has taken the last hole. -/
def fullBlocks : List Block := [⟨false, 40⟩, ⟨true, 4052⟩, ⟨false, 8204⟩, ⟨false, 507896⟩]

theorem Initialized.alloc_rest {n : Nat} (h : Initialized n M) (rounds : Nat) (fresh : Mem) :
    ∃ M', perform rounds fresh (.alloc .kheap 507888 false) M = .ok M' ∧ SameKernel M M' ∧
      HeapAt M' .kheap 0xC0081000 kheapEnd fullBlocks := by
  obtain ⟨s, phys, ha, hs, hk, -⟩ := HeapAt.alloc rounds fresh
    [⟨false, 40⟩, ⟨true, 4052⟩, ⟨false, 8204⟩] 507888 false false h.kheap rfl (by decide)
    (by decide) (by decide) (by decide) (by decide) nofun
  refine ⟨_, ?_, hs, hk⟩
  show (allocInternal rounds fresh .kheap 507888 false false M >>= _) = _
  rw [ha]
  rfl

theorem HeapAt.one_hole {name : HeapName} {lo hi x n : Nat} {bs : List Block}
    (h : HeapAt M name lo hi bs) (hx : holes lo bs = [x])
    (hn : (x, ⟨true, n⟩) ∈ place Block.size lo bs) : ∃ g, M.allocator.heap name = some g ∧
      (M.heapState g).startAddress = lo ∧ (M.heapState g).endAddress = lo + extent Block.size bs ∧
      (M.heapState g).maxAddress = hi ∧ WF (M.heapState g) bs ∧
      (M.heapState g).index.items = [x] ∧ ((M.heapState g).header x).size = n := by
  obtain ⟨g, hg, hlo, hhi, hwf⟩ := h
  have hlo' : (M.heapState g).startAddress = lo := hlo
  have hf := hwf.fills
  have hi := hwf.index
  have ht := hwf.tags
  rw [hlo'] at hf hi ht
  rw [hx] at hi
  exact ⟨g, hg, hlo', hf.symm, hhi, hwf, List.perm_singleton.1 hi,
    congrArg Header.size (ht _ hn).header⟩

/-- **The next clone gets the memory of the first.** -/
theorem HeapAt.kallocPa_first (h : HeapAt M .kheap 0xC0081000 kheapEnd fullBlocks)
    (hb : Backed M.paging K k) (hk : k + 3 ≤ 32 * M.paging.frames.size) (hheld : Held HeapSlot M)
    (hcur : (M.paging.directories M.paging.currentDirectory).tables 768 ≠ 0) (rounds : Nat)
    (fresh : Mem) : ∃ phys M', kallocPa (rounds + 1) fresh sizeofDirectory M =
      .ok (firstClone, phys, M') ∧ SameTables M.paging M'.paging := by
  obtain ⟨g, hg, hlo', hend, hhi, hwf, hx, hn⟩ := h.one_hole (x := 0xC0081028) (n := 4052) rfl
    (by simp [fullBlocks])
  have hgr : growth (sizeofDirectory + 8) = 12288 := rfl
  obtain ⟨P, hP, hs, -⟩ := @HeapState.expandPages_returns 0xC0081000 532480 g.supervisor g.readonly
    (by decide) (by decide) 3 0x100001 520192 M.paging K k hb hk rfl
    (fun a h1 h2 => hheld _ ⟨by omega, by omega⟩) (by decide)
  obtain ⟨t, ht, htp, -⟩ := @WF.alloc_onto (M.heapState g) _ 0xC0081028 4052 sizeofDirectory rounds P
    fresh hwf hx hn (by decide) (by decide) (by decide) (by decide)
    (by rw [hend, hgr, hhi]; decide)
    (by rw [hhi]; decide)
    (by rw [hend, hgr, hlo']; exact hP) (by decide) (by decide)
  have hput : (M.putHeap .kheap t).paging = P := htp
  obtain ⟨phys, ha⟩ := allocInternal_heap true hg ht fun _ => getPhysicalAddress_ok (by
    rw [hput, hs.directories, hs.current]
    exact hcur)
  exact ⟨phys, _, ha, hput.symm ▸ hs⟩

/-- After `memory::Initialize` and a request that takes the rest of the kernel heap, `kalloc_pa` gives
the memory of the current directory for the next. -/
theorem rest_taken : ∃ M₀ M₁ M' phys,
    memoryInitialize 1 (fun _ => 0) 65536 (image 0x200000) = .ok M₀ ∧ Below M₀ ∧
    Initialized 512 M₀ ∧ SameKernel M₀ M₁ ∧
    Step M₀ ⟨1, fun _ => 0, .alloc .kheap 507888 false⟩ M₁ ∧
    kallocPa 1 (fun _ => 0) sizeofDirectory M₁ = .ok (firstClone, phys, M') ∧
    SameTables M₁.paging M'.paging := by
  obtain ⟨M₀, h₀, hb, hinit, K, k, hback, hk⟩ := image_initialized
  obtain ⟨M₁, h₁, hs₁, hat₁⟩ := hinit.alloc_rest 1 fun _ => 0
  have hP₁ := hs₁.paging
  obtain ⟨phys, M', ha, hs⟩ := hat₁.kallocPa_first (hP₁.symm ▸ hback)
    (by rw [hP₁, hinit.size]; omega) (fun s hs => hP₁.symm ▸ hinit.held s hs) (by
      rw [hP₁, hinit.current]
      exact (hinit.shared 768 (by decide)).1 ▸ hinit.held 768 ⟨by decide, by decide⟩) 0 fun _ => 0
  exact ⟨M₀, M₁, M', phys, h₀, hb, hinit, hs₁, ⟨trivial, h₁⟩, ha, hs⟩

end Kernel

end Dmanix
