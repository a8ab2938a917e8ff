import Dmanix.Memory.Proof.Clients
import Dmanix.Memory.Proof.Growth

/-!
# Stored sizes

Along a run of good calls every value assigned to a size field fits its 22 bits and is the distance
to the next block (`stored_run`). A hole that growth stretches to 2^22 bytes or more does not fit: the
field keeps the rest (`grow_cut`), and `Alloc` goes on with it (`stored_too_large`).
-/

namespace Dmanix

open Word32 Bytes Tiling Paging

namespace HeapState

/-! ## Growth cut to 22 bits -/

section
variable {s : HeapState} {x n g k : Nat} {hole : Bool}

/-- `addSpace` for the highest hole, whose size field keeps `k` of the `n + g` bytes. -/
theorem addSpace_cut {e : Nat} (hx : s.lastHole = some x) (hh : s.header x = ⟨0x1FF, hole, n⟩)
    (hn : n + g < 4294967296) (hk : (n + g) % 4194304 = k) (h8 : 8 ≤ k)
    (h32 : x + k < 4294967296) : ∃ t, s.addSpace e g = .ok t ∧ t.toHeap = s.toHeap ∧
      t.paging = s.paging ∧ t.header x = ⟨0x1FF, hole, k⟩ ∧ t.stored = k :: (n + g) :: s.stored := by
  have hadd : add32 (s.header x).size g = n + g := by
    rw [hh]
    exact add32_eq hn
  have hhd : (s.storeHeaderSize x (n + g)).header x = ⟨0x1FF, hole, k⟩ := by
    show Dmanix.header (setHeader s.mem x { s.header x with size := n + g }) x = _
    rw [header_setHeader, hh, ← hk]
    rfl
  have hf : sub32 (add32 x k) 4 = x + k - 4 := by
    rw [add32_eq h32, sub32_eq (by omega) h32]
  refine ⟨((s.storeHeaderSize x (n + g)).storeFooterSize (x + k - 4) k).storeFooterMagic
    (x + k - 4), ?_, rfl, rfl, ?_, rfl⟩
  · unfold addSpace
    rw [hx]
    simp only [hadd, hhd, hf]
  · exact ((header_setFooter_apart (by omega)).trans (header_setFooter_apart (by omega))).trans hhd

theorem grow_cut {w : Nat} {P : Paging} (fresh : Mem) (hb : PageBounds s) (hx : s.lastHole = some x)
    (hh : s.header x = ⟨0x1FF, hole, n⟩) (hxe : x + 4 ≤ s.endAddress) (hw : 0 < w)
    (hn : n + growth w < 4294967296) (hk : (n + growth w) % 4194304 = k) (h8 : 8 ≤ k)
    (hlim : s.endAddress + growth w ≤ s.maxAddress) (hmax : s.maxAddress < 4294967296)
    (hk32 : x + k < 4294967296)
    (hP : expandPages s.startAddress (s.endAddress + growth w - s.startAddress) s.supervisor
      s.readonly 0x100001 (s.endAddress - s.startAddress) s.paging = .ok P) :
    ∃ t, s.grow w fresh = .ok t ∧
      t.toHeap = { s.toHeap with endAddress := s.endAddress + growth w } ∧ t.paging = P ∧
      t.header x = ⟨0x1FF, hole, k⟩ ∧ t.stored = k :: (n + growth w) :: s.stored := by
  have hxh : (s.extended P (growth w) fresh).header x = ⟨0x1FF, hole, n⟩ :=
    (header_off (s.off_extended P (growth w) fresh) (.inl hxe)).trans hh
  obtain ⟨t, ht, hheap, hpag, hhd, hst⟩ := addSpace_cut (e := s.endAddress) (g := growth w)
    (show (s.extended P (growth w) fresh).lastHole = some x from hx) hxh hn hk h8 hk32
  refine ⟨t, ?_, hheap, hpag, hhd, hst⟩
  rw [hb.grow_eq hw (by omega), decide_eq_true hlim, assert_true, ok_bind, hP]
  exact ht

end

/-! ## A cut returns -/

/-- `t` has the values stored in `s`, and an index of the same capacity with at most the items. -/
structure Later (s t : HeapState) : Prop where
  stored : ∀ v ∈ s.stored, v ∈ t.stored
  size : t.index.size ≤ s.index.size
  capacity : t.index.capacity = s.index.capacity

section
variable {s t u : HeapState}

theorem Later.trans (h : Later s t) (h' : Later t u) : Later s u :=
  ⟨fun v hv => h'.stored v (h.stored v hv), h'.size.trans h.size, h'.capacity.trans h.capacity⟩

theorem Later.of_eq (h : t.toHeap = s.toHeap) (hv : ∃ l, t.stored = l ++ s.stored) : Later s t := by
  obtain ⟨l, hl⟩ := hv
  have hi : t.index = s.index := congrArg Heap.index h
  refine ⟨fun v hv => ?_, by rw [hi], by rw [hi]⟩
  rw [hl]
  exact List.mem_append_right l hv

theorem writeBlock_later (s : HeapState) (x f n : Nat) (hole : Bool) :
    Later s ((s.storeHeader x ⟨0x1FF, hole, n⟩).sealFooter f x) :=
  .of_eq rfl ⟨[_, _], rfl⟩

variable {x i size newSize : Nat} {pageAlign : Bool}

theorem indexInsert_returns (x : Nat) (h : s.index.size + 1 < s.index.capacity) :
    ∃ t, s.indexInsert x = .ok t ∧ t.stored = s.stored := by
  obtain ⟨idx, -, -, -, he⟩ := indexInsert_eq x (show s.index.size < s.index.capacity by omega)
  rw [he, if_pos h]
  refine ⟨_, rfl, ?_⟩
  show (s.touchAll _).stored = _
  exact stored_touchAll _ _

theorem openGap_returns {pos n : Nat} (hi : i < s.index.size) (hs : s.index.size < s.index.capacity)
    (hc : s.index.capacity ≤ 0x20000) :
    ∃ t pos' n', s.openGap i pos n pageAlign = .ok (t, pos', n') ∧ Later s t := by
  unfold openGap
  split
  · exact ⟨_, _, _, rfl, writeBlock_later _ _ _ _ _⟩
  · obtain ⟨idx, -, hcap, hsz, he⟩ := indexRemove_eq hi hs hc
    rw [he]
    exact ⟨_, _, _, rfl, fun v hv => hv, hsz.le.trans (Nat.sub_le _ _), hcap⟩

theorem placeBlock_returns {pos n : Nat} (h : s.index.size + 1 < s.index.capacity) :
    ∃ p t, s.placeBlock pos n size newSize = .ok (p, t) ∧ ∀ v ∈ s.stored, v ∈ t.stored := by
  have hb := writeBlock_later s pos (add32 (add32 pos 4) size) newSize false
  unfold placeBlock
  dsimp only
  generalize (s.storeHeader pos ⟨0x1FF, false, newSize⟩).sealFooter
    (add32 (add32 pos 4) size) pos = u at hb ⊢
  by_cases hr : sub32 n newSize > 0
  · rw [if_pos hr]
    generalize add32 (add32 (add32 pos 4) size) 4 = x
    -- the footer of the rest, below the end of the heap
    obtain ⟨v, hv, hlater⟩ : ∃ v, (if sub32 (add32 x (sub32 n newSize)) 4 <
        (u.storeHeader x ⟨0x1FF, true, sub32 n newSize⟩).endAddress then
        (u.storeHeader x ⟨0x1FF, true, sub32 n newSize⟩).sealFooter
          (sub32 (add32 x (sub32 n newSize)) 4) x
        else u.storeHeader x ⟨0x1FF, true, sub32 n newSize⟩) = v ∧ Later u v := by
      refine ⟨_, rfl, ?_⟩
      split
      · exact writeBlock_later _ _ _ _ _
      · exact .of_eq rfl ⟨[_], rfl⟩
    have hall := hb.trans hlater
    obtain ⟨t, ht, hst⟩ := indexInsert_returns (s := v) x (by
      have := hall.size
      have := hall.capacity
      omega)
    rw [hv, ht]
    exact ⟨_, t, rfl, fun w hw => hst ▸ hall.stored w hw⟩
  · rw [if_neg hr]
    exact ⟨_, u, rfl, hb.stored⟩

/-- **`Alloc` returns** once a hole is found, while the index has room. -/
theorem carve_room (hi : i < s.index.size) (hs : s.index.size + 1 < s.index.capacity)
    (hc : s.index.capacity ≤ 0x20000) : ∃ p t, s.carve i size newSize pageAlign = .ok (p, t) ∧
      ∀ v ∈ s.stored, v ∈ t.stored := by
  have hlk := OrderedArray.lookup_ok hi (show s.index.size ≤ s.index.capacity by omega)
  unfold carve
  rw [hlk]
  simp only [lift, Except.mapError, ok_bind]
  obtain ⟨u, pos, n, hu, hlater⟩ := @openGap_returns s i pageAlign (s.index.array i)
    (s.header (s.index.array i)).size hi (by omega) hc
  rw [hu, ok_bind]
  obtain ⟨p, t, ht, hst⟩ := @placeBlock_returns u
    (if sub32 (s.header (s.index.array i)).size newSize < 8 then
      add32 size (sub32 (s.header (s.index.array i)).size newSize) else size)
    (if sub32 (s.header (s.index.array i)).size newSize < 8 then
      (s.header (s.index.array i)).size else newSize) pos n (by
      have := hlater.size
      have := hlater.capacity
      omega)
  exact ⟨p, t, ht, fun v hv => hst v (hlater.stored v hv)⟩

end

theorem find_one {s : HeapState} {x size : Nat} (hx : s.index.items = [x]) :
    s.findSmallestHole size false = if size ≤ (s.header x).size then some 0 else none := by
  unfold findSmallestHole fits
  rw [hx, List.findIdx?_singleton]
  simp

end HeapState

namespace Clients

section
variable {c : Clients} {start endAddr max : Nat} {supervisor readonly : Bool} {mem : Mem} {P : Paging}
  {s : HeapState}

/-- **No stored size is cut**, along every run of good calls on a new heap: what was stored fits the
field, and a header's size leads to the next header, the last one's to `end_address`. -/
theorem stored_run (hc : Heap.CreateOk start endAddr)
    (hs : Heap.create start endAddr max supervisor readonly mem P = .ok s)
    (hr : Guarded.Run Step CallOk ⟨s, []⟩ c) : (∀ v ∈ c.heap.stored, v < 4194304) ∧
      ∃ hs, c.heap.Walk hs ∧ ∀ h ∈ hs, c.heap.Verified h := by
  obtain ⟨bs, h⟩ := held_run hc hs hr
  refine ⟨h.wf.stored, _, h.wf.laid.walk, fun x hx => ?_⟩
  obtain ⟨p, hp, rfl⟩ := List.mem_map.1 hx
  exact h.wf.laid.verified hp

end

theorem stored_run_freed : ∃ s c, Heap.create 0xC0000000 0xC0100000 0xCFFFF000 false false
      (fun _ => 0) Frames.blank = .ok s ∧ Guarded.Run Step CallOk ⟨s, []⟩ c ∧
    c.live = [(0xC00810E4, 16), (0xC0081088, 16), (0xC0081004, 16)] ∧
    ∀ v ∈ c.heap.stored, v < 4194304 := by
  obtain ⟨s, c, hs, hr, hl, -⟩ := run_freed
  exact ⟨s, c, hs, hr, hl, (stored_run (by decide) hs hr).1⟩

/-- `Alloc` grows the new kernel heap twice for a request of 0x38F000 bytes: to 0x40F000 bytes, of
which the size field keeps 0xF000, and to 0x39F000. -/
theorem grown_twice {P : Paging} {K k : Nat} (hb : Backed P K k)
    (hk : k + 1824 ≤ 32 * P.frames.size)
    (hT : ∀ i, Kernel.HeapSlot i → P.kernelTable i ≠ 0) :
    ∃ s p t, Heap.create 0xC0000000 0xC0100000 0xCFFFF000 false false (fun _ => 0) P = .ok s ∧
      s.allocN 2 0x38F000 false (fun _ => 0) = .ok (p, t) ∧ 0x40F000 ∈ t.stored := by
  obtain ⟨s, hs⟩ := Heap.create_returns 0xCFFFF000 false false (fun _ => 0) P
    (show 0xC0000000 % 4096 = 0 by decide) (show 0xC0100000 % 4096 = 0 by decide)
  obtain ⟨hwf, hpag, hst, hen, hmax, -⟩ := Heap.create_ok (by decide) (by decide) (by decide) hs
  -- the one hole
  have hit : s.index.items = [0xC0081000] := by
    have hp := hwf.index
    rw [hst] at hp
    exact List.perm_singleton.1 (by simpa [holes_cons] using hp)
  have hh : s.header 0xC0081000 = ⟨0x1FF, true, 0x7F000⟩ := by
    have ht := hwf.tags
    rw [allTagged_single, hst] at ht
    exact ht.header
  have hone : s.index.size = 1 := by
    rw [← OrderedArray.length_items, hit]
    rfl
  have hcap := hwf.capacity
  have hgr : growth (0x38F000 + 8) = 0x390000 := rfl
  -- the first growth
  obtain ⟨P₁, hP₁, hs₁, k₁, hk₁, hb₁⟩ := @HeapState.expandPages_returns 0xC0081000 0x40F000
    s.supervisor s.readonly (by decide) (by decide) 0x390 0x100001 0x7F000 P K k hb (by omega) rfl
    (fun a h1 h2 => hT _ ⟨by omega, by omega⟩) (by decide)
  obtain ⟨t₁, ht₁, hheap₁, hpag₁, hh₁, hst₁⟩ := HeapState.grow_cut (w := 0x38F000 + 8) (k := 0xF000)
    (fun _ => 0) hwf.toTiled.pageBounds (HeapState.lastHole_one hit (by decide)) hh
    (by rw [hen]; decide) (by decide) (by decide) (by decide) (by decide)
    (by rw [hen, hmax]; decide) (by rw [hmax]; decide) (by decide)
    (by rw [hgr, hst, hen, hpag]; exact hP₁)
  have hidx₁ : t₁.index = s.index := (congrArg Heap.index hheap₁ :)
  have hsa₁ : t₁.startAddress = 0xC0081000 := (congrArg Heap.startAddress hheap₁ :).trans hst
  have hen₁ : t₁.endAddress = 0xC0490000 := by
    rw [(congrArg Heap.endAddress hheap₁ :), hgr, hen]
  have hmax₁ : t₁.maxAddress = 0xCFFFF000 := (congrArg Heap.maxAddress hheap₁ :).trans hmax
  -- the second growth
  obtain ⟨P₂, hP₂, -⟩ := @HeapState.expandPages_returns 0xC0081000 0x79F000 t₁.supervisor
    t₁.readonly (by decide) (by decide) 0x390 0x100001 0x40F000 P₁ K k₁ hb₁
    (by rw [hs₁.size]; omega) rfl
    (fun a h1 h2 => hs₁.kernelTable _ ▸ hT _ ⟨by omega, by omega⟩) (by decide)
  obtain ⟨t₂, ht₂, hheap₂, -, hh₂, hst₂⟩ := HeapState.grow_cut (w := 0x38F000 + 8) (k := 0x39F000)
    (fun _ => 0) ⟨by rw [hsa₁, hen₁]; decide, by rw [hsa₁], by rw [hen₁]⟩
    (HeapState.lastHole_one (hidx₁ ▸ hit) (by decide)) hh₁
    (by rw [hen₁]; decide) (by decide) (by decide) (by decide) (by decide)
    (by rw [hen₁, hmax₁]; decide) (by rw [hmax₁]; decide) (by decide)
    (by rw [hgr, hsa₁, hen₁, hpag₁]; exact hP₂)
  have hidx₂ : t₂.index = s.index := (congrArg Heap.index hheap₂ :).trans hidx₁
  -- the block
  have hnone : s.findSmallestHole (0x38F000 + 8) false = none := by
    rw [HeapState.find_one hit, hh]
    rfl
  have hnone₁ : t₁.findSmallestHole (0x38F000 + 8) false = none := by
    rw [HeapState.find_one (hidx₁ ▸ hit), hh₁]
    rfl
  have hsome : t₂.findSmallestHole (0x38F000 + 8) false = some 0 := by
    rw [HeapState.find_one (hidx₂ ▸ hit), hh₂]
    rfl
  obtain ⟨p, t, ht, hsub⟩ := @HeapState.carve_room t₂ 0 0x38F000 (0x38F000 + 8) false
    (by rw [hidx₂, hone]; decide)
    (by rw [hidx₂, hone, hcap]; decide) (by rw [hidx₂, hcap])
  refine ⟨s, p, t, hs, ?_, hsub _ ?_⟩
  · rw [HeapState.allocN_succ (by decide) hnone, ht₁, ok_bind,
      HeapState.allocN_succ (by decide) hnone₁, ht₂, ok_bind,
      HeapState.allocN_some (by decide) hsome, ht]
  · rw [hst₂, hst₁, hgr]
    simp

/-- **A stored size that is cut**: the kernel heap, on the pages `memory::Initialize` makes, stores
0x40F000 in a size field of 22 bits. -/
theorem stored_too_large : ∃ M s c, Kernel.memoryInitialize 1 (fun _ => 0) 65536
      (Kernel.image 0x200000) = .ok M ∧
    Heap.create 0xC0000000 0xC0100000 0xCFFFF000 false false (fun _ => 0) M.paging = .ok s ∧
    Guarded.Run Step (fun _ _ => True) ⟨s, []⟩ c ∧ ∃ v ∈ c.heap.stored, 4194304 ≤ v := by
  obtain ⟨M, hM, -, hinit, K, k, hb, hk⟩ := Kernel.image_initialized
  obtain ⟨s, p, t, hs, ha, hv⟩ := grown_twice hb (by rw [hinit.size]; omega) hinit.held
  exact ⟨M, s, ⟨t, [(p, 0x38F000)]⟩, hM, hs,
    .tail (i := .alloc 0x38F000 false 2 fun _ => 0) .refl trivial (.alloc ha), _, hv, by decide⟩

end Clients

end Dmanix
