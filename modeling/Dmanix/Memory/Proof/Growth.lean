import Dmanix.Memory.Proof.Collision

/-!
# What growth adds

`Alloc` gives the new bytes to the hole with the highest address, or makes a hole of them when there
is none. `GrewFree` says that this only adds free space: the allocations stay, and one hole at the
end holds the new bytes. It does exactly when the highest hole ends at `end_address` and stays below
2^22 bytes (`Laid.grewFree_iff`): a hole below the last block that was stretched over the blocks
behind it is not where the index lists it.
-/

namespace Dmanix

open Word32 Bytes Outcome Machine Paging Tiling

/-- **Growth from `s` to `t` only adds free space**: the heap is laid out up to its new end, the
allocations of `bs` are where they were, and one hole, new or the former last block, holds all bytes
from the old end on. -/
structure GrewFree (s t : HeapState) (bs : List Block) : Prop where
  start : t.startAddress = s.startAddress
  grows : s.endAddress < t.endAddress
  laid : ∃ bs', Laid t bs' ∧ (∀ a ∈ allocs s.startAddress bs, a ∈ allocs t.startAddress bs') ∧
    ∃ z k, (z, ⟨true, k⟩) ∈ place Block.size t.startAddress bs' ∧ z ≤ s.endAddress ∧
      t.endAddress ≤ z + k ∧
      (z = s.endAddress ∨ ∃ l b, bs = l ++ [b] ∧ z = s.startAddress + extent Block.size l)

/-- The last space of the heap can take the bytes growth adds for `newSize`. -/
def HeapState.LastTakes (s : HeapState) (newSize : Nat) : Prop :=
  s.lastSpace.1 + s.lastSpace.2 = s.endAddress ∧ s.lastSpace.2 + growth newSize < 4194304 ∧
    s.endAddress + growth newSize < 4294967296

section
variable {s t : HeapState} {bs : List Block} {w : Nat} {fresh : Mem}

theorem Laid.grewFree (h : Laid s bs) (hp : PageBounds s) (hw : 0 < w)
    (hg : s.grow w fresh = .ok t) (hok : s.LastTakes w) : GrewFree s t bs := by
  obtain ⟨he, h22, h32⟩ := hok
  rcases hls : s.lastSpace with ⟨x, n⟩
  rw [hls] at he h22
  simp only at he h22
  obtain ⟨l, P, hb, hx, ht, hgr, -, -⟩ := h.grow_ok hp hw hls he h22 h32 hg
  have hgw : 0 < growth w := by unfold growth; omega
  have hst := hgr.startAddress
  have hend := hgr.endAddress
  refine ⟨hst, by omega, _, ht, fun a ha => ?_, x, n + growth w, ?_, by omega, by omega, ?_⟩
  · rw [hb, allocs_append] at ha
    rw [hst, allocs_append]
    rcases List.mem_append.1 ha with ha | ha
    · exact List.mem_append_left _ ha
    · split at ha <;> simp [allocs_cons] at ha
  · rw [hst]
    exact mem_place_iff.2 ⟨l, [], rfl, hx⟩
  · by_cases h0 : n = 0
    · exact .inl (by omega)
    · rw [if_neg h0] at hb
      exact .inr ⟨l, _, hb, hx⟩

/-- An index entry that is the start of the last block is the highest hole, and ends the heap. -/
theorem Laid.last_entry (h : Laid s bs) {z : Nat} {l : List Block} {b : Block}
    (hz : z ∈ s.index.items) (hb : bs = l ++ [b]) (hl : z = s.startAddress + extent Block.size l) :
    s.lastHole = some z ∧ z + (s.header z).size = s.endAddress := by
  obtain ⟨n, hn⟩ := h.hole_mem hz
  have hmem : (z, b) ∈ place Block.size s.startAddress bs := mem_place_iff.2 ⟨l, [], hb, hl⟩
  have hpos : ∀ b ∈ bs, 0 < b.size := fun b hb =>
    Nat.lt_of_lt_of_le (by decide) (h.tags.pos b hb)
  have hbn : b = ⟨true, n⟩ := place_inj hpos hmem hn
  have hsize : (s.header z).size = n := congrArg Header.size (h.tags _ hn).header
  have hend : z + n = s.endAddress := by
    have hf := h.fills
    rw [hb, extent_append, extent_cons, extent_nil, hbn] at hf
    simp only at hf
    omega
  rw [hsize]
  refine ⟨?_, hend⟩
  cases hlast : s.lastHole with
  | none =>
    have hnil := HeapState.lastHole_none hlast fun y hy => by
      have := (h.hole_bounds hy).1
      omega
    rw [hnil] at hz
    cases hz
  | some y =>
    obtain ⟨hy, hle⟩ := HeapState.lastHole_some hlast
    have hyb := h.hole_bounds hy
    have hzy := hle z hz
    rcases Nat.eq_or_lt_of_le hzy with rfl | hlt
    · rfl
    · have := h.hole_apart hz hy hlt
      rw [show (header s.mem z).size = n from hsize] at this
      omega

theorem Laid.lastTakes (h : Laid s bs) (hp : PageBounds s) (hw : 0 < w) (hw' : w < 0x80000000)
    (hg : s.grow w fresh = .ok t) (hfree : GrewFree s t bs) : s.LastTakes w := by
  obtain ⟨hst, hgrows, bs', ht, -, z, k, hz, hze, hk, hwhere⟩ := hfree
  obtain ⟨-, hend, hidx⟩ := hp.grow_limits hw hw' h.top hg
  have htop := h.top
  have h32 : s.endAddress + growth w < 4294967296 := by
    have hgw : growth w = (w / 4096 + 1) * 4096 := rfl
    rw [hend] at hgrows
    unfold add32 at hgrows
    omega
  rw [add32_eq h32] at hend
  have hk22 : k < 4194304 := (ht.tags _ hz).lt
  cases hl : s.lastHole with
  | none =>
    refine ⟨?_, ?_, h32⟩
    · rw [HeapState.lastSpace, hl]
      rfl
    · rw [HeapState.lastSpace, hl]
      simp only
      omega
  | some x =>
    -- the index is what it was, so the hole is an old one
    have hzi : z ∈ s.index.items := by
      rw [← hidx (by rw [hl]; simp)]
      exact ht.index.mem_iff.2 (mem_holes.2 ⟨k, hz⟩)
    have hzb := h.hole_bounds hzi
    rcases hwhere with rfl | ⟨l, b, hb, hzl⟩
    · omega
    · obtain ⟨hlast, hends⟩ := h.last_entry hzi hb hzl
      rw [hl] at hlast
      cases hlast
      rw [show (header s.mem z).size = (s.header z).size from rfl] at hzb
      refine ⟨?_, ?_, h32⟩
      · rw [HeapState.lastSpace, hl]
        exact hends
      · rw [HeapState.lastSpace, hl]
        simp only
        omega

/-- **Growth only adds free space exactly when the last space can take it.** -/
theorem Laid.grewFree_iff {size : Nat} (h : Laid s bs) (hp : PageBounds s) (hsz : size ≤ 0x400000)
    (hg : s.grow (size + 8) fresh = .ok t) : GrewFree s t bs ↔ s.LastTakes (size + 8) :=
  ⟨h.lastTakes hp (by omega) (by omega) hg, h.grewFree hp (by omega) hg⟩

end

/-! ## Growth of the kernel's heaps -/

namespace Kernel

variable {M : Kernel} {K k : Nat}

theorem HeapAt.grow_one {name : HeapName} {lo hi x n w m : Nat} {bs : List Block}
    (h : HeapAt M name lo hi bs) (hx : holes lo bs = [x])
    (hn : (x, ⟨true, n⟩) ∈ place Block.size lo bs) (hw : growth w = 4096 * m) (hw0 : 0 < w)
    (h22 : n + growth w < 4194304) (hlo : 0xC0000000 ≤ lo) (hhi : hi ≤ 0xE0000000)
    (hlim : lo + extent Block.size bs + growth w ≤ hi) (hb : Backed M.paging K k)
    (hk : k + m ≤ 32 * M.paging.frames.size) (hheld : Held HeapSlot M) (fresh : Mem) :
    ∃ g t, M.allocator.heap name = some g ∧
      (M.heapState g).endAddress = lo + extent Block.size bs ∧ WF (M.heapState g) bs ∧
      (M.heapState g).index.items = [x] ∧ ((M.heapState g).header x).size = n ∧
      (M.heapState g).grow w fresh = .ok t := by
  obtain ⟨g, hg, hst, hend, hmax, hwf, hit, hsize⟩ := h.one_hole hx hn
  obtain ⟨P, hP, -⟩ := @HeapState.expandPages_returns (M.heapState g).startAddress
    ((M.heapState g).endAddress + growth w - (M.heapState g).startAddress) g.supervisor g.readonly
    (by omega) (by omega) m 0x100001
    ((M.heapState g).endAddress - (M.heapState g).startAddress) M.paging K k hb hk (by omega)
    (fun a h1 h2 => hheld _ ⟨by omega, by omega⟩) (by omega)
  have hx0 := (hwf.laid.hole_bounds (hit ▸ List.mem_singleton.2 rfl)).1
  obtain ⟨hgrow, -⟩ := @Laid.grow_onto (M.heapState g) bs x n w P fresh hwf.laid
    hwf.pageBounds (HeapState.lastHole_one hit (by omega)) hsize hw0 h22 (by omega) (by omega) hP
  exact ⟨g, _, hg, hend, hwf, hit, hsize, hgrow⟩

theorem lastSpace_one {s : HeapState} {x n : Nat} (hit : s.index.items = [x])
    (hn : (s.header x).size = n) (hx : 0 < x) : s.lastSpace = (x, n) := by
  rw [HeapState.lastSpace, HeapState.lastHole_one hit hx, ← hn]

/-- The user heap after `memory::Initialize` grows by a page. -/
theorem grewFree_user : ∃ (s t : HeapState) (bs : List Block), Laid s bs ∧ PageBounds s ∧
    s.grow (8 + 8) (fun _ => 0) = .ok t ∧ GrewFree s t bs := by
  obtain ⟨M, -, -, hinit, K, k, hback, hk⟩ := image_initialized
  obtain ⟨g, t, -, hend, hwf, hit, hn, hgrow⟩ := hinit.uheap.grow_one (w := 8 + 8) (m := 1)
    (x := 0xD0081000) (n := 3665920) rfl (by simp [uheapBlocks]) rfl (by decide) (by decide)
    (by decide) (by decide) (by decide) hback (by rw [hinit.size]; omega) hinit.held fun _ => 0
  have hl := lastSpace_one hit hn (by decide)
  have hok : (M.heapState g).LastTakes (8 + 8) := by
    unfold HeapState.LastTakes
    rw [hl, hend]
    decide
  exact ⟨_, t, _, hwf.laid, hwf.pageBounds, hgrow,
    (hwf.laid.grewFree_iff hwf.pageBounds (by decide) hgrow).2 hok⟩

/-- **A hole stretched over the block behind it**: after a request that takes the last hole of the
kernel heap exactly, a page-aligned request for a directory is not found. The growth for it gives the
new bytes to the hole below the first clone. -/
theorem stretched_over_clone : ∃ M₀ M₁ g t, Started M₀ ∧
    Step M₀ ⟨1, fun _ => 0, .alloc .kheap 507888 false⟩ M₁ ∧ M₁.allocator.heap .kheap = some g ∧
    Laid (M₁.heapState g) fullBlocks ∧ PageBounds (M₁.heapState g) ∧
    (M₁.heapState g).findSmallestHole (sizeofDirectory + 8) true = none ∧
    (M₁.heapState g).grow (sizeofDirectory + 8) (fun _ => 0) = .ok t ∧
    ¬ GrewFree (M₁.heapState g) t fullBlocks := by
  obtain ⟨M₀, h₀, hb, hinit, K, k, hback, hk⟩ := image_initialized
  have hst : Started M₀ := ⟨_, _, _, _, start_image (by decide) (by decide), h₀, hb⟩
  obtain ⟨M₁, h₁, hs₁, hat₁⟩ := hinit.alloc_rest 1 fun _ => 0
  have hP₁ := hs₁.paging
  obtain ⟨g, t, hg, hend, hwf, hit, hn, hgrow⟩ := hat₁.grow_one (w := sizeofDirectory + 8) (m := 3)
    (x := 0xC0081028) (n := 4052) rfl (by simp [fullBlocks]) rfl (by decide) (by decide)
    (by decide) (by decide) (by decide) (hP₁.symm ▸ hback) (by rw [hP₁, hinit.size]; omega)
    (fun s hs => hP₁.symm ▸ hinit.held s hs) fun _ => 0
  refine ⟨M₀, M₁, g, t, hst, ⟨trivial, h₁⟩, hg, hwf.laid, hwf.pageBounds,
    hwf.laid.none_found hit hn (by decide) (by decide), hgrow, fun hfree => ?_⟩
  have hok := (hwf.laid.lastTakes hwf.pageBounds (by decide) (by decide) hgrow hfree).1
  rw [lastSpace_one hit hn (by decide), hend] at hok
  exact absurd hok (by decide)

end Kernel

end Dmanix
