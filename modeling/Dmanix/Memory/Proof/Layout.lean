import Dmanix.Memory.Proof.Tags
import Dmanix.Lib.Tiling

/-!
# The heap as a list of blocks

The abstract heap is the list of its blocks in address order. `Tiled s bs`: the blocks `bs` fill
`[start_address, end_address)`, each with its header and footer in memory (`Tagged`). `WF s bs`
adds that the index lists the holes of `bs`, each once; `Laid s bs` is what of it does not speak of
the past or of pages.

A step of the allocator rewrites a run of consecutive blocks: `Rewrote s s' lo hi` says what it
leaves alone, and `Laid.edit` that new tagged blocks of the same total size in place of the old
ones tile the heap again. `writeBlock` is the store both `Alloc` and the constructor make: a header
and its footer.
-/

namespace Dmanix

open Word32 Bytes Tiling

/-- A block of the heap: a hole or an allocation, with its size, tags included. -/
structure Block where
  hole : Bool
  size : Nat
  deriving DecidableEq, Repr

/-- The block `b` at `x` has its tags in memory. -/
structure Tagged (m : Mem) (x : Nat) (b : Block) : Prop where
  least : 8 ≤ b.size
  lt : b.size < 4194304
  header : header m x = ⟨0x1FF, b.hole, b.size⟩
  magic : (footer m (x + b.size - 4)).magic = 0x1FF
  size : (footer m (x + b.size - 4)).size = b.size

/-- All blocks from `a` on have their tags. -/
def AllTagged (m : Mem) (a : Nat) (bs : List Block) : Prop :=
  ∀ p ∈ place Block.size a bs, Tagged m p.1 p.2

/-- The addresses of the holes. -/
def holes (a : Nat) (bs : List Block) : List Nat :=
  ((place Block.size a bs).filter (·.2.hole)).map (·.1)

/-- The addresses and sizes of the allocated blocks. -/
def allocs (a : Nat) (bs : List Block) : List (Nat × Nat) :=
  ((place Block.size a bs).filter (!·.2.hole)).map fun p => (p.1, p.2.size)

/-- The blocks tile the heap's extent. -/
structure Tiled (s : HeapState) (bs : List Block) : Prop where
  tags : AllTagged s.mem s.startAddress bs
  fills : s.startAddress + extent Block.size bs = s.endAddress
  top : s.endAddress < 4294967296
  low : 4096 ≤ s.startAddress
  room : s.startAddress < s.endAddress
  startPage : s.startAddress % 4096 = 0
  endPage : s.endAddress % 4096 = 0
  slots : s.index.size < s.index.capacity
  capacity : s.index.capacity = 0x20000
  stored : ∀ v ∈ s.stored, v < 4194304

/-- **The heap invariant**: tiled, and the index lists exactly the holes. -/
structure WF (s : HeapState) (bs : List Block) : Prop extends Tiled s bs where
  index : s.index.items.Perm (holes s.startAddress bs)

/-- Tagged blocks fill the heap's extent, and the index lists exactly the holes. -/
structure Laid (s : HeapState) (bs : List Block) : Prop where
  tags : AllTagged s.mem s.startAddress bs
  fills : s.startAddress + extent Block.size bs = s.endAddress
  top : s.endAddress < 4294967296
  low : 4096 ≤ s.startAddress
  slots : s.index.size < s.index.capacity
  capacity : s.index.capacity ≤ 0x20000
  index : s.index.items.Perm (holes s.startAddress bs)

/-- The heap's limits are page boundaries. -/
structure PageBounds (s : HeapState) : Prop where
  room : s.startAddress < s.endAddress
  startPage : s.startAddress % 4096 = 0
  endPage : s.endAddress % 4096 = 0

theorem WF.laid {s : HeapState} {bs : List Block} (h : WF s bs) : Laid s bs :=
  ⟨h.tags, h.fills, h.top, h.low, h.slots, h.capacity.le, h.index⟩

theorem Tiled.pageBounds {s : HeapState} {bs : List Block} (h : Tiled s bs) : PageBounds s :=
  ⟨h.room, h.startPage, h.endPage⟩

/-! ## Lists of blocks -/

theorem Tagged.off {m m' : Mem} {lo hi x : Nat} {b : Block} (h : Tagged m x b)
    (ho : Off lo hi m m') (hx : x + b.size ≤ lo ∨ hi ≤ x) : Tagged m' x b := by
  have h8 := h.least
  refine ⟨h.least, h.lt, ?_, ?_, ?_⟩
  · rw [header_off ho (by omega)]; exact h.header
  · rw [footer_off ho (by omega)]; exact h.magic
  · rw [footer_off ho (by omega)]; exact h.size

theorem allTagged_append {m : Mem} {a : Nat} {l r : List Block} :
    AllTagged m a (l ++ r) ↔ AllTagged m a l ∧ AllTagged m (a + extent Block.size l) r := by
  unfold AllTagged
  rw [place_append]
  simp only [List.mem_append]
  exact ⟨fun h => ⟨fun p hp => h p (.inl hp), fun p hp => h p (.inr hp)⟩,
    fun h p hp => hp.elim (h.1 p) (h.2 p)⟩

theorem allTagged_cons {m : Mem} {a : Nat} {b : Block} {bs : List Block} :
    AllTagged m a (b :: bs) ↔ Tagged m a b ∧ AllTagged m (a + b.size) bs := by
  unfold AllTagged
  rw [place_cons, List.forall_mem_cons]

theorem allTagged_single {m : Mem} {a : Nat} {b : Block} : AllTagged m a [b] ↔ Tagged m a b := by
  rw [allTagged_cons]
  exact ⟨And.left, fun h => ⟨h, fun p hp => by cases hp⟩⟩

theorem AllTagged.off {m m' : Mem} {lo hi a : Nat} {bs : List Block} (h : AllTagged m a bs)
    (ho : Off lo hi m m') (hx : a + extent Block.size bs ≤ lo ∨ hi ≤ a) : AllTagged m' a bs :=
  fun p hp => (h p hp).off ho (by have := place_bounds hp; omega)

theorem AllTagged.pos {m : Mem} {a : Nat} {bs : List Block} (h : AllTagged m a bs) :
    ∀ b ∈ bs, 8 ≤ b.size := fun b hb => by
  obtain ⟨l, r, rfl⟩ := List.append_of_mem hb
  exact (h (a + extent Block.size l, b) (mem_place_iff.2 ⟨l, r, rfl, rfl⟩)).least

/-- **Editing a run of blocks.** -/
theorem AllTagged.edit {m m' : Mem} {a : Nat} {l mid mid' r : List Block}
    (h : AllTagged m a (l ++ (mid ++ r)))
    (he : extent Block.size mid' = extent Block.size mid)
    (ho : Off (a + extent Block.size l) (a + extent Block.size l + extent Block.size mid) m m')
    (hm : AllTagged m' (a + extent Block.size l) mid') : AllTagged m' a (l ++ (mid' ++ r)) := by
  rw [allTagged_append, allTagged_append] at h ⊢
  refine ⟨h.1.off ho (.inl (Nat.le_refl _)), hm, ?_⟩
  rw [he]
  exact h.2.2.off ho (.inr (Nat.le_refl _))

theorem holes_append (a : Nat) (l r : List Block) :
    holes a (l ++ r) = holes a l ++ holes (a + extent Block.size l) r := by
  simp [holes, place_append]

theorem holes_cons (a : Nat) (b : Block) (bs : List Block) :
    holes a (b :: bs) = (if b.hole then [a] else []) ++ holes (a + b.size) bs := by
  unfold holes
  rw [place_cons, List.filter_cons]
  cases b.hole <;> simp

theorem allocs_append (a : Nat) (l r : List Block) :
    allocs a (l ++ r) = allocs a l ++ allocs (a + extent Block.size l) r := by
  simp [allocs, place_append]

theorem allocs_cons (a : Nat) (b : Block) (bs : List Block) :
    allocs a (b :: bs) = (if b.hole then [] else [(a, b.size)]) ++ allocs (a + b.size) bs := by
  unfold allocs
  rw [place_cons, List.filter_cons]
  cases b.hole <;> simp

@[simp] theorem holes_nil (a : Nat) : holes a [] = [] := rfl

@[simp] theorem allocs_nil (a : Nat) : allocs a [] = [] := rfl

theorem mem_holes {a x : Nat} {bs : List Block} :
    x ∈ holes a bs ↔ ∃ n, (x, ⟨true, n⟩) ∈ place Block.size a bs := by
  simp only [holes, List.mem_map, List.mem_filter]
  constructor
  · rintro ⟨⟨x, h, n⟩, ⟨hp, hh⟩, rfl⟩
    simp only at hh
    subst hh
    exact ⟨n, hp⟩
  · rintro ⟨n, hp⟩
    exact ⟨_, ⟨hp, rfl⟩, rfl⟩

theorem mem_allocs {a x n : Nat} {bs : List Block} :
    (x, n) ∈ allocs a bs ↔ (x, ⟨false, n⟩) ∈ place Block.size a bs := by
  simp only [allocs, List.mem_map, List.mem_filter, Prod.mk.injEq]
  constructor
  · rintro ⟨⟨x, h, n⟩, ⟨hp, hh⟩, rfl, rfl⟩
    simp only [Bool.not_eq_true'] at hh
    subst hh
    exact hp
  · intro hp
    exact ⟨_, ⟨hp, rfl⟩, rfl, rfl⟩

/-! ## What a step leaves alone -/

/-- `s'` is `s` but for the memory in `[lo, hi)`, the index and the ghosts; nothing was cut by a
size field. -/
structure Rewrote (s s' : HeapState) (lo hi : Nat) : Prop where
  heap : s'.toHeap = { s.toHeap with index := s'.index }
  capacity : s'.index.capacity = s.index.capacity
  paging : s'.paging = s.paging
  off : Off lo hi s.mem s'.mem
  stored : ∀ v ∈ s'.stored, v ∈ s.stored ∨ v < 4194304

namespace Rewrote

variable {s s' s'' : HeapState} {lo hi : Nat}

theorem startAddress (h : Rewrote s s' lo hi) : s'.startAddress = s.startAddress :=
  (congrArg Heap.startAddress h.heap :)

theorem endAddress (h : Rewrote s s' lo hi) : s'.endAddress = s.endAddress :=
  (congrArg Heap.endAddress h.heap :)

theorem maxAddress (h : Rewrote s s' lo hi) : s'.maxAddress = s.maxAddress :=
  (congrArg Heap.maxAddress h.heap :)

theorem refl (s : HeapState) (lo hi : Nat) : Rewrote s s lo hi :=
  ⟨rfl, rfl, rfl, .refl _ _ _, fun _ hv => .inl hv⟩

theorem trans (h : Rewrote s s' lo hi) (h' : Rewrote s' s'' lo hi) : Rewrote s s'' lo hi := by
  refine ⟨by rw [h'.heap, h.heap], h'.capacity.trans h.capacity, h'.paging.trans h.paging,
    h.off.trans h'.off, fun v hv => ?_⟩
  exact (h'.stored v hv).elim (h.stored v) .inr

theorem mono {lo' hi' : Nat} (h : Rewrote s s' lo hi) (hl : lo' ≤ lo) (hh : hi ≤ hi') :
    Rewrote s s' lo' hi' := ⟨h.heap, h.capacity, h.paging, h.off.mono hl hh, h.stored⟩

/-- Recording accesses and changing the index rewrites nothing. -/
theorem withIndex (s : HeapState) (as : List Nat) (idx : OrderedArray Nat)
    (hc : idx.capacity = s.index.capacity) (lo hi : Nat) :
    Rewrote s { s.touchAll as with index := idx } lo hi := by
  refine ⟨by simp, hc, by simp, by simp [Off.refl], fun v hv => .inl ?_⟩
  simpa using hv

end Rewrote

/-- What `Insert` into the index does to the heap, when it returns. -/
theorem HeapState.indexInsert_ok {s t : HeapState} {x : Nat}
    (hs : s.index.size < s.index.capacity) (h : s.indexInsert x = .ok t) (lo hi : Nat) :
    Rewrote s t lo hi ∧ t.mem = s.mem ∧ t.index.size < t.index.capacity ∧
      t.index.items = s.index.items.orderedInsert (SizeLe t.mem) x := by
  obtain ⟨idx, hit, hcap, hsz, hins⟩ := indexInsert_eq x hs
  rw [hins] at h
  split at h
  · rename_i hlt
    cases h
    refine ⟨Rewrote.withIndex s _ idx hcap lo hi, mem_touchAll _ _, ?_, ?_⟩
    · rw [hsz, hcap]; exact hlt
    · simp only [mem_touchAll]
      exact hit
  · cases h

/-- **Editing the heap**: new tagged blocks in place of a run of the same total size. -/
theorem Laid.edit {s s' : HeapState} {l mid mid' r : List Block} {lo hi : Nat}
    (h : Laid s (l ++ (mid ++ r))) (hlo : lo = s.startAddress + extent Block.size l)
    (hhi : hi = lo + extent Block.size mid) (hr : Rewrote s s' lo hi)
    (he : extent Block.size mid' = extent Block.size mid) (hm : AllTagged s'.mem lo mid')
    (hs : s'.index.size < s'.index.capacity)
    (hi' : s'.index.items.Perm (holes s.startAddress (l ++ (mid' ++ r)))) :
    Laid s' (l ++ (mid' ++ r)) := by
  subst hlo hhi
  have hf := h.fills
  refine ⟨?_, ?_, ?_, ?_, hs, hr.capacity.trans_le h.capacity, ?_⟩
  · rw [hr.startAddress]
    exact h.tags.edit he hr.off hm
  · rw [hr.startAddress, hr.endAddress, ← hf]
    simp only [extent_append, he]
  · rw [hr.endAddress]
    exact h.top
  · rw [hr.startAddress]
    exact h.low
  · rw [hr.startAddress]
    exact hi'

/-- A rewritten heap that is laid out again is well formed again. -/
theorem Laid.wf {s s' : HeapState} {bs bs' : List Block} {lo hi : Nat} (h' : Laid s' bs')
    (h : Tiled s bs) (hr : Rewrote s s' lo hi) : WF s' bs' := by
  have hst := hr.startAddress
  have hen := hr.endAddress
  refine ⟨⟨h'.tags, h'.fills, h'.top, h'.low, ?_, ?_, ?_, h'.slots, ?_, fun v hv => ?_⟩, h'.index⟩
  · rw [hst, hen]
    exact h.room
  · rw [hst]
    exact h.startPage
  · rw [hen]
    exact h.endPage
  · exact hr.capacity.trans h.capacity
  · exact (hr.stored v hv).elim (h.stored v) id

/-! ## Writing a block -/

/-- The header and footer stores that make `n` bytes at `x` a block. -/
def HeapState.writeBlock (s : HeapState) (x n : Nat) (hole : Bool) : HeapState :=
  (s.storeHeader x ⟨0x1FF, hole, n⟩).sealFooter (x + n - 4) x

@[simp] theorem HeapState.toHeap_writeBlock (s : HeapState) (x n : Nat) (hole : Bool) :
    (s.writeBlock x n hole).toHeap = s.toHeap := rfl

theorem writeBlock_ok (s : HeapState) {x n : Nat} (hole : Bool) (h8 : 8 ≤ n) (hn : n < 4194304) :
    Rewrote s (s.writeBlock x n hole) x (x + n) ∧
      Tagged (s.writeBlock x n hole).mem x ⟨hole, n⟩ := by
  have hh : (s.storeHeader x ⟨0x1FF, hole, n⟩).header x = ⟨0x1FF, hole, n⟩ := by
    show Dmanix.header (setHeader _ x _) x = _
    rw [header_setHeader]
    simp only [Nat.mod_eq_of_lt hn]
  obtain ⟨hst, hoff, hmag, hsz⟩ :=
    (s.storeHeader x ⟨0x1FF, hole, n⟩).sealFooter_apart (f := x + n - 4) (h := x) (by omega)
  rw [hh] at hst hsz
  have hoff' : Off x (x + n) s.mem (s.writeBlock x n hole).mem :=
    ((off_setHeader s.mem x _).mono (Nat.le_refl _) (by omega)).trans
      (hoff.mono (by omega) (by omega))
  refine ⟨⟨rfl, rfl, rfl, hoff', fun v hv => ?_⟩, h8, hn, ?_, hmag, hsz⟩
  · rw [HeapState.writeBlock, hst] at hv
    simp only [HeapState.stored_storeHeader, List.mem_cons] at hv
    rcases hv with rfl | rfl | hv
    · exact .inr hn
    · exact .inr hn
    · exact .inl hv
  · exact (header_off hoff (by omega)).trans hh

/-! ## Resizing a block -/

/-- A new size in the header of a block and a footer at its new end. -/
theorem tagged_resize {m m' : Mem} {x n k : Nat} {hole : Bool} (h8 : 8 ≤ n) (hn : n < 4194304)
    (hh : header m x = ⟨0x1FF, hole, k⟩)
    (ho : Off (x + n - 4) (x + n) (setHeader m x { header m x with size := n }) m')
    (hmag : (footer m' (x + n - 4)).magic = 0x1FF) (hsz : (footer m' (x + n - 4)).size = n) :
    Tagged m' x ⟨hole, n⟩ ∧ Off x (x + n) m m' := by
  refine ⟨⟨h8, hn, ?_, hmag, hsz⟩, ?_⟩
  · rw [header_off ho (by omega), header_setHeader, hh]
    simp only [Nat.mod_eq_of_lt hn]
  · exact ((off_setHeader m x _).mono (Nat.le_refl _) (by omega)).trans
      (ho.mono (by omega) (Nat.le_refl _))

end Dmanix
