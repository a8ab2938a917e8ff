import Dmanix.Memory.Proof.Runs
import Dmanix.Memory.Proof.Served

/-!
# The first page of a process

After `memory::Initialize` slot 32 of the current directory, from 128 MB on, has no table. The first page
there takes a table from the kernel heap (`Initialized.makeTable_first`) and a frame
(`Initialized.first_page`); the calls that do so are in order (`Initialized.serves_range`).
-/

namespace Dmanix

open Word32 Bytes Outcome Machine Paging Tiling

namespace Kernel

variable {M u : Kernel} {rounds n lo hi i : Nat} {fresh : Mem} {w : Bool}

theorem Initialized.slot_empty (h : Initialized 512 M) (hlo : 32 ≤ i) (hi : i < 1024)
    (hs : ¬ HeapSlot i) : M.slot firstClone i = 0 := by
  by_contra h0
  obtain ⟨K, k, hb, hK, hK', -⟩ := h.identity
  have hle := hb.le
  have hfits := hb.fits
  rw [h.size] at hfits
  rw [slot, (h.shared i hi).1] at h0
  have := (h.slots i hi h0).resolve_left hs
  omega

theorem not_heapSlot : ¬ HeapSlot 32 := by
  unfold HeapSlot
  omega

theorem Initialized.currentSlot_empty (h : Initialized 512 M) (hlo : 32 ≤ i) (hi : i < 1024)
    (hs : ¬ HeapSlot i) : M.currentSlot i = 0 := by
  rw [currentSlot, h.current]
  exact h.slot_empty hlo hi hs

/-- Where the first table of a process lies. -/
def processTable : Nat := 0xC0085000

/-- The kernel heap with this table behind the first clone. -/
def processBlocks : List Block :=
  [⟨false, 40⟩, ⟨true, 4052⟩, ⟨false, 8204⟩, ⟨true, 4084⟩, ⟨false, 4104⟩, ⟨true, 499708⟩]

/-- The first table is made. -/
structure TableMade (M u : Kernel) : Prop where
  slots : ∀ d j, u.slot d j = if d = firstClone ∧ j = 32 then processTable else M.slot d j
  kernel : u.paging.kernelDirectory = M.paging.kernelDirectory
  current : u.paging.currentDirectory = firstClone
  frames : u.paging.frames = M.paging.frames
  pages : u.paging.tables = Function.update M.paging.tables processTable fun _ => Page.zero
  liveDirectories : u.liveDirectories = M.liveDirectories
  kheap : HeapAt u .kheap 0xC0081000 kheapEnd processBlocks

theorem TableMade.zero (h : TableMade M u) (e : Nat) :
    u.paging.page ⟨processTable, e⟩ = Page.zero := by
  rw [Paging.page, h.pages, Function.update_self]

theorem Initialized.heapTable (h : Initialized n M) : M.currentSlot 768 ≠ 0 := by
  rw [currentSlot, h.current]
  exact fun h0 => h.held 768 ⟨by decide, by decide⟩ ((h.shared 768 (by decide)).1 ▸ h0)

theorem Initialized.makeTable_first (h : Initialized 512 M) (rounds : Nat) (fresh : Mem) :
    ∃ u, makeTable (kallocPa rounds fresh) firstClone 32 M = .ok u ∧ TableMade M u := by
  obtain ⟨s, phys, ha, hs, hk, -⟩ := HeapAt.alloc rounds fresh
    [⟨false, 40⟩, ⟨true, 4052⟩, ⟨false, 8204⟩] sizeofTable true true h.kheap rfl (by decide)
    (by decide) (by decide) (by decide) (by decide) fun _ => h.heapTable
  replace ha : kallocPa rounds fresh sizeofTable M = .ok (processTable, phys, M.putHeap .kheap s) := ha
  have hm : makeTable (kallocPa rounds fresh) firstClone 32 M =
      .ok (((M.putHeap .kheap s).newTable processTable).withPaging
        (((M.putHeap .kheap s).newTable processTable).paging.setTable firstClone 32 processTable
          (phys ||| 7))) := by
    unfold makeTable
    rw [if_pos (show (M.paging.directories firstClone).tables 32 = 0 from
      h.slot_empty (Nat.le_refl _) (by decide) not_heapSlot), ha]
    rfl
  refine ⟨_, hm, fun d j => ?_, ?_, ?_, ?_, ?_, hs.liveDirectories, hk.congr rfl⟩
  · rw [slot_setTable]
    refine if_congr Iff.rfl rfl ?_
    show ((M.putHeap .kheap s).paging.directories d).tables j = _
    rw [hs.paging]
    rfl
  · show (M.putHeap .kheap s).paging.kernelDirectory = _
    rw [hs.paging]
  · show (M.putHeap .kheap s).paging.currentDirectory = _
    rw [hs.paging, h.current]
  · show (M.putHeap .kheap s).paging.frames = _
    rw [hs.paging]
  · show Function.update (M.putHeap .kheap s).paging.tables processTable _ = _
    rw [hs.paging]

/-! ## In order -/

/-- The pages from `lo` to `hi` need this one table. -/
theorem Initialized.missing (h : Initialized 512 M) (hlo : lo / 0x400000 = 32)
    (hhi : hi / 0x400000 = 32) : M.missingSlots (slotsOf lo hi) = {32} := by
  ext s
  rw [mem_missingSlots, mem_slotsOf, Finset.mem_singleton, hlo, hhi]
  constructor
  · rintro ⟨⟨-, h1, h2⟩, -⟩
    omega
  · rintro rfl
    exact ⟨⟨by decide, Nat.le_refl _, Nat.le_refl _⟩,
      h.currentSlot_empty (Nat.le_refl _) (by decide) not_heapSlot⟩

/-- The kernel heap serves the request for it. -/
theorem Initialized.serves_range {address size : Nat} (h : Initialized 512 M)
    (hlo : pageBits address / 0x400000 = 32) (hhi : pageBits (add32 address size) / 0x400000 = 32) :
    M.CallOk (.allocateRange address size) := by
  refine ⟨fun name => ?_, nofun⟩
  cases name with
  | uheap => exact serves_nil M _
  | kheap =>
    show M.Serves .kheap (tableRequests (M.missingSlots (slotsOf _ _)).card)
    rw [h.missing hlo hhi, Finset.card_singleton, tableRequests_succ, tableRequests_zero]
    exact HeapAt.serves [⟨false, 40⟩, ⟨true, 4052⟩, ⟨false, 8204⟩] sizeofTable true h.kheap rfl
      (by decide) (by decide) (by decide) (by decide) (by decide) fun M' _ => serves_nil M' _

/-! ## Pages -/

theorem getPage_held {t : Kernel} {dir : Nat} (h0 : t.slot dir (i / 0x1000 / 1024) ≠ 0) :
    getPage (kallocPa rounds fresh) dir i t =
      .ok (⟨t.slot dir (i / 0x1000 / 1024), i / 0x1000 % 1024⟩, t) := by
  unfold Machine.getPage
  rw [makeTable_some h0, ok_bind, Paging.getPage_some h0]
  rfl

theorem Initialized.getPage_first (h : Initialized 512 M) (hi : i / 0x400000 = 32) (rounds : Nat)
    (fresh : Mem) : ∃ u, getPage (kallocPa rounds fresh) firstClone i M =
      .ok (⟨processTable, i / 0x1000 % 1024⟩, u) ∧ TableMade M u := by
  obtain ⟨u, hm, hu⟩ := h.makeTable_first rounds fresh
  have hslot : i / 0x1000 / 1024 = 32 := by omega
  have hs : u.slot firstClone 32 = processTable := by rw [hu.slots, if_pos ⟨rfl, rfl⟩]
  refine ⟨u, ?_, hu⟩
  unfold Machine.getPage
  rw [hslot, hm, ok_bind, Paging.getPage_some (by
    rw [hslot]
    exact fun h0 => absurd (hs.symm.trans h0) (by decide))]
  show Except.ok (_, u) = _
  rw [hslot, show (u.paging.directories firstClone).tables 32 = processTable from hs]

/-- **The first page** is given a frame. -/
theorem Initialized.first_page (h : Initialized 512 M) (hc : 0 < M.paging.frames.clearBits)
    (rounds : Nat) (fresh : Mem) : ∃ u P, TableMade M u ∧
      u.paging.allocFrame ⟨processTable, 0⟩ false true = .ok P ∧ ∀ k size, size < 0x1000 →
        allocateRange (kallocPa rounds fresh) (k + 2) 0x08000000 size M = .ok (u.withPaging P) := by
  obtain ⟨u, hg, hu⟩ := h.getPage_first (i := 0x08000000) (by decide) rounds fresh
  obtain ⟨P, hP⟩ := Paging.allocFrame_ok (q := ⟨processTable, 0⟩) (k := false) (w := true)
    (hu.frames ▸ hc)
  refine ⟨u, P, hu, hP, fun k size hsize => ?_⟩
  have hlast : pageBits (add32 0x08000000 size) = 0x08000000 := by
    rw [add32_eq (by omega), pageBits_eq (by omega)]
    omega
  have hpage : allocPage (kallocPa rounds fresh) M.paging.currentDirectory true 0x08000000 M =
      .ok (u.withPaging P) := by
    unfold allocPage
    rw [h.current, hg, ok_bind]
    show (u.paging.allocFrame ⟨processTable, 0⟩ false true >>= _) = _
    rw [hP]
    rfl
  unfold allocateRange
  rw [hlast, show pageBits 0x08000000 = 0x08000000 by decide]
  unfold loop
  rw [if_pos (by decide), hpage, ok_bind]
  unfold loop
  exact if_neg (by decide)

end Kernel

end Dmanix
