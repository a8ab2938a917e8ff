import Dmanix.Memory.Proof.Bump
import Dmanix.Memory.Proof.Identity

/-!
# `memory::Initialize` up to the heaps

`Booted n K k`: the invariant of the stages. The regions given are in order, every table of
`kernel_directory` is such a region, named by its physical entry, and the frames are in address
order (`Backed`). The loops keep it: `mapPages` fills slots, `identityMap` moves `K` and `k`
together until `K` has passed `base_address` by a page, `allocPages` moves `k`.
-/

namespace Dmanix

open Word32 Outcome Machine Paging

namespace Kernel

/-- The slots of the two heaps' address ranges. -/
def HeapSlot (s : Nat) : Prop := 768 ≤ s ∧ s < 896

/-- The stages fill slot `i` while `K` pages are mapped to themselves. -/
def Reached (K i : Nat) : Prop := HeapSlot i ∨ 1024 * i ≤ K

/-- The invariant (module doc), for a bit set of `n` words. -/
structure Booted (n K k : Nat) (M : Kernel) : Prop where
  bumped : Bumped M.allocator
  directories : M.liveDirectories = [M.paging.kernelDirectory]
  kernel : M.paging.kernelDirectory < kheapStart
  kernelRegion : ⟨M.paging.kernelDirectory, sizeofDirectory, true⟩ ∈ M.allocator.regions
  tables : ∀ i < 1024, M.paging.kernelTable i ≠ 0 →
    ⟨M.paging.kernelTable i, sizeofTable, true⟩ ∈ M.allocator.regions ∧
    (M.paging.directories M.paging.kernelDirectory).physical i = M.paging.kernelTable i ||| 0x7
  slots : ∀ i < 1024, M.paging.kernelTable i ≠ 0 → Reached K i
  size : M.paging.frames.size = n
  backed : Backed M.paging K k

variable {rounds : Nat} {fresh : Bytes.Mem} {G S : Prop} {B n K k : Nat} {M : Kernel}

/-! ## Tables -/

theorem allocInternal_noHeap {name : HeapName} {size : Nat} {pageAlign phys : Bool}
    (h : NoHeap M) : allocInternal rounds fresh name size pageAlign phys M =
      .ok ((M.bump size pageAlign).1, (M.bump size pageAlign).1, (M.bump size pageAlign).2) := by
  unfold allocInternal
  rw [h name]
  rfl

theorem Bumped.le_addr {size : Nat} {pageAlign : Bool} (h : Bumped M.allocator) :
    M.allocator.baseAddress ≤ (M.bump size pageAlign).1 := by
  refine (?_ : _ ≤ _).trans (Nat.le_of_eq (bump_addr pageAlign h.low h.high).symm)
  split <;> omega

/-- `kernel_directory` with the table at `addr` in slot `i`. -/
def withTable (M : Kernel) (i addr entry : Nat) : Kernel :=
  (M.newTable addr).withPaging ((M.newTable addr).paging.setTable M.paging.kernelDirectory i addr
    entry)

theorem kernelTable_withTable (i addr entry j : Nat) :
    (M.withTable i addr entry).paging.kernelTable j =
      if j = i then addr else M.paging.kernelTable j := by
  simp only [withTable, withPaging, newTable, setTable, setDirectory, kernelTable,
    Function.update_apply, if_true]

theorem makeTable_null {i : Nat} (hn : NoHeap M) (h0 : M.paging.kernelTable i = 0) :
    makeTable (kallocPa rounds fresh) M.paging.kernelDirectory i M =
      .ok (withTable (M.bump sizeofTable true).2 i (M.bump sizeofTable true).1
        ((M.bump sizeofTable true).1 ||| 0x7)) := by
  unfold makeTable
  rw [if_pos (show (M.paging.directories M.paging.kernelDirectory).tables i = 0 from h0), kallocPa,
    allocInternal_noHeap hn]
  rfl

theorem makeTable_some {kpa : Nat → Kernel → Except Halt (Nat × Nat × Kernel)} {dir i : Nat}
    (h0 : (M.paging.directories dir).tables i ≠ 0) : makeTable kpa dir i M = .ok M := by
  unfold makeTable
  rw [if_neg h0]
  rfl

theorem countP_update {f : Nat → Nat} {i t : Nat} (h0 : f i = 0) (ht : t ≠ 0) : ∀ m : Nat,
    (List.range m).countP (fun j => (if j = i then t else f j) = 0) + (if i < m then 1 else 0) =
      (List.range m).countP fun j => f j = 0
  | 0 => rfl
  | m + 1 => by
    have ih := countP_update h0 ht m
    rw [List.range_succ, List.countP_append, List.countP_append, ← ih]
    simp only [List.countP_singleton]
    grind

/-- **A table is made** for an empty slot: a page of its own, all entries zero. -/
theorem Booted.withTable {i : Nat} (h : Booted n K k M)
    (h0 : M.paging.kernelTable i = 0) (hr : Reached K i) (hb : Below (M.bump sizeofTable true).2) :
    Booted n K k (withTable (M.bump sizeofTable true).2 i (M.bump sizeofTable true).1
      ((M.bump sizeofTable true).1 ||| 0x7)) := by
  obtain ⟨hbumped, hge, -⟩ := h.bumped.bump hb
  generalize ha : (M.bump sizeofTable true).1 = addr at *
  generalize hM : (M.bump sizeofTable true).2 = M₁ at *
  have hP : M₁.paging = M.paging := by rw [← hM, paging_bump]
  have hA : M₁.allocator.regions = ⟨addr, sizeofTable, true⟩ :: M.allocator.regions := by
    rw [← hM, ← ha, regions_bump]
  have hL : M₁.liveDirectories = M.liveDirectories := by rw [← hM, liveDirectories_bump]
  clear ha hM
  have hT : ∀ j, (Kernel.withTable M₁ i addr (addr ||| 0x7)).paging.kernelTable j =
      if j = i then addr else M.paging.kernelTable j := fun j => by
    rw [kernelTable_withTable, hP]
  -- the tables there are lie below the new one
  have hfresh : ∀ j < 1024, M.paging.kernelTable j ≠ addr := fun j hj he => by
    have hlow := h.bumped.low
    have hr := h.bumped.inside _ (h.tables j hj (by omega)).1
    simp only [sizeofTable] at hr
    omega
  have hpage : ∀ v < 0x100000, v / 1024 ≠ i → M.paging.kernelTable (v / 1024) ≠ 0 →
      (Kernel.withTable M₁ i addr (addr ||| 0x7)).paging.page
        ((Kernel.withTable M₁ i addr (addr ||| 0x7)).paging.pageAt v) =
      M.paging.page (M.paging.pageAt v) := fun v hv hvi _ => by
    rw [pageAt, hT, if_neg hvi]
    have hne : M.paging.kernelTable (v / 1024) ≠ addr := hfresh _ (by omega)
    simp only [page, Kernel.withTable, withPaging, newTable, setTable, setDirectory,
      Function.update_apply, if_neg hne, hP]
    rfl
  have hlow := h.bumped.low
  have hsize := h.backed.size
  refine ⟨hbumped, ?_, ?_, ?_, fun j hj hne => ?_, fun j hj hne => ?_, ?_,
    ⟨?_, ?_, ?_, h.backed.le, ?_, ?_, ?_⟩⟩
  · show M₁.liveDirectories = [M₁.paging.kernelDirectory]
    rw [hL, hP]
    exact h.directories
  · show M₁.paging.kernelDirectory < kheapStart
    rw [hP]
    exact h.kernel
  · show ⟨M₁.paging.kernelDirectory, sizeofDirectory, true⟩ ∈ M₁.allocator.regions
    rw [hP, hA]
    exact List.mem_cons_of_mem _ h.kernelRegion
  · rw [hT] at hne ⊢
    have hphys : ((Kernel.withTable M₁ i addr (addr ||| 0x7)).paging.directories
        (Kernel.withTable M₁ i addr (addr ||| 0x7)).paging.kernelDirectory).physical j =
        if j = i then addr ||| 0x7
          else (M.paging.directories M.paging.kernelDirectory).physical j := by
      simp only [Kernel.withTable, withPaging, newTable, setTable, setDirectory,
        Function.update_apply, if_true, hP]
    rw [hphys]
    show _ ∈ M₁.allocator.regions ∧ _
    rw [hA]
    split
    · exact ⟨List.mem_cons_self, rfl⟩
    · rw [if_neg ‹_›] at hne
      exact ⟨List.mem_cons_of_mem _ (h.tables j hj hne).1, (h.tables j hj hne).2⟩
  · rw [hT] at hne
    split at hne
    · rename_i hji
      exact hji ▸ hr
    · exact h.slots j hj hne
  · show M₁.paging.frames.size = n
    rw [hP]
    exact h.size
  · intro a ha b hb hne heq
    rw [hT] at hne heq
    rw [hT] at heq
    have h1 := hfresh a ha
    have h2 := hfresh b hb
    have h3 := h.backed.apart a ha b hb
    grind
  · show 32 * M₁.paging.frames.size ≤ _
    rw [hP]
    exact hsize
  · show k ≤ 32 * M₁.paging.frames.size
    rw [hP]
    exact h.backed.fits
  · show ∀ f < 32 * M₁.paging.frames.size, M₁.paging.frames.bit f = _
    rw [hP]
    exact h.backed.bits
  · intro v hv
    obtain ⟨h1, h2, h3⟩ := h.backed.identity v hv
    have hvi : v / 1024 ≠ i := fun he => h1 (he ▸ h0)
    have hle := h.backed.le
    have hfits := h.backed.fits
    rw [hpage v (by omega) hvi h1, hT, if_neg hvi]
    exact ⟨h1, h2, h3⟩
  · intro v h1 h2 h3
    by_cases hvi : v / 1024 = i
    · left
      rw [pageAt, hT, if_pos hvi]
      simp only [page, Kernel.withTable, withPaging, newTable, setTable, setDirectory,
        Function.update_apply, if_true]
      exact ⟨rfl, rfl⟩
    · rw [hT, if_neg hvi] at h3
      rw [hpage v h2 hvi h3]
      exact h.backed.above v h1 h2 h3

/-- What `GetPage` with a table to make does to `kernel_directory`: slot `i` has a table, the
others keep theirs, and nothing is allocated for a table that was there. -/
structure Extends (i : Nat) (M M' : Kernel) : Prop where
  kernel : M'.paging.kernelDirectory = M.paging.kernelDirectory
  present : M'.paging.kernelTable i ≠ 0
  mono : ∀ j, M.paging.kernelTable j ≠ 0 → M'.paging.kernelTable j ≠ 0
  base : M.allocator.baseAddress ≤ M'.allocator.baseAddress
  same : M.paging.kernelTable i ≠ 0 → M' = M

theorem Room.withTable {i : Nat} (h : Room B M) (hbumped : Bumped M.allocator) (hi : i < 1024)
    (h0 : M.paging.kernelTable i = 0) :
    Room B (Kernel.withTable (M.bump sizeofTable true).2 i (M.bump sizeofTable true).1
      ((M.bump sizeofTable true).1 ||| 0x7)) := by
  have hge : M.allocator.baseAddress ≤ (M.bump sizeofTable true).1 := hbumped.le_addr
  have hle := bump_le M sizeofTable true
  have hP := paging_bump M sizeofTable true
  have hR := regions_bump M sizeofTable true
  have hlow := hbumped.low
  generalize (M.bump sizeofTable true).1 = addr at *
  generalize (M.bump sizeofTable true).2 = M₁ at *
  have hnull : (Kernel.withTable M₁ i addr (addr ||| 0x7)).nullSlots + 1 = M.nullSlots := by
    have hcount := countP_update (f := M.paging.kernelTable) (t := addr) h0 (by omega) 1024
    rw [if_pos hi] at hcount
    rw [nullSlots, nullSlots, arraySize]
    refine Eq.trans ?_ hcount
    refine congrArg (· + 1) (List.countP_congr fun j _ => ?_)
    have hT := kernelTable_withTable (M := M₁) i addr (addr ||| 0x7) j
    rw [hP] at hT
    rw [decide_eq_true_iff, decide_eq_true_iff, ← hT]
    rfl
  obtain ⟨hbase, hregions⟩ := h
  simp only [sizeofTable] at hle hR
  constructor
  · show M₁.allocator.baseAddress + 8192 * _ ≤ B
    omega
  · intro r hr
    have hr : r ∈ M₁.allocator.regions := hr
    rw [hR] at hr
    rcases List.mem_cons.1 hr with rfl | hr
    · show addr + 4096 ≤ B
      omega
    · exact hregions r hr

theorem Booted.extends {i : Nat} (h : Booted n K k M) (h0 : M.paging.kernelTable i = 0)
    (hb : Below (M.bump sizeofTable true).2) :
    Extends i M (Kernel.withTable (M.bump sizeofTable true).2 i (M.bump sizeofTable true).1
      ((M.bump sizeofTable true).1 ||| 0x7)) := by
  have hge : M.allocator.baseAddress ≤ (M.bump sizeofTable true).1 := h.bumped.le_addr
  have hend := (h.bumped.bump hb).2.2
  have hP := paging_bump M sizeofTable true
  have hlow := h.bumped.low
  generalize (M.bump sizeofTable true).1 = addr at *
  generalize (M.bump sizeofTable true).2 = M₁ at *
  have hT : ∀ j, (Kernel.withTable M₁ i addr (addr ||| 0x7)).paging.kernelTable j =
      if j = i then addr else M.paging.kernelTable j := fun j => by
    rw [kernelTable_withTable, hP]
  refine ⟨?_, ?_, fun j hj => ?_, ?_, fun hne => absurd h0 hne⟩
  · show M₁.paging.kernelDirectory = _
    rw [hP]
  · rw [hT, if_pos rfl]
    omega
  · rw [hT]
    split
    · omega
    · exact hj
  · show _ ≤ M₁.allocator.baseAddress
    omega

/-- **`GetPage` makes a table** in an empty slot of `kernel_directory`. -/
theorem makeTable_boots {i : Nat} (h : Ready G B M (Booted n K k)) (hB : B ≤ kheapStart)
    (hi : i < 1024) (hr : Reached K i) :
    Boots G B S M (makeTable (kallocPa rounds fresh) M.paging.kernelDirectory i M)
      fun M' => Booted n K k M' ∧ Extends i M M' := by
  by_cases h0 : M.paging.kernelTable i = 0
  · rw [makeTable_null h.noHeap h0]
    have hbelow : ∀ hb : Below (M.bump sizeofTable true).2, Below M := fun hb => hb.of_bump
    refine .pure hbelow ⟨h.noHeap, fun hb => ?_, fun hG => ?_⟩
    · have hI := h.holds (hbelow hb)
      exact ⟨hI.withTable h0 hr hb, hI.extends h0 hb⟩
    · have hroom := h.room hG
      exact hroom.withTable (h.holds (hroom.below hB)).bumped hi h0
  · rw [makeTable_some h0]
    exact .pure id (h.imp fun hI => ⟨hI, rfl, h0, fun _ => id, Nat.le_refl _, fun _ => rfl⟩)

/-! ## Pages -/

/-- `AllocFrame(kernel_directory->GetPage(a, true), false, is_writeable)`, in order. -/
theorem allocKernelPage_eq (w : Bool) (a : Nat) (M : Kernel) :
    allocKernelPage rounds fresh w a M = (do
      let M₁ ← makeTable (kallocPa rounds fresh) M.paging.kernelDirectory (a / 0x1000 / 1024) M
      let page ← M₁.paging.getPage M.paging.kernelDirectory a false
      let P ← M₁.paging.allocFrame page false w
      return M₁.withPaging P) := by
  simp only [allocKernelPage, allocPage, Machine.getPage, bind_assoc, pure_bind]

/-- Page `v` was given a frame, in a state with its table. -/
def PageGiven (n K k v : Nat) (w : Bool) (M M' : Kernel) : Prop :=
  ∃ M₁ P, Booted n K k M₁ ∧ Extends (v / 1024) M M₁ ∧
    M₁.paging.allocFrame (M₁.paging.pageAt v) false w = .ok P ∧ M' = M₁.withPaging P

theorem Room.withPaging {P : Paging} (h : Room B M) (hs : SameTables M.paging P) :
    Room B (M.withPaging P) := by
  have hnull : nullSlots (M.withPaging P) = nullSlots M := by
    unfold nullSlots Machine.withPaging
    rw [hs.directories, hs.kernel]
  refine ⟨?_, h.regions⟩
  rw [hnull]
  exact h.base

/-- **A page is given a frame**, or none is left. -/
theorem allocKernelPage_boots {v a : Nat} {w : Bool} (h : Ready G B M (Booted n K k))
    (hB : B ≤ kheapStart) (ha : a / 0x1000 = v) (hv : v < 0x100000) (hr : Reached K (v / 1024))
    (hS : G → Booted n K k M → 32 * n ≤ k → S) :
    Boots G B S M (allocKernelPage rounds fresh w a M) (PageGiven n K k v w M) := by
  rw [allocKernelPage_eq, ha]
  refine (makeTable_boots h hB (show v / 1024 < 1024 by omega) hr).seq fun M₁ h₁ => ?_
  by_cases hb : Below M₁
  · obtain ⟨hboot, hext⟩ := h₁.holds hb
    have hget : M₁.paging.getPage M.paging.kernelDirectory a false = .ok (M₁.paging.pageAt v) := by
      have := @getPage_kernel M₁.paging a false (by rw [ha]; exact hext.present)
      rwa [hext.kernel, ha] at this
    rw [hget, ok_bind]
    cases hf : M₁.paging.allocFrame (M₁.paging.pageAt v) false w with
    | ok P =>
      rw [ok_bind]
      refine .pure id ⟨h₁.noHeap, fun _ => ⟨M₁, P, hboot, hext, hf, rfl⟩, fun hG => ?_⟩
      exact (h₁.room hG).withPaging (allocFrame_same hf)
    | error e =>
      refine .stop fun hG => hS hG (h.holds ((h.room hG).below hB)) ?_
      by_contra hlt
      obtain ⟨P, hP⟩ := allocFrame_ok (q := M₁.paging.pageAt v) (k := false) (w := w)
        (hboot.backed.clearBits (by rw [hboot.size]; omega))
      rw [hP] at hf
      cases hf
  · -- nothing is claimed of states that ran into the heap
    have hG : ¬ G := fun hG => hb ((h₁.room hG).below hB)
    have hstop : ∀ e, Boots G B S M₁ (.error e) (PageGiven n K k v w M) := fun e =>
      .stop fun h => absurd h hG
    cases M₁.paging.getPage M.paging.kernelDirectory a false with
    | error e => exact hstop e
    | ok q =>
      rw [ok_bind]
      cases M₁.paging.allocFrame q false w with
      | error e => exact hstop e
      | ok P =>
        rw [ok_bind]
        exact .pure id ⟨h₁.noHeap, fun hb' => absurd hb' hb, fun h => absurd h hG⟩

theorem Booted.withPaging {P : Paging} {K' k' : Nat} (h : Booted n K k M)
    (hs : SameTables M.paging P) (hK : K ≤ K') (hb : Backed P K' k') :
    Booted n K' k' (M.withPaging P) := by
  refine ⟨h.bumped, ?_, ?_, ?_, fun i hi hne => ?_, fun i hi hne => ?_, ?_, hb⟩
  · show M.liveDirectories = [P.kernelDirectory]
    rw [hs.kernel]
    exact h.directories
  · show P.kernelDirectory < kheapStart
    rw [hs.kernel]
    exact h.kernel
  · show ⟨P.kernelDirectory, sizeofDirectory, true⟩ ∈ M.allocator.regions
    rw [hs.kernel]
    exact h.kernelRegion
  · have hT : (M.withPaging P).paging.kernelTable i = M.paging.kernelTable i := hs.kernelTable i
    rw [hT] at hne ⊢
    show _ ∧ (P.directories P.kernelDirectory).physical i = _
    rw [hs.directories, hs.kernel]
    exact h.tables i hi hne
  · exact (h.slots i hi (hs.kernelTable i ▸ hne)).imp_right fun h => h.trans hK
  · exact hs.size.trans h.size

theorem PageGiven.identity {M' : Kernel} {w : Bool} (h : PageGiven n k k k w M M')
    (hk : k < 0x100000) : Booted n (k + 1) (k + 1) M' := by
  obtain ⟨M₁, P, hboot, hext, hf, rfl⟩ := h
  exact hboot.withPaging (allocFrame_same hf) (Nat.le_succ k)
    (hboot.backed.identityPage hk hext.present hf)

theorem PageGiven.heap {M' : Kernel} {w : Bool} {v : Nat} (h : PageGiven n K k v w M M')
    (hv0 : 0 < v) (hv : v < 0x100000) : ∃ k' ≤ k + 1, Booted n K k' M' := by
  obtain ⟨M₁, P, hboot, hext, hf, rfl⟩ := h
  have hs := allocFrame_same hf
  rcases hboot.backed.heapPage hv0 hv hext.present hf with hb | hb
  · exact ⟨k, Nat.le_succ k, hboot.withPaging hs (Nat.le_refl K) hb⟩
  · exact ⟨k + 1, Nat.le_refl _, hboot.withPaging hs (Nat.le_refl K) hb⟩

theorem PageGiven.mono {M' : Kernel} {w : Bool} {v j : Nat} (h : PageGiven n K k v w M M')
    (hj : M.paging.kernelTable j ≠ 0) : M'.paging.kernelTable j ≠ 0 := by
  obtain ⟨M₁, P, -, hext, hf, rfl⟩ := h
  have hT : (M₁.withPaging P).paging.kernelTable j = M₁.paging.kernelTable j :=
    (allocFrame_same hf).kernelTable j
  rw [hT]
  exact hext.mono j hj

theorem PageGiven.base {M' : Kernel} {w : Bool} {v : Nat} (h : PageGiven n K k v w M M') :
    M.allocator.baseAddress ≤ M'.allocator.baseAddress := by
  obtain ⟨M₁, P, -, hext, -, rfl⟩ := h
  exact hext.base

/-- Where the table exists, only the page is given its frame. -/
theorem PageGiven.alloc {M' : Kernel} {w : Bool} {v : Nat} (h : PageGiven n K k v w M M')
    (hT : M.paging.kernelTable (v / 1024) ≠ 0) : Booted n K k M ∧
      M.paging.allocFrame (M.paging.pageAt v) false w = .ok M'.paging := by
  obtain ⟨M₁, P, hboot, hext, hf, rfl⟩ := h
  cases hext.same hT
  exact ⟨hboot, hf⟩

theorem PageGiven.allocator {M' : Kernel} {w : Bool} {v : Nat} (h : PageGiven n K k v w M M')
    (hT : M.paging.kernelTable (v / 1024) ≠ 0) : M'.allocator = M.allocator := by
  obtain ⟨M₁, P, -, hext, -, rfl⟩ := h
  rw [hext.same hT]
  rfl

/-! ## The loops -/

/-- The pages of the two heaps lie in the slots made. -/
theorem heapSlot_of {a : Nat} (h1 : kheapStart ≤ a) (h2 : a < 0xE0000000) :
    HeapSlot (a / 0x1000 / 1024) := by
  rw [kheapStart_eq] at h1
  exact ⟨by omega, by omega⟩

/-- The slots `held` have tables. -/
def Held (held : Nat → Prop) (M : Kernel) : Prop := ∀ s, held s → M.paging.kernelTable s ≠ 0

variable {held : Nat → Prop} {first last : Nat}

theorem mapPage_boots {a : Nat} (h : Ready G B M (Booted n K k)) (hB : B ≤ kheapStart)
    (ha : a < 4294967296) (hr : Reached K (a / 0x1000 / 1024)) :
    Boots G B S M (do
      let (_, M₁) ← getPage (kallocPa rounds fresh) M.paging.kernelDirectory a M
      return M₁) fun M' => Booted n K k M' ∧ Extends (a / 0x1000 / 1024) M M' := by
  have heq : (do
      let (_, M₁) ← getPage (kallocPa rounds fresh) M.paging.kernelDirectory a M
      return M₁) = (do
      let M₁ ← makeTable (kallocPa rounds fresh) M.paging.kernelDirectory (a / 0x1000 / 1024) M
      let _ ← M₁.paging.getPage M.paging.kernelDirectory a false
      return M₁) := by
    simp only [Machine.getPage, bind_assoc, pure_bind]
  rw [heq]
  refine (makeTable_boots h hB (by omega) hr).seq fun M₁ h₁ => ?_
  cases hp : M₁.paging.getPage M.paging.kernelDirectory a false with
  | ok q =>
    rw [ok_bind]
    exact .pure id h₁
  | error e =>
    refine .stop fun hG => ?_
    obtain ⟨-, hext⟩ := h₁.holds ((h₁.room hG).below hB)
    rw [← hext.kernel, getPage_kernel hext.present] at hp
    cases hp

/-- **The tables of an address range are made.** -/
theorem mapPages_boots (h : Ready G B M fun M => Booted n K k M ∧ Held held M)
    (hB : B ≤ kheapStart) (hf : first % 0x400000 = 0) (hlo : kheapStart ≤ first) (hfl : first ≤ last)
    (hl : last ≤ 0xE0000000) :
    Boots G B S M (mapPages rounds fresh first last M) fun M' => Booted n K k M' ∧
      Held (fun s => held s ∨ first ≤ s * 0x400000 ∧ s * 0x400000 < last) M' := by
  have hloop := @Boots.loop G B S (fun i _ => decide (i < last))
    (fun i M => do
      let (_, M₁) ← getPage (kallocPa rounds fresh) M.paging.kernelDirectory i M
      return M₁)
    (fun i M => i % 4096 = 0 ∧ first ≤ i ∧ Booted n K k M ∧
      Held (fun s => held s ∨ first ≤ s * 0x400000 ∧ s * 0x400000 < i) M) hB
    (fun i M _ h ht => ?_) (fun i M _ _ ht => ?_) pageRounds first M (by omega)
    (h.imp fun ⟨h1, h2⟩ => ⟨by omega, Nat.le_refl _, h1, fun s hs => ?_⟩) (fun _ => ?_)
  · refine hloop.imp fun M' _ ⟨i, ⟨_, _, h1, h2⟩, ht⟩ => ⟨h1, fun s hs => h2 s ?_⟩
    have hi : ¬ i < last := of_decide_eq_false ht
    exact hs.imp id fun hs => ⟨hs.1, by omega⟩
  · have hi : i < last := of_decide_eq_true ht
    by_cases hb : Below M
    · obtain ⟨hal, hfi, hboot, hheld⟩ := h.holds hb
      refine (mapPage_boots (h.imp fun hI => hI.2.2.1) hB (by omega)
        (.inl (heapSlot_of (hlo.trans hfi) (by omega)))).imp fun M' _ hM' => ?_
      rw [add32_eq (by omega)]
      refine ⟨by omega, by omega, hM'.1, fun s hs => ?_⟩
      by_cases hsi : s * 0x400000 = i
      · -- the first page of a slot
        rw [show s = i / 0x1000 / 1024 by omega]
        exact hM'.2.present
      · exact hM'.2.mono s (hheld s (hs.imp id fun hs => ⟨hs.1, by omega⟩))
    · -- nothing is claimed of a state that ran into the heap
      refine (mapPage_boots (n := n) (K := i) (k := 0) ⟨h.noHeap, fun h => absurd h hb, h.room⟩ hB
        (by omega) (.inr (by omega))).imp fun _ h _ => absurd h hb
  · exact (show i < last from of_decide_eq_true ht).trans_le (by omega)
  · exact h2 s (hs.resolve_right fun hc => by omega)
  · rw [pageRounds]
    omega

/-- **The identity mapping** ends a page past `base_address`, which moved while it ran. -/
theorem identityMap_boots (h : Ready G B M fun M => Booted n 0 0 M ∧ Held held M)
    (hB : B ≤ kheapStart) (hS : G → 4096 * (32 * n) < B + 0x1000 → S) :
    Boots G B S M (identityMap rounds fresh M) fun M' => ∃ K, Booted n K K M' ∧ Held held M' ∧
      M'.allocator.baseAddress + 0x1000 ≤ 4096 * K ∧
      4096 * K ≤ M'.allocator.baseAddress + 0x2000 := by
  rw [kheapStart_eq] at hB
  have hbase : ∀ {M : Kernel} {K : Nat}, Booted n K K M →
      add32 M.allocator.baseAddress 0x1000 = M.allocator.baseAddress + 0x1000 := fun hI => by
    have := hI.bumped.high
    rw [kheapStart_eq] at this
    exact add32_eq (by omega)
  have hloop := @Boots.loop G B S
    (fun i M => decide (i < add32 M.allocator.baseAddress 0x1000))
    (allocKernelPage rounds fresh false)
    (fun i M => ∃ K, i = 4096 * K ∧ Booted n K K M ∧ Held held M ∧
      4096 * K ≤ M.allocator.baseAddress + 0x2000) hB
    (fun i M hi32 h ht => ?_) (fun i M hI hroom ht => ?_) pageRounds 0 M (by omega)
    (h.imp fun ⟨h1, h2⟩ => ⟨0, rfl, h1, h2, Nat.zero_le _⟩) (fun _ => ?_)
  · refine hloop.imp fun M' _ ⟨i, ⟨K, hi, h1, h2, h3⟩, ht⟩ => ⟨K, h1, h2, ?_, h3⟩
    have ht : ¬ i < add32 M'.allocator.baseAddress 0x1000 := of_decide_eq_false ht
    rw [hbase h1] at ht
    omega
  · by_cases hb : Below M
    · obtain ⟨K, hi, h1, h2, h3⟩ := h.holds hb
      have ht : i < add32 M.allocator.baseAddress 0x1000 := of_decide_eq_true ht
      have hhigh := h1.bumped.high
      rw [hbase h1] at ht
      rw [kheapStart_eq] at hhigh
      have hready : Ready G B M (Booted n K K) := ⟨h.noHeap, fun _ => h1, h.room⟩
      refine (allocKernelPage_boots (v := K) hready hB (by omega) (by omega) (.inr (by omega))
        fun hG _ hn => hS hG ?_).imp fun M' _ hM' => ?_
      · have := (h.room hG).base
        omega
      · have := hM'.base
        refine ⟨K + 1, ?_, hM'.identity (by omega), fun s hs => hM'.mono (h2 s hs), ?_⟩
        · rw [add32_eq (by omega)]
          omega
        · omega
    · -- nothing is claimed of a state that ran into the heap
      refine (allocKernelPage_boots (n := n) (K := i) (k := 0) (v := i / 4096)
        ⟨h.noHeap, fun h => absurd h hb, h.room⟩ hB rfl (by omega) (.inr (by omega))
        fun hG _ _ => absurd ((h.room hG).below hB) hb).imp fun _ h _ => absurd h hb
  · obtain ⟨K, hi, h1, -, -⟩ := hI
    have ht : i < add32 M.allocator.baseAddress 0x1000 := of_decide_eq_true ht
    have hhigh := h1.bumped.high
    rw [hbase h1] at ht
    rw [kheapStart_eq] at hhigh
    omega
  · rw [pageRounds]
    omega

/-- **The pages of an address range with tables get frames**, without taking memory; with an
invariant `X` of address and page entries. -/
theorem allocPages_boots {w : Bool} {A : Kalloc} {X : Nat → Paging → Prop}
    (h : Ready G B M fun M => Booted n K k M ∧ Held held M ∧ M.allocator = A ∧ X first M.paging)
    (hX : ∀ {i P P' k'}, Backed P K k' → X i P → i % 4096 = 0 → first ≤ i → i < last →
      P.kernelTable (i / 4096 / 1024) ≠ 0 →
      P.allocFrame (P.pageAt (i / 4096)) false w = .ok P' → X (i + 4096) P')
    (hB : B ≤ kheapStart) (h0 : 0 < first)
    (hf : first % 4096 = 0) (hl : last % 4096 = 0) (hfl : first ≤ last) (hl' : last ≤ 0xF0000000)
    (hheld : ∀ a, first ≤ a → a < last → held (a / 0x1000 / 1024))
    (hS : G → 32 * n < k + (last - first) / 4096 → S) :
    Boots G B S M (allocPages rounds fresh w first last M) fun M' =>
      ∃ k' ≤ k + (last - first) / 4096, Booted n K k' M' ∧ Held held M' ∧ M'.allocator = A ∧
        X last M'.paging := by
  have hloop := @Boots.loop G B S (fun i _ => decide (i < last))
    (allocKernelPage rounds fresh w)
    (fun i M => (i % 4096 = 0 ∧ first ≤ i ∧ i ≤ last) ∧ ∃ k' ≤ k + (i - first) / 4096,
      Booted n K k' M ∧ Held held M ∧ M.allocator = A ∧ X i M.paging) hB
    (fun i M _ h ht => ?_) (fun i M _ _ ht => ?_) pageRounds first M (by omega)
    (h.imp fun hI => ⟨by omega, k, by omega, hI⟩) (fun _ => ?_)
  · refine hloop.imp fun M' _ ⟨i, ⟨hi, k', hk', hI⟩, ht⟩ => ⟨k', ?_, ?_⟩
    · have ht : ¬ i < last := of_decide_eq_false ht
      rwa [show i = last by omega] at hk'
    · have ht : ¬ i < last := of_decide_eq_false ht
      rwa [show i = last by omega] at hI
  · have hi : i < last := of_decide_eq_true ht
    by_cases hb : Below M
    · obtain ⟨⟨hal, hfi, -⟩, k', hk', h1, h2, h3, h4⟩ := h.holds hb
      refine (allocKernelPage_boots (v := i / 4096) ⟨h.noHeap, fun _ => h1, h.room⟩ hB rfl
        (by omega) (h1.slots _ (by omega) (h2 _ (hheld i hfi hi))) fun hG _ hn =>
          hS hG (by omega)).imp fun M' _ hM' => ?_
      obtain ⟨k'', hk'', h1'⟩ := hM'.heap (by omega) (by omega)
      have hT := h2 _ (hheld i hfi hi)
      rw [add32_eq (by omega)]
      refine ⟨by omega, k'', by omega, h1', fun s hs => hM'.mono (h2 s hs), ?_, ?_⟩
      · rw [hM'.allocator hT, h3]
      · exact hX h1.backed h4 hal hfi hi hT (hM'.alloc hT).2
    · refine (allocKernelPage_boots (n := n) (K := i) (k := 0) (v := i / 4096)
        ⟨h.noHeap, fun h => absurd h hb, h.room⟩ hB rfl (by omega) (.inr (by omega))
        fun hG _ _ => absurd ((h.room hG).below hB) hb).imp fun _ h _ => absurd h hb
  · exact (of_decide_eq_true ht : i < last).trans_le hl'
  · rw [pageRounds]
    omega

/-! ## The first stages -/

/-- The state `memory::Initialize` is called in: nothing has been given, and `base_address` is at
least a page. -/
structure Start (M : Kernel) : Prop where
  noHeap : NoHeap M
  regions : M.allocator.regions = []
  directories : M.liveDirectories = []
  low : 0x1000 ≤ M.allocator.baseAddress
  word : M.allocator.baseAddress < 4294967296

/-- The state after `newFrames`. -/
def withFrames (numFrames : Nat) (M : Kernel) : Kernel :=
  (bump (numFrames / 32 * 4) false (M.bump sizeofBitset false).2).2.withPaging
    { M.paging with frames := .create numFrames }

/-- The state after `newKernelDirectory`, from the memory given for it. -/
def withDirectory (r : Nat × Kernel) : Kernel :=
  (r.2.newDirectory r.1).withPaging
    { (r.2.newDirectory r.1).paging with kernelDirectory := r.1 }

theorem newFrames_eq (h : NoHeap M) (numFrames : Nat) :
    newFrames rounds fresh numFrames M = .ok (M.withFrames numFrames) := by
  have h₁ : NoHeap (M.bump sizeofBitset false).2 := h
  unfold newFrames kalloc
  rw [allocInternal_noHeap h, ok_bind]
  simp only
  rw [allocInternal_noHeap h₁, ok_bind]
  rfl

theorem newKernelDirectory_eq (h : NoHeap M) : newKernelDirectory rounds fresh M =
    .ok (withDirectory (M.bump sizeofDirectory true)) := by
  unfold newKernelDirectory
  rw [allocInternal_noHeap h, ok_bind]
  rfl

/-- The bit set is all clear, below `base_address` only its memory is given. -/
theorem Start.frames (h : Start M) (numFrames : Nat) (hb : Below (M.withFrames numFrames)) :
    Bumped (M.withFrames numFrames).allocator := by
  have hb₁ : Below (bump (numFrames / 32 * 4) false (M.bump sizeofBitset false).2).2 := hb
  have hb₀ : Below (M.bump sizeofBitset false).2 := hb₁.of_bump
  have hbase : M.allocator.baseAddress + 8 ≤ kheapStart :=
    hb₀ ⟨M.allocator.baseAddress, sizeofBitset, false⟩ List.mem_cons_self
  have hstart : Bumped M.allocator := by
    refine ⟨h.low, by omega, ?_, ?_, ?_, ?_⟩ <;> rw [h.regions]
    · exact fun r hr => absurd hr List.not_mem_nil
    · exact List.Pairwise.nil
    · exact fun r hr => absurd hr List.not_mem_nil
    · exact fun r hr => absurd hr List.not_mem_nil
  exact ((hstart.bump hb₀).1.bump hb₁).1

/-- A `kernel_directory` without tables, over an all-clear bit set. -/
theorem Bumped.booted {numFrames : Nat} (h : Bumped M.allocator) (hd : M.liveDirectories = [])
    (hf : M.paging.frames = .create numFrames) (hn : 32 * (numFrames / 32) ≤ 0x100000)
    (hb : Below (M.bump sizeofDirectory true).2) :
    Booted (numFrames / 32) 0 0 (withDirectory (M.bump sizeofDirectory true)) := by
  obtain ⟨hB, -, hend⟩ := h.bump hb
  have hhigh := hB.high
  have hP := paging_bump M sizeofDirectory true
  have hL := liveDirectories_bump M sizeofDirectory true
  have hR := regions_bump M sizeofDirectory true
  generalize M.bump sizeofDirectory true = r at *
  have hT : ∀ i, (withDirectory r).paging.kernelTable i = 0 := fun i => by
    simp only [withDirectory, kernelTable, withPaging, newDirectory, setDirectory,
      Function.update_self]
  have hframes : (withDirectory r).paging.frames = .create numFrames := by
    rw [← hf, ← hP]
    rfl
  simp only [sizeofDirectory] at hend
  refine ⟨hB, ?_, ?_, ?_, fun i _ hne => absurd (hT i) hne, fun i _ hne => absurd (hT i) hne, ?_,
    ⟨?_, ?_, ?_, ?_, ?_, ?_, ?_⟩⟩
  · show r.1 :: r.2.liveDirectories = [r.1]
    rw [hL, hd]
  · show r.1 < kheapStart
    omega
  · show ⟨r.1, sizeofDirectory, true⟩ ∈ r.2.allocator.regions
    rw [hR]
    exact List.mem_cons_self
  · rw [hframes]
    rfl
  · exact fun i _ _ _ hne => absurd (hT i) hne
  · rw [hframes]
    exact hn
  · exact Nat.zero_le _
  · exact Nat.le_refl 0
  · intro f _
    rw [hframes, Bitset.bit_create]
    rfl
  · exact fun v hv => absurd hv (Nat.not_lt_zero v)
  · exact fun v _ _ hne => absurd (hT _) hne

theorem Start.room {numFrames : Nat} (h : Start M)
    (hB : M.allocator.baseAddress + 4 * (numFrames / 32) + 8409100 ≤ B) :
    Room B (withDirectory (bump sizeofDirectory true (M.withFrames numFrames))) := by
  have hle₀ := bump_le M sizeofBitset false
  have hR₀ := regions_bump M sizeofBitset false
  have hle₁ := bump_le (M.bump sizeofBitset false).2 (numFrames / 32 * 4) false
  have hR₁ := regions_bump (M.bump sizeofBitset false).2 (numFrames / 32 * 4) false
  have hle₂ := bump_le (M.withFrames numFrames) sizeofDirectory true
  have hR₂ := regions_bump (M.withFrames numFrames) sizeofDirectory true
  have hA : (M.withFrames numFrames).allocator =
    (bump (numFrames / 32 * 4) false (M.bump sizeofBitset false).2).2.allocator := rfl
  generalize bump sizeofDirectory true (M.withFrames numFrames) = r at *
  have hnull : (withDirectory r).nullSlots ≤ 1024 := by
    refine List.countP_le_length.trans (Nat.le_of_eq ?_)
    rw [List.length_range, arraySize]
  rw [hA] at hle₂ hR₂
  generalize bump (numFrames / 32 * 4) false (M.bump sizeofBitset false).2 = r₁ at *
  generalize M.bump sizeofBitset false = r₀ at *
  simp only [sizeofBitset, sizeofDirectory] at hle₀ hle₂ hR₀ hR₂
  constructor
  · show r.2.allocator.baseAddress + _ ≤ B
    omega
  · intro x hx
    have hx : x ∈ r.2.allocator.regions := hx
    rw [hR₂, hR₁, hR₀, h.regions] at hx
    simp only [List.mem_cons, List.not_mem_nil, or_false] at hx
    rcases hx with rfl | rfl | rfl
    · show r.1 + 8196 ≤ B
      omega
    · show r₁.1 + numFrames / 32 * 4 ≤ B
      omega
    · show r₀.1 + 8 ≤ B
      omega

/-! ## Up to the heaps -/

/-- The frames of the memory size, `num_frames`. -/
def numFrames (memEnd : Nat) : Nat :=
  (memEnd * 1024 % 4294967296 - memEnd * 1024 % 4294967296 % 0x1000) / 0x1000

theorem numFrames_le (memEnd : Nat) : 32 * (numFrames memEnd / 32) ≤ 0x100000 := by
  have h : memEnd * 1024 % 4294967296 < 4294967296 := Nat.mod_lt _ (by decide)
  unfold numFrames
  omega

/-- The state the heaps are created in: `K` pages mapped to themselves, a page or two past
`base_address`, and the frames of the heaps' first pages. -/
def Bootstrapped (n : Nat) (M : Kernel) : Prop :=
  ∃ K k, Booted n K k M ∧ Held HeapSlot M ∧ M.allocator.baseAddress + 0x1000 ≤ 4096 * K ∧
    4096 * K ≤ M.allocator.baseAddress + 0x2000 ∧ k ≤ K + 1280

/-- The pages the heaps start with have the rights `memory::Initialize` gives them: the kernel heap's
are not writable. The pages the user heap may grow into have no frames. -/
structure FirstPages (P : Paging) : Prop where
  kheap : ∀ v, 0xC0081 ≤ v → v < 0xC0100 → P.Granted v false
  uheap : ∀ v, 0xD0000 ≤ v → v < 0xD0400 → P.Granted v true
  rest : ∀ v, 0xD0400 ≤ v → v < 0xE0000 → (P.page (P.pageAt v)).frame = 0

theorem FirstPages.congr {P P' : Paging} (h : FirstPages P)
    (hT : ∀ i, P'.kernelTable i = P.kernelTable i) (ht : P'.tables = P.tables) :
    FirstPages P' := by
  have hpage : ∀ v, P'.page (P'.pageAt v) = P.page (P.pageAt v) := fun v => by
    rw [Paging.page, Paging.page, Paging.pageAt, Paging.pageAt, hT, ht]
  exact ⟨fun v h1 h2 => (h.kheap v h1 h2).congr (hpage v),
    fun v h1 h2 => (h.uheap v h1 h2).congr (hpage v), fun v h1 h2 => by
      rw [hpage]
      exact h.rest v h1 h2⟩

/-- The kernel heap's first pages have the frames from `c` on in order, and the user heap's first page
the next one. The pages the kernel heap may grow into have none. -/
structure FirstFrames (P : Paging) (c : Nat) : Prop where
  kheap : ∀ v, 0xC0081 ≤ v → v < 0xC0100 → (P.page (P.pageAt v)).frame + 0xC0081 = c + v
  uheap : (P.page (P.pageAt 0xD0000)).frame = c + 127
  rest : ∀ v, 0xC0100 ≤ v → v < 0xD0000 → (P.page (P.pageAt v)).frame = 0

theorem FirstFrames.congr {P P' : Paging} {c : Nat} (h : FirstFrames P c)
    (hT : ∀ i, P'.kernelTable i = P.kernelTable i) (ht : P'.tables = P.tables) :
    FirstFrames P' c := by
  have hpage : ∀ v, P'.page (P'.pageAt v) = P.page (P.pageAt v) := fun v => by
    rw [Paging.page, Paging.page, Paging.pageAt, Paging.pageAt, hT, ht]
  obtain ⟨h1, h2, h3⟩ := h
  refine ⟨?_, ?_, ?_⟩ <;> simpa only [hpage]

/-- While the user heap's pages get their frames: up to the address `i`. -/
structure FramesUpTo (P : Paging) (K c i : Nat) : Prop where
  kheap : ∀ v, 0xC0081 ≤ v → v < 0xC0100 → (P.page (P.pageAt v)).frame + 0xC0081 = c + v
  next : i ≤ 0xD0000000 → Backed P K (c + 127)
  uheap : 0xD0000000 < i → (P.page (P.pageAt 0xD0000)).frame = c + 127
  rest : ∀ v, 0xC0100 ≤ v → v < 0xD0000 → (P.page (P.pageAt v)).frame = 0

theorem FramesUpTo.fill {P P' : Paging} {K k c i : Nat} {w : Bool} (h : FramesUpTo P K c i)
    (hb : Backed P K k) (hx : P.Filled 0xD0000 0xE0000 i w) (hal : i % 4096 = 0)
    (h1 : 0xD0000000 ≤ i) (h2 : i < 0xE0000000) (hT : P.kernelTable (i / 4096 / 1024) ≠ 0)
    (ha : P.allocFrame (P.pageAt (i / 4096)) false w = .ok P') : FramesUpTo P' K c (i + 4096) := by
  have hs := allocFrame_same ha
  have hother : ∀ v, v < 0x100000 → v ≠ i / 4096 → P'.page (P'.pageAt v) = P.page (P.pageAt v) :=
    fun v hv hne => by
      rw [hs.pageAt]
      exact allocFrame_page ha fun he => hne (hb.pageAt_inj hv (by omega) hT he)
  refine ⟨fun v h3 h4 => ?_, fun h => absurd h (by omega), fun _ => ?_, fun v h3 h4 => ?_⟩
  · rw [hother v (by omega) (by omega)]
    exact h.kheap v h3 h4
  · by_cases hi : i = 0xD0000000
    · subst hi
      have hz := hx.unframed (v := 0xD0000) (by decide) (by decide) (by decide)
      obtain ⟨-, -, -, hframe, -⟩ := (h.next (by decide)).given (v := 0xD0000) (by decide) hT hz ha
      rw [hs.pageAt, hframe]
    · rw [hother 0xD0000 (by decide) (by omega)]
      exact h.uheap (by omega)
  · rw [hother v (by omega) (by omega)]
    exact h.rest v h3 h4

/-- No page of the heaps has a frame when the identity mapping is done. -/
theorem Booted.unfilled (h : Booted n K K M) (hheld : Held HeapSlot M)
    (hK : 4096 * K ≤ M.allocator.baseAddress + 0x2000) (w : Bool) :
    M.paging.Filled 0xC0081 0xE0000 kheapStart w := by
  have hhigh := h.bumped.high
  intro v hlo hv
  rw [kheapStart_eq] at hhigh ⊢
  rw [if_neg (by omega)]
  rcases h.backed.above v (by omega) (by omega) (hheld _ ⟨by omega, by omega⟩) with h0 | h0
  · exact h0.1
  · omega

theorem heapBounds_eq : kheapStart + kheapInitialSize = 0xC0100000 ∧ uheapStart = 0xD0000000 ∧
    uheapStart + uheapInitialSize = 0xD0400000 := by decide

theorem framesUpTo_of {P : Paging} {K : Nat} {w : Bool}
    (hx : P.Filled 0xC0081 0xE0000 (kheapStart + kheapInitialSize) w)
    (hord : P.Ordered K 0xC0081 (kheapStart + kheapInitialSize)) :
    ∃ c, FramesUpTo P K c uheapStart := by
  obtain ⟨e1, e2, -⟩ := heapBounds_eq
  rw [e1] at hx hord
  rw [e2]
  obtain ⟨k, hb, hframes⟩ := hord
  have hfirst := hframes 0xC0081 (by decide) (by decide)
  have hk : (P.page (P.pageAt 0xC0081)).frame + 127 = k := by omega
  refine ⟨(P.page (P.pageAt 0xC0081)).frame, fun v h1 h2 => ?_, fun _ => hk.symm ▸ hb,
    fun h => absurd h (by decide), fun v h1 h2 => hx.unframed (by omega) (by omega) (by omega)⟩
  have := hframes v h1 (by omega)
  omega

/-- **The heaps' first pages get frames and rights**, without taking memory. -/
theorem heapPages_boots (h : Ready G B M fun M => Booted n K K M ∧ Held HeapSlot M ∧ 0 < K ∧
      4096 * K ≤ M.allocator.baseAddress + 0x2000) (hB : B ≤ kheapStart)
    (hS : G → 32 * n < K + 1280 → S) :
    Boots G B S M (do
      let M ← allocPages rounds fresh false kheapStart (kheapStart + kheapInitialSize) M
      allocPages rounds fresh true uheapStart (uheapStart + uheapInitialSize) M)
      fun M' => ∃ k ≤ K + 1280, Booted n K k M' ∧ Held HeapSlot M' ∧
        M'.allocator = M.allocator ∧ FirstPages M'.paging ∧ ∃ c, FirstFrames M'.paging c := by
  obtain ⟨e1, e2, e3⟩ := heapBounds_eq
  have hk : (kheapStart + kheapInitialSize - kheapStart) / 4096 = 256 := by decide
  have hu : (uheapStart + uheapInitialSize - uheapStart) / 4096 = 1024 := by decide
  have h₁ := @allocPages_boots rounds fresh G S B n K K M HeapSlot kheapStart
    (kheapStart + kheapInitialSize) false M.allocator
    (fun i P => 0 < K ∧ P.Filled 0xC0081 0xE0000 i false ∧ P.Ordered K 0xC0081 i)
    (h.imp fun hI => ⟨hI.1, hI.2.1, rfl, hI.2.2.1, hI.1.unfilled hI.2.1 hI.2.2.2 false, K,
      hI.1.backed, fun v h1 h2 => by
        rw [kheapStart_eq] at h2
        omega⟩)
    (fun hP hx hal h1 h2 hT ha => ⟨hx.1, hP.fill (hx.1.trans_le hP.le) hal
      (h2.trans (by decide)) (by decide) hT hx.2.1 ha, hx.2.2.fill hx.2.1 (le_trans (by decide) h1)
        hal (h2.trans (by decide)) (by omega) hT ha⟩) hB (by decide) (by decide) (by decide)
    (by decide) (by decide) (fun a h1 h2 => heapSlot_of h1 (h2.trans (by decide)))
    fun g hlt => hS g (by omega)
  refine h₁.seq fun M₁ h₁ => Boots.exists h₁ fun k h₁ => ?_
  have h₂ := @allocPages_boots rounds fresh G S B n K k M₁ HeapSlot uheapStart
    (uheapStart + uheapInitialSize) true M.allocator
    (fun i P => 0 < K ∧ (∀ v, 0xC0081 ≤ v → v < 0xC0100 → P.Granted v false) ∧
      P.Filled 0xD0000 0xE0000 i true ∧ ∃ c, FramesUpTo P K c i)
    (h₁.imp fun ⟨_, hI, hT, hA, hK, hx, hord⟩ => ⟨hI, hT, hA, hK,
      fun v hlo hv => hx.granted hlo (by omega) (by omega),
      hx.rest (by decide) (by omega) (by omega), framesUpTo_of hx hord⟩)
    (fun hP hx hal h1 h2 hT ha => ⟨hx.1, fun v hlo hv => (hx.2.1 v hlo hv).alloc ha,
      hP.fill (hx.1.trans_le hP.le) hal (h2.trans (by decide)) (by decide) hT hx.2.2.1 ha,
      hx.2.2.2.imp fun c hc => hc.fill hP hx.2.2.1 hal h1 (h2.trans (by decide)) hT ha⟩)
    hB (by decide) (by decide) (by decide) (by decide) (by decide)
    (fun a h1 h2 => heapSlot_of (le_trans (by decide) h1) (h2.trans (by decide)))
    fun g hlt => hS g ?_
  · refine h₂.imp fun M' hb ⟨k', hk', hI, hT, hA, hK, hkern, huser, c, hc⟩ => ⟨k', ?_, hI, hT, hA,
      ⟨hkern, fun v hlo hv => huser.granted hlo (by omega) (by omega), fun v hlo hv => ?_⟩, c,
      hc.kheap, hc.uheap (by decide), hc.rest⟩
    · have := (h₁.holds hb).1
      omega
    · exact huser.unframed (by omega) hv (by omega)
  · have := (h₁.holds ((h₁.room g).below hB)).1
    omega

/-- **`memory::Initialize` up to the heaps.** With room for it below the kernel heap it stops only
when the frames run out. -/
theorem bootstrap_boots {memEnd : Nat} (h : Start M) (hB : B ≤ kheapStart)
    (hG : G → M.allocator.baseAddress + 4 * (numFrames memEnd / 32) + 8409100 ≤ B)
    (hS : G → 4096 * (32 * (numFrames memEnd / 32)) < B + 0x502000 → S) :
    Meets (bootstrap rounds fresh memEnd M)
      (fun M' => Ready G B M' fun M' => Bootstrapped (numFrames memEnd / 32) M' ∧
        FirstPages M'.paging ∧ ∃ c, FirstFrames M'.paging c) fun _ => G → S := by
  have hcode : bootstrap rounds fresh memEnd M = (do
      let M ← mapPages rounds fresh kheapStart kheapEnd
        (withDirectory (bump sizeofDirectory true (M.withFrames (numFrames memEnd))))
      let M ← mapPages rounds fresh uheapStart uheapEnd M
      let M ← identityMap rounds fresh M
      let M ← allocPages rounds fresh false kheapStart (kheapStart + kheapInitialSize) M
      allocPages rounds fresh true uheapStart (uheapStart + uheapInitialSize) M) := by
    have hn : NoHeap (M.withFrames (numFrames memEnd)) := h.noHeap
    unfold bootstrap
    simp only
    rw [show (memEnd * 1024 % 4294967296 - memEnd * 1024 % 4294967296 % 0x1000) / 0x1000 =
      numFrames memEnd from rfl, newFrames_eq h.noHeap, ok_bind, newKernelDirectory_eq hn, ok_bind]
  have hstart : Ready G B (withDirectory (bump sizeofDirectory true
      (M.withFrames (numFrames memEnd)))) fun M' => Booted (numFrames memEnd / 32) 0 0 M' ∧
        Held (fun _ => False) M' := by
    refine ⟨h.noHeap, fun hb => ⟨?_, fun _ hs => hs.elim⟩, fun g => h.room (hG g)⟩
    have hb₂ : Below (bump sizeofDirectory true (M.withFrames (numFrames memEnd))).2 := hb
    exact (h.frames _ hb₂.of_bump).booted h.directories rfl (numFrames_le memEnd) hb₂
  rw [hcode]
  generalize withDirectory (bump sizeofDirectory true (M.withFrames (numFrames memEnd))) = M₀ at *
  generalize numFrames memEnd / 32 = n at *
  refine Meets.imp (Q := fun M' => (Below M' → Below M₀) ∧ Ready G B M' fun M' =>
    Bootstrapped n M' ∧ FirstPages M'.paging ∧ ∃ c, FirstFrames M'.paging c) ?_ fun M' hM' => hM'.2
  show Boots G B S M₀ _ fun M' => Bootstrapped n M' ∧ FirstPages M'.paging ∧
    ∃ c, FirstFrames M'.paging c
  refine (mapPages_boots hstart hB (by decide) (by decide) (by decide) (by decide)).seq fun M₁ h₁ => ?_
  refine (mapPages_boots h₁ hB (by decide) (by decide) (by decide) (by decide)).seq fun M₂ h₂ => ?_
  have h₂ : Ready G B M₂ fun M => Booted n 0 0 M ∧ Held HeapSlot M := h₂.imp fun ⟨h1, h2⟩ =>
    ⟨h1, fun s ⟨hlo, hhi⟩ => h2 s <| by
      unfold kheapStart kheapEnd uheapStart uheapEnd
      omega⟩
  refine (identityMap_boots h₂ hB fun g hlt => hS g (by omega)).seq fun M₃ h₃ => ?_
  refine Boots.exists h₃ fun K h₃ => ?_
  have hK : G → 4096 * K ≤ B + 0x2000 := fun g => by
    have hroom := h₃.room g
    have := (h₃.holds (hroom.below hB)).2.2.2
    have := hroom.base
    omega
  refine (heapPages_boots (h₃.imp fun hI => ⟨hI.1, hI.2.1, by omega, hI.2.2.2⟩) hB
    fun g hlt => hS g ?_).imp fun M' hb ⟨k, hk, hI, hT, hA, hf⟩ =>
      ⟨⟨K, k, hI, hT, hA ▸ (h₃.holds hb).2.2.1, hA ▸ (h₃.holds hb).2.2.2, hk⟩, hf⟩
  have := hK g
  omega

end Kernel

end Dmanix
