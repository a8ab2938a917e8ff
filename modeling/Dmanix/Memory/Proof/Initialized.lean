import Dmanix.Memory.Proof.Bootstrap
import Dmanix.Memory.Proof.Create
import Dmanix.Memory.Proof.HeapPages
import Dmanix.Memory.Proof.Clone

/-!
# After `memory::Initialize`

The last stages allocate from heaps whose blocks are known (`HeapAt`), so they return and leave a
known state: `createHeaps_ok`. `Initialized` is what holds then: the heaps with their first blocks,
and a current directory that shares every table of `kernel_directory`.
-/

namespace Dmanix

open Word32 Bytes Outcome Machine Paging Tiling

namespace Kernel

/-! ## Heaps with known blocks -/

/-- The heap `name` starts at `lo`, may grow to `hi` and consists of the blocks `bs`. -/
def HeapAt (M : Kernel) (name : HeapName) (lo hi : Nat) (bs : List Block) : Prop :=
  ∃ h, M.allocator.heap name = some h ∧ h.startAddress = lo ∧ h.maxAddress = hi ∧
    WF (M.heapState h) bs

/-- The same pages, directories and memory given before the heap. -/
structure SameKernel (M M' : Kernel) : Prop where
  paging : M'.paging = M.paging
  liveDirectories : M'.liveDirectories = M.liveDirectories
  baseAddress : M'.allocator.baseAddress = M.allocator.baseAddress
  regions : M'.allocator.regions = M.allocator.regions

theorem SameKernel.trans {M M' M'' : Kernel} (h : SameKernel M M') (h' : SameKernel M' M'') :
    SameKernel M M'' :=
  ⟨h'.paging.trans h.paging, h'.liveDirectories.trans h.liveDirectories,
    h'.baseAddress.trans h.baseAddress, h'.regions.trans h.regions⟩

variable {rounds : Nat} {fresh : Mem} {M : Kernel} {name : HeapName} {s : HeapState}
  {lo hi : Nat} {bs : List Block}

theorem sameKernel_put (hp : s.paging = M.paging) : SameKernel M (M.putHeap name s) :=
  ⟨hp, rfl, rfl, rfl⟩

theorem heapAt_put (hwf : WF s bs) (hlo : s.startAddress = lo) (hhi : s.maxAddress = hi) :
    HeapAt (M.putHeap name s) name lo hi bs := by
  refine ⟨s.toHeap, if_pos rfl, hlo, hhi, ?_⟩
  exact hwf.moved rfl (.refl s.endAddress s.endAddress _) (.inl (Nat.le_refl _)) rfl

theorem HeapAt.put {name' : HeapName} {a b : Nat} (h : HeapAt M name lo hi bs)
    (hne : name ≠ name') (ho : Off a b M.allocator.mem s.mem)
    (hx : lo + extent Block.size bs ≤ a ∨ b ≤ lo) : HeapAt (M.putHeap name' s) name lo hi bs := by
  obtain ⟨g, hg, hlo, hhi, hwf⟩ := h
  refine ⟨g, (if_neg hne).trans hg, hlo, hhi, hwf.moved rfl ho ?_ rfl⟩
  have hf := hwf.fills
  have hst : (M.heapState g).startAddress = lo := hlo
  omega

theorem HeapAt.congr {N : Kernel} (h : HeapAt M name lo hi bs)
    (ha : N.allocator = M.allocator) : HeapAt N name lo hi bs := by
  obtain ⟨g, hg, hlo, hhi, hwf⟩ := h
  refine ⟨g, by rw [ha]; exact hg, hlo, hhi, ?_⟩
  have hoff : Off g.endAddress g.endAddress M.allocator.mem N.allocator.mem := by
    rw [ha]
    exact .refl _ _ _
  exact hwf.moved rfl hoff (.inl (Nat.le_refl _)) rfl

/-- **A heap is made.** -/
theorem create_at (M : Kernel) (name : HeapName) (start endAddr max : Nat)
    (hs : start % 4096 = 0) (he : endAddr % 4096 = 0) (hlo : start + 0x81008 ≤ endAddr)
    (hhi : endAddr < 0xF0000000) (hsz : endAddr ≤ start + 0x400000) :
    ∃ s, Heap.create start endAddr max false false M.allocator.mem M.paging = .ok s ∧
      SameKernel M (M.putHeap name s) ∧
      HeapAt (M.putHeap name s) name (start + 0x81000) max
        [⟨true, endAddr - (start + 0x81000)⟩] ∧
      Off (start + 0x81000) endAddr M.allocator.mem s.mem := by
  obtain ⟨s, h⟩ := Heap.create_returns max false false M.allocator.mem M.paging hs he
  obtain ⟨hwf, hp, hst, -, hmax, hoff⟩ := Heap.create_ok hlo (by omega) (by omega) h
  exact ⟨s, h, sameKernel_put hp, heapAt_put hwf hst hmax, hoff⟩

theorem getPhysicalAddress_ok {a : Nat}
    (h : (M.paging.directories M.paging.currentDirectory).tables (a / 0x1000 / 1024) ≠ 0) :
    ∃ physical, M.getPhysicalAddress a = .ok physical := by
  unfold getPhysicalAddress
  rw [getPage_some h]
  exact ⟨_, rfl⟩

theorem allocInternal_heap {g : Heap} {p size : Nat} {pageAlign : Bool} (phys : Bool)
    (hg : M.allocator.heap name = some g)
    (ha : (M.heapState g).allocN rounds size pageAlign fresh = .ok (p, s))
    (hp : phys = true → ∃ physical, (M.putHeap name s).getPhysicalAddress p = .ok physical) :
    ∃ physical, allocInternal rounds fresh name size pageAlign phys M =
      .ok (p, physical, M.putHeap name s) := by
  unfold allocInternal
  rw [hg]
  dsimp only
  rw [ha]
  cases phys with
  | false => exact ⟨0, rfl⟩
  | true =>
    obtain ⟨physical, hp⟩ := hp rfl
    refine ⟨physical, ?_⟩
    show (getPhysicalAddress p (M.putHeap name s) >>= _) = _
    rw [hp]
    rfl

/-- **Memory is taken from the one large hole** of a heap. -/
theorem HeapAt.alloc (rounds : Nat) (fresh : Mem) (l : List Block) {r : List Block}
    {n pos : Nat} (size : Nat) (pageAlign phys : Bool)
    (h : HeapAt M name lo hi (l ++ ⟨true, n⟩ :: r)) (hpos : pos = lo + extent Block.size l)
    (hsz : size ≤ 4194304) (hfit : size + 8 + gapOffset pageAlign pos ≤ n)
    (hsplit : SplitOk pageAlign pos n (size + 8))
    (hother : ∀ b ∈ l ++ r, b.hole = true → b.size < size + 8)
    (hroom : (l ++ ⟨true, n⟩ :: r).length + 1 < 0x20000)
    (hphys : phys = true → (M.paging.directories M.paging.currentDirectory).tables
      ((pos + gapSize pageAlign pos + 4) / 0x1000 / 1024) ≠ 0) :
    ∃ s physical, allocInternal rounds fresh name size pageAlign phys M =
        .ok (pos + gapSize pageAlign pos + 4, physical, M.putHeap name s) ∧
      SameKernel M (M.putHeap name s) ∧
      HeapAt (M.putHeap name s) name lo hi
        (l ++ (carved n (size + 8) (gapSize pageAlign pos) ++ r)) ∧
      Off pos (pos + n) M.allocator.mem s.mem := by
  obtain ⟨g, hg, hlo, hhi, hwf⟩ := h
  obtain ⟨s, ha, hr, hwf'⟩ := hwf.alloc_at rounds fresh
    (show pos = g.startAddress + _ by rw [hlo]; exact hpos) hsz hfit hsplit hother hroom
  have hsame : SameKernel M (M.putHeap name s) := sameKernel_put hr.paging
  obtain ⟨physical, hal⟩ := allocInternal_heap phys hg ha fun h =>
    getPhysicalAddress_ok (by rw [hsame.paging]; exact hphys h)
  exact ⟨s, physical, hal, hsame, heapAt_put hwf' (hr.startAddress.trans hlo)
    (hr.maxAddress.trans hhi), hr.off⟩

/-! ## The heaps and the first clone -/

/-- The blocks of the kernel heap: the user heap's object, and the first directory cloned. -/
def kheapBlocks : List Block := [⟨false, 40⟩, ⟨true, 4052⟩, ⟨false, 8204⟩, ⟨true, 507896⟩]

def uheapBlocks : List Block := [⟨true, 3665920⟩]

/-- Where the first clone lies. -/
def firstClone : Nat := 0xC0082000

/-- The kernel heap is made, its object in the memory before the heap. -/
theorem createHeap_kernel (rounds : Nat) (fresh : Mem) (hn : NoHeap M) : ∃ M₁,
    createHeap rounds fresh .kheap kheapStart (kheapStart + kheapInitialSize) kheapEnd M = .ok M₁ ∧
      SameKernel (M.bump sizeofHeap false).2 M₁ ∧
      HeapAt M₁ .kheap 0xC0081000 kheapEnd [⟨true, 520192⟩] := by
  obtain ⟨s, hs, hsame, hat, -⟩ := create_at (M.bump sizeofHeap false).2 .kheap kheapStart
    (kheapStart + kheapInitialSize) kheapEnd (by decide) (by decide) (by decide) (by decide)
    (by decide)
  refine ⟨_, ?_, hsame, hat⟩
  unfold createHeap kalloc
  rw [allocInternal_noHeap hn, ok_bind]
  dsimp only
  rw [hs]
  rfl

theorem createHeap_user (rounds : Nat) (fresh : Mem)
    (h : HeapAt M .kheap 0xC0081000 kheapEnd [⟨true, 520192⟩]) : ∃ M₁,
    createHeap rounds fresh .uheap uheapStart (uheapStart + uheapInitialSize) uheapEnd M = .ok M₁ ∧
      SameKernel M M₁ ∧ HeapAt M₁ .kheap 0xC0081000 kheapEnd [⟨false, 40⟩, ⟨true, 520152⟩] ∧
      HeapAt M₁ .uheap 0xD0081000 uheapEnd uheapBlocks := by
  obtain ⟨t, q, ht, hsame, hk, -⟩ := HeapAt.alloc rounds fresh [] sizeofHeap false false h rfl
    (by decide) (by decide) (by decide) (by decide) (by decide) nofun
  obtain ⟨s, hs, hsame', hu, hoff⟩ := create_at (M.putHeap .kheap t) .uheap uheapStart
    (uheapStart + uheapInitialSize) uheapEnd (by decide) (by decide) (by decide) (by decide)
    (by decide)
  refine ⟨_, ?_, hsame.trans hsame', hk.put (by decide) hoff (.inl (by decide)), hu⟩
  unfold createHeap kalloc
  rw [ht, ok_bind]
  dsimp only
  rw [hs]
  rfl

/-- What holds after `memory::Initialize`. -/
structure Initialized (n : Nat) (M : Kernel) : Prop where
  bumped : Bumped M.allocator
  kernel : M.paging.kernelDirectory < kheapStart
  kernelRegion : ⟨M.paging.kernelDirectory, sizeofDirectory, true⟩ ∈ M.allocator.regions
  current : M.paging.currentDirectory = firstClone
  directories : M.liveDirectories = [firstClone, M.paging.kernelDirectory]
  tables : ∀ i < 1024, M.paging.kernelTable i ≠ 0 →
    ⟨M.paging.kernelTable i, sizeofTable, true⟩ ∈ M.allocator.regions ∧
    (M.paging.directories M.paging.kernelDirectory).physical i = M.paging.kernelTable i ||| 0x7
  shared : ∀ i < 1024, (M.paging.directories firstClone).tables i = M.paging.kernelTable i ∧
    (M.paging.kernelTable i ≠ 0 → (M.paging.directories firstClone).physical i =
      (M.paging.directories M.paging.kernelDirectory).physical i)
  held : Held HeapSlot M
  slots : ∀ i < 1024, M.paging.kernelTable i ≠ 0 →
    HeapSlot i ∨ 0x400000 * i ≤ M.allocator.baseAddress + 0x2000
  size : M.paging.frames.size = n
  identity : ∃ K k, Backed M.paging K k ∧ M.allocator.baseAddress ≤ 4096 * K ∧
    4096 * K ≤ M.allocator.baseAddress + 0x2000 ∧ k ≤ K + 1280
  kheap : HeapAt M .kheap 0xC0081000 kheapEnd kheapBlocks
  uheap : HeapAt M .uheap 0xD0081000 uheapEnd uheapBlocks

theorem Initialized.shares {n d i : Nat} (h : Initialized n M) (hd : d ∈ M.liveDirectories)
    (hi : i < 1024) (hT : M.paging.kernelTable i ≠ 0) :
    (M.paging.directories d).tables i = M.paging.kernelTable i ∧
    (M.paging.directories d).physical i = M.paging.kernelTable i ||| 0x7 := by
  have hk := (h.tables i hi hT).2
  rw [h.directories, List.mem_cons, List.mem_singleton] at hd
  rcases hd with rfl | rfl
  · exact ⟨(h.shared i hi).1, ((h.shared i hi).2 hT).trans hk⟩
  · exact ⟨rfl, hk⟩

/-- `M'` is `M` with the first clone of `kernel_directory` as the current directory, and with memory for
one heap object given before the heap. -/
structure FirstCloned (M M' : Kernel) : Prop where
  regions : M'.allocator.regions = (M.bump sizeofHeap false).2.allocator.regions
  baseAddress : M'.allocator.baseAddress = (M.bump sizeofHeap false).2.allocator.baseAddress
  kernel : M'.paging.kernelDirectory = M.paging.kernelDirectory
  current : M'.paging.currentDirectory = firstClone
  liveDirectories : M'.liveDirectories = firstClone :: M.liveDirectories
  frames : M'.paging.frames = M.paging.frames
  pages : M'.paging.tables = M.paging.tables
  source : M'.paging.directories M.paging.kernelDirectory =
    M.paging.directories M.paging.kernelDirectory
  tables : ∀ i < arraySize, (M'.paging.directories firstClone).tables i = M.paging.kernelTable i
  physical : ∀ i < arraySize, M.paging.kernelTable i ≠ 0 →
    (M'.paging.directories firstClone).physical i =
      (M.paging.directories M.paging.kernelDirectory).physical i

/-- **The heaps are created**, and the first directory cloned. -/
theorem createHeaps_firstCloned (rounds : Nat) (fresh : Mem) (hn : NoHeap M)
    (hker : M.paging.kernelDirectory < kheapStart) (h768 : M.paging.kernelTable 768 ≠ 0) :
    ∃ M', createHeaps rounds fresh M = .ok M' ∧ FirstCloned M M' ∧
      HeapAt M' .kheap 0xC0081000 kheapEnd kheapBlocks ∧
      HeapAt M' .uheap 0xD0081000 uheapEnd uheapBlocks := by
  generalize hM₀ : switchPageDirectory M.paging.kernelDirectory M = M₀
  have hn₀ : NoHeap M₀ := by rw [← hM₀]; exact hn
  have hA : (M₀.bump sizeofHeap false).2.allocator = (M.bump sizeofHeap false).2.allocator := by
    rw [← hM₀]
    rfl
  have hP₀ : M₀.paging = { M.paging with currentDirectory := M.paging.kernelDirectory } := by
    rw [← hM₀]
    rfl
  have hlive₀ : M₀.liveDirectories = M.liveDirectories := by
    rw [← hM₀]
    rfl
  obtain ⟨M₁, h₁, hs₁, hat₁⟩ := createHeap_kernel rounds fresh hn₀
  obtain ⟨M₂, h₂, hs₂, hk₂, hu₂⟩ := createHeap_user rounds fresh hat₁
  have hs : SameKernel (M₀.bump sizeofHeap false).2 M₂ := hs₁.trans hs₂
  have hP : M₂.paging = M₀.paging := hs.paging.trans (paging_bump M₀ sizeofHeap false)
  have hkd : M₀.paging.kernelDirectory = M.paging.kernelDirectory := by rw [hP₀]
  have hne : M.paging.kernelDirectory ≠ firstClone := by
    rw [kheapStart_eq] at hker
    rw [firstClone]
    omega
  -- the directory, and its tables
  obtain ⟨t, phys, ht, hs₃, hk₃, hoff⟩ := HeapAt.alloc rounds fresh [⟨false, 40⟩] sizeofDirectory
    true true hk₂ rfl (by decide) (by decide) (by decide) (by decide) (by decide) fun _ => by
      rw [hP, hP₀]
      exact h768
  replace ht : kallocPa rounds fresh sizeofDirectory M₂ =
    .ok (firstClone, phys, M₂.putHeap .kheap t) := ht
  have hP₃ : (M₂.putHeap .kheap t).paging = M₀.paging := hs₃.paging.trans hP
  have hk₃' : (M₂.putHeap .kheap t).paging.kernelDirectory = M.paging.kernelDirectory := by
    rw [hP₃, hkd]
  obtain ⟨M₄, h₄, hc⟩ := @clone_shared _ _ _ _ M₂.paging.kernelDirectory _ _ ht
    (by rw [hP, hkd]; exact hne) (by rw [hk₃']; exact hne) fun i _ _ => by rw [hs₃.paging]
  have hsrc : (M₂.putHeap .kheap t).paging.directories M₂.paging.kernelDirectory =
      M.paging.directories M.paging.kernelDirectory := by
    rw [hP₃, hP, hkd, hP₀]
  refine ⟨switchPageDirectory firstClone M₄, ?_, ?_, hk₃.congr hc.allocator,
    (hu₂.put (by decide) hoff (.inr (by decide))).congr hc.allocator⟩
  · unfold createHeaps
    dsimp only
    rw [hM₀, h₁, ok_bind, h₂, ok_bind]
    show (clone (kallocPa rounds fresh) _ M₂ >>= _) = _
    rw [h₄]
    rfl
  · constructor
    · show M₄.allocator.regions = _
      rw [hc.allocator, hs₃.regions, hs.regions, hA]
    · show M₄.allocator.baseAddress = _
      rw [hc.allocator, hs₃.baseAddress, hs.baseAddress, hA]
    · exact hc.kernel.trans hk₃'
    · rfl
    · show M₄.liveDirectories = _
      rw [hc.liveDirectories, hs₃.liveDirectories, hs.liveDirectories, liveDirectories_bump, hlive₀]
    · show M₄.paging.frames = _
      rw [hc.frames, hP₃, hP₀]
    · show M₄.paging.tables = _
      rw [hc.pages, hP₃, hP₀]
    · show M₄.paging.directories _ = _
      rw [hc.others _ hne, hP₃, hP₀]
    · intro i hi
      show (M₄.paging.directories firstClone).tables i = _
      rw [hc.tables, if_pos hi, hsrc]
      rfl
    · intro i hi h0
      show (M₄.paging.directories firstClone).physical i = _
      rw [hc.physical, hsrc]
      exact if_pos ⟨hi, h0⟩

theorem FirstCloned.kernelTable {M' : Kernel} (h : FirstCloned M M') (i : Nat) :
    M'.paging.kernelTable i = M.paging.kernelTable i := by
  show (M'.paging.directories M'.paging.kernelDirectory).tables i = _
  rw [h.kernel, h.source]
  rfl

/-- What the stages before left holds still. -/
theorem FirstCloned.initialized {M' : Kernel} {n : Nat} (h : FirstCloned M M') (hB : Bootstrapped n M)
    (hb : Below (M.bump sizeofHeap false).2) (hk : HeapAt M' .kheap 0xC0081000 kheapEnd kheapBlocks)
    (hu : HeapAt M' .uheap 0xD0081000 uheapEnd uheapBlocks) : Initialized n M' := by
  obtain ⟨K, k, hboot, hheld, hK, hK', hle⟩ := hB
  obtain ⟨hbumped, -, hend⟩ := hboot.bumped.bump hb
  have hsz : sizeofHeap = 32 := rfl
  have haddr : (M.bump sizeofHeap false).1 = M.allocator.baseAddress := rfl
  have hbase := h.baseAddress
  have hreg := h.regions
  refine ⟨?_, h.kernel ▸ hboot.kernel, ?_, h.current, ?_, fun i hi h0 => ?_,
    fun i hi => ⟨?_, fun h0 => ?_⟩, fun i hi => ?_, fun i hi h0 => ?_, ?_,
    ⟨K, k, hboot.backed.congr h.kernelTable h.pages h.frames, by omega, by omega, hle⟩, hk, hu⟩
  · obtain ⟨h1, h2, h3, h4, h5⟩ := hbumped
    constructor <;> simp only [hreg, hbase] <;> assumption
  · rw [h.kernel, hreg, regions_bump]
    exact List.mem_cons_of_mem _ hboot.kernelRegion
  · rw [h.liveDirectories, h.kernel, hboot.directories]
  · rw [h.kernelTable] at h0 ⊢
    rw [hreg, regions_bump, h.kernel, h.source]
    exact ⟨List.mem_cons_of_mem _ (hboot.tables i hi h0).1, (hboot.tables i hi h0).2⟩
  · rw [h.kernelTable]
    exact h.tables i hi
  · rw [h.kernelTable] at h0
    rw [h.kernel, h.source]
    exact h.physical i hi h0
  · rw [h.kernelTable]
    exact hheld i hi
  · rw [h.kernelTable] at h0
    exact (hboot.slots i hi h0).imp_right fun _ => by omega
  · rw [h.frames]
    exact hboot.size

theorem createHeaps_ok {n : Nat} (rounds : Nat) (fresh : Mem) (hn : NoHeap M) (h : Bootstrapped n M)
    (hb : Below (M.bump sizeofHeap false).2) :
    ∃ M', createHeaps rounds fresh M = .ok M' ∧ Initialized n M' ∧
      ((∀ i, M'.paging.kernelTable i = M.paging.kernelTable i) ∧
        M'.paging.tables = M.paging.tables) ∧
      M'.allocator.regions = (M.bump sizeofHeap false).2.allocator.regions ∧
      M'.allocator.baseAddress = M.allocator.baseAddress + 32 := by
  obtain ⟨K, k, hboot, hheld, -⟩ := id h
  obtain ⟨-, -, hend⟩ := hboot.bumped.bump hb
  obtain ⟨M', hM', hc, hk, hu⟩ := createHeaps_firstCloned rounds fresh hn hboot.kernel
    (hheld 768 ⟨by decide, by decide⟩)
  exact ⟨M', hM', hc.initialized h hb hk hu, ⟨hc.kernelTable, hc.pages⟩, hc.regions,
    hc.baseAddress.trans hend.symm⟩

theorem kallocPa_regions {R : List Region} {size : Nat}
    (h : (∃ g, M.allocator.heap .kheap = some g) ∧ M.allocator.regions = R) :
    Meets (kallocPa rounds fresh size M)
      (fun r => (∃ g, r.2.2.allocator.heap .kheap = some g) ∧ r.2.2.allocator.regions = R)
      fun _ => True := by
  obtain ⟨⟨g, hg⟩, hR⟩ := h
  unfold kallocPa allocInternal
  rw [hg]
  refine Meets.bind (Q := fun _ => True) (.intro fun _ _ => trivial) fun r _ => ?_
  have hput : (M.putHeap .kheap r.2).allocator.heap .kheap = some r.2.toHeap := by simp [putHeap]
  exact Meets.bind (Q := fun _ => True) (.intro fun _ _ => trivial) fun _ _ =>
    .pure ⟨⟨_, hput⟩, hR⟩

theorem createHeaps_regions {M' : Kernel} (hn : NoHeap M)
    (h : createHeaps rounds fresh M = .ok M') :
    M'.allocator.regions = (M.bump sizeofHeap false).2.allocator.regions := by
  have hn₀ : NoHeap (switchPageDirectory M.paging.kernelDirectory M) := hn
  obtain ⟨M₁, h₁, hs₁, hat₁⟩ := createHeap_kernel rounds fresh hn₀
  obtain ⟨M₂, h₂, hs₂, ⟨g, hg, -⟩, -⟩ := createHeap_user rounds fresh hat₁
  unfold createHeaps at h
  dsimp only at h
  rw [h₁, ok_bind, h₂, ok_bind] at h
  obtain ⟨⟨dir, M₃⟩, h₃, h⟩ := bind_ok.1 h
  cases h
  refine (clone_allocator (I := fun A => (∃ g, A.heap .kheap = some g) ∧
    A.regions = (M.bump sizeofHeap false).2.allocator.regions) kallocPa_regions h₃ ⟨⟨g, hg⟩, ?_⟩).2
  exact hs₂.regions.trans hs₁.regions

/-! ## `memory::Initialize` -/

/-- **What `memory::Initialize` leaves**, when it returns and all it gave before the heap lies below
the kernel heap. -/
theorem memoryInitialize_pages {memEnd : Nat} {M' : Kernel} (h : Start M)
    (hok : memoryInitialize rounds fresh memEnd M = .ok M') (hb : Below M') :
    Initialized (numFrames memEnd / 32) M' ∧ FirstPages M'.paging ∧
      ∃ c, FirstFrames M'.paging c := by
  obtain ⟨M₁, h₁, h₂⟩ := bind_ok.1 hok
  obtain ⟨hn, hboot, -⟩ := (bootstrap_boots (G := False) (S := True) (B := 0) h
    (Nat.zero_le _) False.elim fun _ _ => trivial).ok h₁
  have hreg := createHeaps_regions hn h₂
  have hb₁ : Below (M₁.bump sizeofHeap false).2 := fun r hr => hb r (hreg ▸ hr)
  obtain ⟨hboot, hfirst, c, hframes⟩ := hboot hb₁.of_bump
  obtain ⟨M₂, h₂', hinit, ⟨hT, ht⟩, -⟩ := createHeaps_ok rounds fresh hn hboot hb₁
  cases h₂.symm.trans h₂'
  exact ⟨hinit, hfirst.congr hT ht, c, hframes.congr hT ht⟩

theorem memoryInitialize_ok {memEnd : Nat} {M' : Kernel} (h : Start M)
    (hok : memoryInitialize rounds fresh memEnd M = .ok M') (hb : Below M') :
    Initialized (numFrames memEnd / 32) M' :=
  (memoryInitialize_pages h hok hb).1

/-- **It returns** where the kernel's image leaves room below the kernel heap and the memory is
large enough. -/
theorem memoryInitialize_returns (rounds : Nat) (fresh : Mem) (memEnd : Nat) (h : Start M)
    (hlow : M.allocator.baseAddress ≤ 0xBF000000)
    (hmem : M.allocator.baseAddress + 4 * (numFrames memEnd / 32) + 13660172 ≤
      4096 * (32 * (numFrames memEnd / 32))) :
    ∃ M', memoryInitialize rounds fresh memEnd M = .ok M' ∧ Below M' ∧
      M'.allocator.baseAddress ≤
        M.allocator.baseAddress + 4 * (numFrames memEnd / 32) + 8409132 := by
  have hn := numFrames_le memEnd
  obtain ⟨B, hB⟩ : ∃ B, M.allocator.baseAddress + 4 * (numFrames memEnd / 32) + 8409100 = B :=
    ⟨_, rfl⟩
  have hBk : B + 32 ≤ kheapStart := by
    rw [kheapStart_eq]
    omega
  have hboots := @bootstrap_boots rounds fresh True False B M memEnd h (by omega) (fun _ => hB.le)
    fun _ hlt => by omega
  cases hx : bootstrap rounds fresh memEnd M with
  | error e => exact (hboots.error hx trivial).elim
  | ok M₁ =>
    obtain ⟨hn₁, hboot, hroom⟩ := hboots.ok hx
    have hroom := hroom trivial
    have hbase : M₁.allocator.baseAddress ≤ B := le_trans (Nat.le_add_right _ _) hroom.base
    have haddr : (M₁.bump sizeofHeap false).1 = M₁.allocator.baseAddress := rfl
    have hb : Below (M₁.bump sizeofHeap false).2 := fun r hr => by
      rw [regions_bump] at hr
      rcases List.mem_cons.1 hr with rfl | hr
      · show (M₁.bump sizeofHeap false).1 + 32 ≤ kheapStart
        omega
      · have := hroom.regions r hr
        omega
    have hboot := (hboot hb.of_bump).1
    obtain ⟨M', h', -, -, hreg, hbase'⟩ := createHeaps_ok rounds fresh hn₁ hboot hb
    refine ⟨M', ?_, fun r hr => hb r (hreg ▸ hr), ?_⟩
    · unfold memoryInitialize
      rw [hx, ok_bind, h']
    · omega

theorem start_image {base : Nat} (hlo : 0x1000 ≤ base) (hhi : base < 4294967296) :
    Start (image base) :=
  ⟨fun _ => rfl, rfl, rfl, hlo, hhi⟩

/-- An image that ends at 2 MiB, on a machine of 64 MiB: most frames are left. -/
theorem image_initialized : ∃ M, memoryInitialize 1 (fun _ => 0) 65536 (image 0x200000) = .ok M ∧
    Below M ∧ Initialized 512 M ∧ ∃ K k, Backed M.paging K k ∧ k ≤ 3847 := by
  have hstart : Start (image 0x200000) := start_image (by decide) (by decide)
  obtain ⟨M, h, hb, hbase⟩ := memoryInitialize_returns 1 (fun _ => 0) 65536 hstart (by decide)
    (by decide)
  have hinit : Initialized 512 M := memoryInitialize_ok hstart h hb
  obtain ⟨K, k, hback, -, hK, hk⟩ := hinit.identity
  refine ⟨M, h, hb, hinit, K, k, hback, ?_⟩
  have hb' : M.allocator.baseAddress ≤ 0x200000 + 4 * 512 + 8409132 := hbase
  omega

end Kernel

end Dmanix
