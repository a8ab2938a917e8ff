import Dmanix.Memory.Proof.Clients
import Dmanix.Memory.Proof.Kept

/-!
# Where tables and directories lie

`Housed`: every directory, and every table one names, has memory of its own (`Given`): a block of the
kernel heap that no caller holds, or memory given before that heap existed, so that no two of them
overlap (`HousedWith.objects_apart`). The heap is well formed with these blocks and those of its callers,
so its tags lie off them all, and what `kalloc_pa` gives is vacant (`HousedWith.vacant`). Every call
under the condition of `Kernel.CallOk` keeps this: `HousedWith.alloc` and `HousedWith.free` for the heaps,
`allocPage_extending` and `clone_housed` for what builds on them.

`HousedWith I` carries an invariant `I` of the memory given and the paging state along, which every
change of the paging state keeps (`Built`).
-/

namespace Dmanix

open Word32 Bytes Outcome Machine Paging Tiling

/-! ## Heaps -/

namespace Clients

variable {s : HeapState} {live live' : List (Nat × Nat)} {bs : List Block}

/-- The order in which the blocks were given does not matter. -/
theorem Held.perm (h : Held ⟨s, live⟩ bs) (hp : live.Perm live') : Held ⟨s, live'⟩ bs :=
  ⟨h.wf, (hp.symm.map _).trans h.headers, fun a ha => h.room a (hp.mem_iff.2 ha)⟩

theorem Held.moved {t : HeapState} {lo hi : Nat} (h : Held ⟨s, live⟩ bs) (hh : t.toHeap = s.toHeap)
    (ho : Off lo hi s.mem t.mem) (hx : s.endAddress ≤ lo ∨ hi ≤ s.startAddress)
    (hst : t.stored = []) : Held ⟨t, live⟩ bs := by
  have hstart : t.startAddress = s.startAddress := congrArg Heap.startAddress hh
  obtain ⟨hwf, hheaders, hroom⟩ := h
  refine ⟨hwf.moved hh ho hx hst, ?_, ?_⟩
  · show (live.map _).Perm ((allocs t.startAddress bs).map _)
    rw [hstart]
    exact hheaders
  · show ∀ a ∈ live, _
    rw [hstart]
    exact hroom

theorem Held.inside {c : Clients} {p size : Nat} (h : Held c bs) (hp : (p, size) ∈ c.live) :
    c.heap.startAddress < p ∧ p < c.heap.endAddress := by
  obtain ⟨h4, n, hn, hmem⟩ := h.room _ hp
  have hb := place_bounds (mem_allocs.1 hmem)
  have hf := h.wf.fills
  simp only at h4 hn hb
  omega

theorem Held.free_off {c : Clients} {p size : Nat} {t : HeapState} (h : Held c bs)
    (hp : (p, size) ∈ c.live) (hok : c.heap.FreeOk p) (hf : c.heap.free p = .ok t) :
    Off c.heap.startAddress c.heap.endAddress c.heap.mem t.mem := by
  obtain ⟨h4, m, -, hm⟩ := h.room _ hp
  obtain ⟨q, rfl⟩ : ∃ q, p = q + 4 := ⟨p - 4, by simp only at h4; omega⟩
  rw [Nat.add_sub_cancel] at hm
  obtain ⟨bs', hF⟩ := h.wf.freed hm hok hf
  exact hF.off

end Clients

namespace Kernel

/-- The heap `name` is well formed, and its blocks are `live`. -/
def HeapOwned (M : Kernel) (name : HeapName) (live : List (Nat × Nat)) : Prop :=
  ∃ g bs, M.allocator.heap name = some g ∧ Limits (heapFirst name) (heapMax name) g ∧
    Clients.Held ⟨M.heapState g, live⟩ bs

variable {M M' : Kernel} {name : HeapName} {live live' made : List (Nat × Nat)} {rounds size p : Nat}
  {fresh : Mem} {pageAlign : Bool} {rest : List HeapRequest}

theorem HeapOwned.perm (h : HeapOwned M name live) (hp : live.Perm live') :
    HeapOwned M name live' := by
  obtain ⟨g, bs, hg, hl, hh⟩ := h
  exact ⟨g, bs, hg, hl, hh.perm hp⟩

theorem HeapOwned.congr (h : HeapOwned M name live) (ha : M'.allocator = M.allocator) :
    HeapOwned M' name live := by
  obtain ⟨g, bs, hg, hl, hh⟩ := h
  have hoff : Off g.endAddress g.endAddress M.allocator.mem M'.allocator.mem := by
    rw [ha]
    exact .refl _ _ _
  exact ⟨g, bs, by rw [ha]; exact hg, hl, hh.moved rfl hoff (.inl (Nat.le_refl _)) rfl⟩

/-- Blocks lie apart, between the heap's start and the address it may grow to. -/
theorem HeapOwned.apart (h : HeapOwned M name live) :
    live.Pairwise (fun a b => Apart a.1 a.2 b.1 b.2) ∧
      ∀ a ∈ live, heapFirst name ≤ a.1 ∧ a.1 + a.2 ≤ heapMax name := by
  obtain ⟨g, bs, hg, hl, hh⟩ := h
  refine ⟨hh.disjoint, fun a ha => ?_⟩
  obtain ⟨h1, h2⟩ := hh.safe.inside a ha
  have h3 : g.startAddress = heapFirst name := hl.start
  have h4 := hl.most
  simp only [heapState] at h1 h2
  omega

theorem heaps_apart {name' : HeapName} (h : name ≠ name') :
    heapMax name ≤ heapFirst name' ∨ heapMax name' ≤ heapFirst name := by
  cases name <;> cases name' <;> first | exact absurd rfl h | decide

theorem HeapOwned.put {name' : HeapName} {s : HeapState} (h : HeapOwned M name live)
    (hn : name ≠ name') (ho : Off (heapFirst name') (heapMax name') M.allocator.mem s.mem) :
    HeapOwned (M.putHeap name' s) name live := by
  obtain ⟨g, bs, hg, hl, hh⟩ := h
  have hap := heaps_apart hn
  have h1 : g.startAddress = heapFirst name := hl.start
  have h2 := hl.most
  refine ⟨g, bs, (if_neg hn).trans hg, hl, hh.moved rfl ho ?_ rfl⟩
  show g.endAddress ≤ _ ∨ _ ≤ g.startAddress
  omega

/-! ## What `alloc_internal` and `free_internal` return -/

theorem allocInternal_ok {phys : Bool} {physical : Nat} {g : Heap}
    (hg : M.allocator.heap name = some g)
    (h : allocInternal rounds fresh name size pageAlign phys M = .ok (p, physical, M')) :
    ∃ s, (M.heapState g).allocN rounds size pageAlign fresh = .ok (p, s) ∧ M' = M.putHeap name s := by
  unfold allocInternal at h
  rw [hg] at h
  obtain ⟨⟨p', s⟩, hs, h⟩ := bind_ok.1 h
  cases phys with
  | false =>
    cases h
    exact ⟨s, halted_ok.1 hs, rfl⟩
  | true =>
    obtain ⟨ph, -, h⟩ := bind_ok.1 h
    cases h
    exact ⟨s, halted_ok.1 hs, rfl⟩

theorem freeInternal_ok {g : Heap} (hg : M.allocator.heap name = some g)
    (hp : g.startAddress < p ∧ p < g.endAddress) (h : freeInternal name p M = .ok M') :
    ∃ s, (M.heapState g).free p = .ok s ∧ M' = M.putHeap name s := by
  unfold freeInternal at h
  rw [hg] at h
  dsimp only at h
  rw [if_pos hp] at h
  obtain ⟨s, hs, h⟩ := bind_ok.1 h
  cases h
  exact ⟨s, halted_ok.1 hs, rfl⟩

/-! ## The invariant -/

/-- The `n` bytes at `a` were given to a directory or a table: by the kernel heap (`made`), or before it
existed. -/
def Given (M : Kernel) (made : List (Nat × Nat)) (a n : Nat) : Prop :=
  (a, n) ∈ made ∨ ⟨a, n, true⟩ ∈ M.allocator.regions

/-- Every change of the paging state keeps `I`, an invariant of the memory given and the paging state;
new tables and directories lie apart from what was given. -/
structure Built (I : (Nat → Nat → Prop) → Paging → Prop) : Prop where
  grow : ∀ {G G' P}, I G P → (∀ a n, G a n → G' a n) → I G' P
  alloc : ∀ {G P P' q k w}, I G P → G q.table sizeofTable → P.allocFrame q k w = .ok P' → I G P'
  free : ∀ {G P P' q}, I G P → G q.table sizeofTable → P.freeFrame q = .ok P' → I G P'
  table : ∀ {G P t}, I G P → (∀ a n, G a n → Apart t sizeofTable a n) →
    I G { P with tables := Function.update P.tables t fun _ => Page.zero }
  directory : ∀ {G P d v}, I G P → (∀ a n, G a n → Apart d sizeofDirectory a n) →
    I G (P.setDirectory d v)
  entry : ∀ {G P q v}, I G P → v.frame = (P.page q).frame → I G (P.setPage q v)
  rest : ∀ {G P P'}, I G P → P'.frames = P.frames → P'.tables = P.tables → I G P'

theorem built_true : Built fun _ _ => True := by
  constructor <;> intros <;> trivial

/-- The blocks of a heap: those of objects, and those that callers hold. -/
def blocks (made : List (Nat × Nat)) (held : HeapName → List (Nat × Nat)) : HeapName →
    List (Nat × Nat)
  | .kheap => made ++ held .kheap
  | .uheap => held .uheap

/-- **The invariant** (module doc): the objects made have the blocks `made` of the kernel heap, the
callers of each heap hold `held`. -/
structure HousedObjects (I : (Nat → Nat → Prop) → Paging → Prop) (made : List (Nat × Nat))
    (held : HeapName → List (Nat × Nat)) (M : Kernel) : Prop where
  early : Bumped M.allocator
  slots : Held HeapSlot M
  heaps : ∀ name, HeapOwned M name (blocks made held name)
  kernel : M.paging.kernelDirectory ∈ M.liveDirectories
  directories : ∀ d ∈ M.liveDirectories, Given M made d sizeofDirectory
  tables : ∀ t, M.Named t → Given M made t sizeofTable
  index : ∀ d ∈ M.liveDirectories, ∀ i < arraySize, ∀ d' ∈ M.liveDirectories, ∀ j < arraySize,
    M.slot d i ≠ 0 → M.slot d i = M.slot d' j → i = j
  inv : I (Given M made) M.paging

/-- The same, while the current directory exists. -/
structure HousedWith (I : (Nat → Nat → Prop) → Paging → Prop) (made : List (Nat × Nat))
    (held : HeapName → List (Nat × Nat)) (M : Kernel) : Prop extends HousedObjects I made held M where
  current : M.paging.currentDirectory ∈ M.liveDirectories

abbrev Housed (made : List (Nat × Nat)) (held : HeapName → List (Nat × Nat)) (M : Kernel) : Prop :=
  HousedWith (fun _ _ => True) made held M

variable {I : (Nat → Nat → Prop) → Paging → Prop} {held : HeapName → List (Nat × Nat)}

theorem HousedWith.housed (h : HousedWith I made held M) : Housed made held M :=
  { h with inv := trivial }

theorem heapFirst_ge (name : HeapName) : kheapStart < heapFirst name := by
  cases name <;> decide

/-- What was given and what a caller of the kernel heap holds lie apart. -/
theorem HousedWith.apart_held (h : HousedWith I made held M) {a n : Nat}
    (hp : (p, size) ∈ held .kheap) (ha : Given M made a n) : Apart p size a n := by
  obtain ⟨hpair, hin⟩ := (h.heaps .kheap).apart
  rcases ha with ha | ha
  · have := (List.pairwise_append.1 hpair).2.2 _ ha _ hp
    unfold Apart at *
    omega
  · have h1 := hin _ (List.mem_append_right _ hp)
    have h2 : a + n ≤ _ := h.early.inside _ ha
    have h3 := h.early.high
    have h4 := heapFirst_ge .kheap
    unfold Apart
    omega

/-- Two pieces of memory given are the same or lie apart. -/
theorem HousedWith.given_apart (h : HousedWith I made held M) {a n b k : Nat}
    (ha : Given M made a n) (hb : Given M made b k) : a = b ∧ n = k ∨ Apart a n b k := by
  obtain ⟨hpair, hin⟩ := (h.heaps .kheap).apart
  have hlow : ∀ {a n}, (a, n) ∈ made → M.allocator.baseAddress ≤ a := fun ha => by
    have h1 := hin _ (List.mem_append_left _ ha)
    have h3 := h.early.high
    have h4 := heapFirst_ge .kheap
    omega
  rcases ha with ha | ha <;> rcases hb with hb | hb
  · by_cases he : (a, n) = (b, k)
    · exact .inl (Prod.mk.inj he)
    · have : Std.Symm fun x y : Nat × Nat => Apart x.1 x.2 y.1 y.2 := ⟨fun _ _ => Or.symm⟩
      exact .inr ((List.pairwise_append.1 hpair).1.forall ha hb he)
  · have h1 := hlow ha
    have h2 : b + k ≤ _ := h.early.inside _ hb
    exact .inr (.inr (by omega))
  · have h1 := hlow hb
    have h2 : a + n ≤ _ := h.early.inside _ ha
    exact .inr (.inl (by omega))
  · by_cases he : (⟨a, n, true⟩ : Region) = ⟨b, k, true⟩
    · cases he
      exact .inl ⟨rfl, rfl⟩
    · have : Std.Symm fun r s : Region => Apart r.addr r.size s.addr s.size := ⟨fun _ _ => Or.symm⟩
      have hm : M.allocator.regions.Pairwise fun r s => Apart r.addr r.size s.addr s.size :=
        h.early.apart.imp fun hrs => .inr hrs
      exact .inr (hm.forall ha hb he)

/-- **No two objects share memory**: tables and directories may be told apart by their addresses. -/
theorem HousedWith.objects_apart (h : HousedWith I made held M) :
    (∀ t t', M.Named t → M.Named t' → t ≠ t' → Apart t sizeofTable t' sizeofTable) ∧
    (∀ d ∈ M.liveDirectories, ∀ d' ∈ M.liveDirectories, d ≠ d' →
      Apart d sizeofDirectory d' sizeofDirectory) ∧
    ∀ t d, M.Named t → d ∈ M.liveDirectories → Apart t sizeofTable d sizeofDirectory := by
  refine ⟨fun t t' ht ht' hne => ?_, fun d hd d' hd' hne => ?_, fun t d ht hd => ?_⟩
  · exact (h.given_apart (h.tables t ht) (h.tables t' ht')).resolve_left fun he => hne he.1
  · exact (h.given_apart (h.directories d hd) (h.directories d' hd')).resolve_left fun he => hne he.1
  · exact (h.given_apart (h.tables t ht) (h.directories d hd)).resolve_left fun he =>
      absurd he.2 (by decide)

theorem HousedWith.given_ne (h : HousedWith I made held M) {a n : Nat} (ha : Given M made a n) :
    a ≠ 0 := by
  rcases ha with ha | ha
  · have h1 := (h.heaps .kheap).apart.2 _ (List.mem_append_left _ ha)
    have h4 := heapFirst_ge .kheap
    omega
  · have : 0x1000 ≤ a := h.early.above _ ha
    omega

/-- **A block no object has yet is vacant.** -/
theorem HousedWith.vacant (h : HousedWith I made held M) (hp : (p, size) ∈ held .kheap) :
    M.Vacant size p := by
  refine ⟨?_, fun d hd => h.apart_held hp (h.directories d hd),
    fun t ht => h.apart_held hp (h.tables t ht)⟩
  have h1 := (h.heaps .kheap).apart.2 _ (List.mem_append_right _ hp)
  have h4 := heapFirst_ge .kheap
  omega

theorem HousedWith.unnamed
    (h : HousedWith I made (Function.update held .kheap ((p, sizeofTable) :: held .kheap)) M) :
    ∀ d ∈ M.liveDirectories, ∀ j < arraySize, M.slot d j ≠ p := by
  intro d hd j hj he
  have hvac : M.Vacant sizeofTable p := h.vacant (by
    rw [Function.update_self]
    exact List.mem_cons_self)
  have := hvac.tables p ⟨hvac.1, d, hd, j, hj, he⟩
  simp only [Apart, sizeofTable] at this
  omega

/-! ## Calls of the heaps -/

/-- **`Alloc`** gives a block, and writes within the heap's range. -/
theorem HeapOwned.alloc {g : Heap} {s : HeapState} (h : HeapOwned M name live)
    (hg : M.allocator.heap name = some g) (hok : (M.heapState g).AllocOk size pageAlign)
    (ha : (M.heapState g).allocN rounds size pageAlign fresh = .ok (p, s))
    (hl : Limits (heapFirst name) (heapMax name) s.toHeap) :
    HeapOwned (M.putHeap name s) name ((p, size) :: live) ∧
      Off (heapFirst name) (heapMax name) M.allocator.mem s.mem := by
  obtain ⟨g', bs, hg', hl', hh⟩ := h
  cases hg.symm.trans hg'
  obtain ⟨bs', hh', -⟩ := hh.alloc hok ha
  obtain ⟨_, hA⟩ := hh.wf.allocN_ok rounds hok ha
  refine ⟨⟨s.toHeap, bs', if_pos rfl, hl, ?_⟩, hA.off.mono (hl'.start : g.startAddress = _).ge hl.most⟩
  exact hh'.moved rfl (.refl s.endAddress s.endAddress _) (.inl (Nat.le_refl _)) rfl

/-- **`Free`** takes back a block that is held. -/
theorem HeapOwned.free {g : Heap} {s : HeapState} (h : HeapOwned M name live)
    (hg : M.allocator.heap name = some g) (hp : (p, size) ∈ live) (hok : (M.heapState g).FreeOk p)
    (hf : (M.heapState g).free p = .ok s)
    (hl : Limits (heapFirst name) (heapMax name) s.toHeap) :
    HeapOwned (M.putHeap name s) name (live.erase (p, size)) ∧
      Off (heapFirst name) (heapMax name) M.allocator.mem s.mem := by
  obtain ⟨g', bs, hg', hl', hh⟩ := h
  cases hg.symm.trans hg'
  obtain ⟨bs', hh', -⟩ := hh.free hp hok hf
  refine ⟨⟨s.toHeap, bs', if_pos rfl, hl, ?_⟩,
    (hh.free_off hp hok hf).mono (hl'.start : g.startAddress = _).ge hl'.most⟩
  exact hh'.moved rfl (.refl s.endAddress s.endAddress _) (.inl (Nat.le_refl _)) rfl

theorem HeapOwned.owns {g : Heap} (h : HeapOwned M name live) (hg : M.allocator.heap name = some g)
    (hp : (p, size) ∈ live) : g.startAddress < p ∧ p < g.endAddress := by
  obtain ⟨g', bs, hg', hl', hh⟩ := h
  cases hg.symm.trans hg'
  obtain ⟨h1, h2⟩ := hh.inside hp
  exact ⟨h1, h2⟩

theorem blocks_give (made : List (Nat × Nat)) (held : HeapName → List (Nat × Nat)) (name : HeapName)
    (a : Nat × Nat) :
    (a :: blocks made held name).Perm
      (blocks made (Function.update held name (a :: held name)) name) := by
  cases name with
  | kheap =>
    simp only [blocks, Function.update_self]
    exact List.perm_middle.symm
  | uheap => simp only [blocks, Function.update_self]; exact .refl _

theorem blocks_take (made : List (Nat × Nat)) {held : HeapName → List (Nat × Nat)} {name : HeapName}
    {a : Nat × Nat} (ha : a ∈ held name) :
    ((blocks made held name).erase a).Perm
      (blocks made (Function.update held name ((held name).erase a)) name) := by
  cases name with
  | kheap =>
    simp only [blocks, Function.update_self]
    have h1 : (made ++ held .kheap).Perm (a :: (made ++ (held .kheap).erase a)) :=
      ((List.perm_cons_erase ha).append_left made).trans List.perm_middle
    have h2 := h1.erase a
    rwa [List.erase_cons_head] at h2
  | uheap => simp only [blocks, Function.update_self]; exact .refl _

theorem blocks_other (made : List (Nat × Nat)) (held : HeapName → List (Nat × Nat))
    {name name' : HeapName} (l : List (Nat × Nat)) (hn : name' ≠ name) :
    blocks made (Function.update held name l) name' = blocks made held name' := by
  cases name' <;> simp only [blocks, Function.update_of_ne hn]

/-- It is about the directories, the memory given and the heaps. -/
theorem HousedObjects.same {held' : HeapName → List (Nat × Nat)} (h : HousedObjects I made held M)
    (hs : SameSlots M M') (hb : M'.allocator.baseAddress = M.allocator.baseAddress)
    (hr : M'.allocator.regions = M.allocator.regions)
    (hh : ∀ name, HeapOwned M' name (blocks made held' name)) (hI : I (Given M made) M'.paging) :
    HousedObjects I made held' M' := by
  have hG : Given M' made = Given M made := by
    unfold Given
    rw [hr]
  obtain ⟨⟨h1, h2, h3, h4, h5, h6⟩, hslots, -, hk, hd, ht, hi, -⟩ := h
  refine ⟨⟨?_, ?_, ?_, ?_, ?_, ?_⟩, ?_, hh, ?_, ?_, ?_, ?_, ?_⟩
  · rwa [hb]
  · rwa [hb]
  · rwa [hb, hr]
  · rwa [hr]
  · rwa [hr]
  · rwa [hr]
  · simpa only [Held, kernelTable, hs.directories, hs.kernel] using hslots
  · rwa [hs.kernel, hs.liveDirectories]
  · rwa [hs.liveDirectories, hG]
  · simpa only [Named, slot, hs.directories, hs.liveDirectories, hG] using ht
  · simpa only [slot, hs.directories, hs.liveDirectories] using hi
  · rwa [hG]

theorem HousedWith.same {held' : HeapName → List (Nat × Nat)} (h : HousedWith I made held M)
    (hs : SameSlots M M') (hb : M'.allocator.baseAddress = M.allocator.baseAddress)
    (hr : M'.allocator.regions = M.allocator.regions)
    (hh : ∀ name, HeapOwned M' name (blocks made held' name)) (hI : I (Given M made) M'.paging) :
    HousedWith I made held' M' := by
  refine ⟨h.toHousedObjects.same hs hb hr hh hI, ?_⟩
  rw [hs.current, hs.liveDirectories]
  exact h.current

theorem Given.mono {a n b k : Nat} (h : Given M made a n) : Given M ((b, k) :: made) a n :=
  h.imp_left (List.mem_cons_of_mem _)

theorem blocks_object (made : List (Nat × Nat)) (held : HeapName → List (Nat × Nat))
    (a : Nat × Nat) (name : HeapName) :
    (blocks made (Function.update held .kheap (a :: held .kheap)) name).Perm
      (blocks (a :: made) held name) := by
  cases name with
  | kheap =>
    simp only [blocks, Function.update_self]
    exact List.perm_middle
  | uheap => exact .refl _

section
variable (hI : Built I)
include hI

/-- What `AllocFrame` and `FreeFrame` on the pages of a heap keep. -/
theorem HousedObjects.pages (h : HousedObjects I made held M) (name : HeapName) :
    Grows (fun P => SameTables M.paging P ∧ I (Given M made) P) (heapFirst name) (heapMax name) ∧
      Shrinks (fun P => SameTables M.paging P ∧ I (Given M made) P) (heapFirst name)
        (heapMax name) := by
  obtain ⟨hg, hs⟩ := grows_of_held h.slots name
  have hgiven : ∀ {P a}, SameTables M.paging P → heapFirst name ≤ a → a < heapMax name →
      Given M made (P.pageAt (a / 0x1000)).table sizeofTable := fun {P a} hP h1 h2 => by
    have hmax := heapMax_le name
    refine h.tables _ ⟨hg.table hP h1 h2, _, h.kernel, a / 0x1000 / 1024, show _ < 1024 by omega, ?_⟩
    exact (hP.kernelTable _).symm
  refine ⟨⟨fun hP h1 h2 => hg.table hP.1 h1 h2, fun hP h1 h2 ha => ⟨hg.alloc hP.1 h1 h2 ha, ?_⟩⟩,
    fun hP h1 h2 hf => ⟨hs hP.1 h1 h2 hf, ?_⟩⟩
  · exact hI.alloc hP.2 (hgiven hP.1 h1 h2) ha
  · exact hI.free hP.2 (hgiven hP.1 h1 h2) hf

/-- **`alloc_internal`**: the caller holds the new block. -/
theorem HousedWith.alloc {phys : Bool} {physical : Nat} (h : HousedWith I made held M)
    (hs : M.Serves name (.alloc size pageAlign :: rest))
    (ha : allocInternal rounds fresh name size pageAlign phys M = .ok (p, physical, M')) :
    HousedWith I made (Function.update held name ((p, size) :: held name)) M' ∧
      M'.Serves name rest := by
  obtain ⟨g, bs, hg, hl, -⟩ := id (h.heaps name)
  obtain ⟨s, hs', rfl⟩ := allocInternal_ok hg ha
  obtain ⟨hok, hrest⟩ := hs g hg M.paging
  obtain ⟨hl', hsame, hI'⟩ := (HeapState.allocN_pages (h.pages hI name).1 (heapMax_le name) rounds hl
    ⟨.refl _, h.inv⟩).ok hs'
  obtain ⟨hown, hoff⟩ := (h.heaps name).alloc hg hok hs' hl'
  refine ⟨h.same (.of_paging hsame rfl) rfl rfl (fun n => ?_) hI', fun g' hg' => ?_⟩
  · by_cases hn : n = name
    · subst hn
      exact hown.perm (blocks_give made held n _)
    · rw [blocks_other made held _ hn]
      exact (h.heaps n).put hn hoff
  · cases (show some s.toHeap = some g' from (if_pos rfl).symm.trans hg')
    exact hrest _ _ _ _ hs'

/-- **`free_internal`** of a block. -/
theorem HousedObjects.freeBlock (h : HousedObjects I made held M)
    (hp : (p, size) ∈ blocks made held name) (hs : M.Serves name (.free p :: rest))
    (hf : freeInternal name p M = .ok M') :
    (HeapOwned M' name ((blocks made held name).erase (p, size)) ∧
      ∀ n, n ≠ name → HeapOwned M' n (blocks made held n)) ∧
    SameSlots M M' ∧ M'.allocator.baseAddress = M.allocator.baseAddress ∧
    M'.allocator.regions = M.allocator.regions ∧ I (Given M made) M'.paging ∧ M'.Serves name rest := by
  obtain ⟨g, bs, hg, hl, -⟩ := id (h.heaps name)
  obtain ⟨s, hs', rfl⟩ := freeInternal_ok hg ((h.heaps name).owns hg hp) hf
  obtain ⟨hok, hrest⟩ := hs g hg M.paging
  obtain ⟨hgrow, hshrink⟩ := h.pages hI name
  obtain ⟨hl', hsame, hI'⟩ := (HeapState.free_pages hgrow hshrink (heapMax_le name) p hl
    ⟨.refl _, h.inv⟩).ok hs'
  obtain ⟨hown, hoff⟩ := (h.heaps name).free hg hp hok hs' hl'
  refine ⟨⟨hown, fun n hn => (h.heaps n).put hn hoff⟩, .of_paging hsame rfl, rfl, rfl, hI',
    fun g' hg' => ?_⟩
  cases (show some s.toHeap = some g' from (if_pos rfl).symm.trans hg')
  exact hrest _ hs'

theorem HousedObjects.free (h : HousedObjects I made held M) (hp : (p, size) ∈ held name)
    (hs : M.Serves name (.free p :: rest)) (hf : freeInternal name p M = .ok M') :
    HousedObjects I made (Function.update held name ((held name).erase (p, size))) M' ∧
      SameSlots M M' ∧ M'.Serves name rest := by
  have hp' : (p, size) ∈ blocks made held name := by
    cases name with
    | kheap => exact List.mem_append_right _ hp
    | uheap => exact hp
  obtain ⟨⟨hown, hother⟩, hsame, hb, hr, hI', hrest⟩ := h.freeBlock hI hp' hs hf
  refine ⟨h.same hsame hb hr (fun n => ?_) hI', hsame, hrest⟩
  by_cases hn : n = name
  · subst hn
    exact hown.perm (blocks_take made hp)
  · rw [blocks_other made held _ hn]
    exact hother n hn

theorem HousedWith.free (h : HousedWith I made held M) (hp : (p, size) ∈ held name)
    (hs : M.Serves name (.free p :: rest)) (hf : freeInternal name p M = .ok M') :
    HousedWith I made (Function.update held name ((held name).erase (p, size))) M' ∧
      M'.Serves name rest := by
  obtain ⟨h', hsame, hrest⟩ := h.toHousedObjects.free hI hp hs hf
  refine ⟨⟨h', ?_⟩, hrest⟩
  rw [hsame.current, hsame.liveDirectories]
  exact h.current

/-! ## Objects -/

theorem HousedWith.newTable
    (h : HousedWith I made (Function.update held .kheap ((p, sizeofTable) :: held .kheap)) M) :
    HousedWith I ((p, sizeofTable) :: made) held (M.newTable p) := by
  have hmem : (p, sizeofTable) ∈
      Function.update held .kheap ((p, sizeofTable) :: held .kheap) .kheap := by
    rw [Function.update_self]
    exact List.mem_cons_self
  refine ⟨⟨h.early, h.slots, fun name => ?_, h.kernel, fun d hd => (h.directories d hd).mono,
    fun t ht => (h.tables t ht).mono, h.index, ?_⟩, h.current⟩
  · exact ((h.heaps name).perm (blocks_object made held _ name)).congr rfl
  · exact hI.grow (hI.table h.inv fun a n ha => h.apart_held hmem ha) fun a n ha => ha.mono

/-- `new (dir) Directory()`, as `Directory::Clone` fills it in. -/
theorem HousedWith.newClone {dir phys : Nat}
    (h : HousedWith I made (Function.update held .kheap ((dir, sizeofDirectory) :: held .kheap)) M) :
    HousedWith I ((dir, sizeofDirectory) :: made) held (M.newClone dir phys) := by
  have hmem : (dir, sizeofDirectory) ∈
      Function.update held .kheap ((dir, sizeofDirectory) :: held .kheap) .kheap := by
    rw [Function.update_self]
    exact List.mem_cons_self
  have hcl := cloned_newClone M 0 dir phys
  have hne : ∀ d ∈ M.liveDirectories, d ≠ dir := fun d hd he => by
    have := (h.vacant hmem).directories d hd
    simp only [Apart, sizeofDirectory] at this
    omega
  have hker := hcl.others _ (hne _ h.kernel)
  -- a directory with a table in a slot is not the new one
  have hold : ∀ d ∈ (M.newClone dir phys).liveDirectories, ∀ i, (M.newClone dir phys).slot d i ≠ 0 →
      d ∈ M.liveDirectories ∧ (M.newClone dir phys).slot d i = M.slot d i := fun d hd i h0 => by
    by_cases hdd : d = dir
    · refine absurd ?_ h0
      rw [slot, hdd, hcl.tables, if_neg (Nat.not_lt_zero i)]
    · exact ⟨(List.mem_cons.1 hd).resolve_left hdd, congrArg (·.tables i) (hcl.others d hdd)⟩
  refine ⟨⟨h.early, ?_, fun name => ?_, ?_, fun d hd => ?_, fun t ht => ?_, ?_, ?_⟩,
    List.mem_cons_of_mem _ h.current⟩
  · intro i hi
    show (((M.newClone dir phys).paging.directories (M.newClone dir phys).paging.kernelDirectory)).tables
      i ≠ 0
    rw [hcl.kernel, hker]
    exact h.slots i hi
  · exact ((h.heaps name).perm (blocks_object made held _ name)).congr rfl
  · exact List.mem_cons_of_mem _ h.kernel
  · rcases List.mem_cons.1 hd with rfl | hd
    · exact .inl List.mem_cons_self
    · exact (h.directories d hd).mono
  · obtain ⟨ht0, d, hd, i, hi, rfl⟩ := ht
    obtain ⟨hd', hs⟩ := hold d hd i ht0
    rw [hs] at ht0 ⊢
    exact (h.tables _ ⟨ht0, d, hd', i, hi, rfl⟩).mono
  · intro d hd i hi d' hd' j hj h0 he
    obtain ⟨hdl, hs⟩ := hold d hd i h0
    obtain ⟨hdl', hs'⟩ := hold d' hd' j (he ▸ h0)
    rw [hs] at h0 he
    rw [hs'] at he
    exact h.index d hdl i hi d' hdl' j hj h0 he
  · refine hI.grow (hI.rest (hI.directory h.inv (d := dir) (v := ⟨fun _ => 0, fun _ => 0, 0⟩)
      fun a n ha => h.apart_held hmem ha) rfl rfl) fun a n ha => ha.mono

theorem HousedWith.setTable {dir i t entry : Nat} (h : HousedWith I made held M)
    (ht : Given M made t sizeofTable)
    (hone : ∀ d ∈ M.liveDirectories, ∀ j < arraySize, M.slot d j = t → j = i) :
    HousedWith I made held (M.withPaging (M.paging.setTable dir i t entry)) := by
  refine ⟨⟨h.early, fun s hs => ?_, fun name => (h.heaps name).congr rfl, h.kernel, h.directories,
    fun x hx => ?_, fun d hd s hs d' hd' j hj h0 he => ?_, hI.rest h.inv rfl rfl⟩, h.current⟩
  · show (M.withPaging (M.paging.setTable dir i t entry)).slot M.paging.kernelDirectory s ≠ 0
    rw [slot_setTable]
    split
    · exact h.given_ne ht
    · exact h.slots s hs
  · obtain ⟨hx0, d, hd, j, hj, rfl⟩ := hx
    rw [slot_setTable] at hx0 ⊢
    split
    · exact ht
    · rw [if_neg ‹_›] at hx0
      exact h.tables _ ⟨hx0, d, hd, j, hj, rfl⟩
  · rw [slot_setTable] at h0 he
    rw [slot_setTable] at he
    split at he <;> split at he
    · omega
    · have := hone d' hd' j hj he.symm
      omega
    · have := hone d hd s hs he
      omega
    · rw [if_neg ‹_›] at h0
      exact h.index d hd s hs d' hd' j hj h0 he

omit hI in
/-- What changes the paging state only, and no directory. -/
theorem HousedWith.withPaging {P : Paging} (h : HousedWith I made held M)
    (hs : SameTables M.paging P) (hP : I (Given M made) P) :
    HousedWith I made held (M.withPaging P) :=
  h.same (.of_paging hs rfl) rfl rfl (fun name => (h.heaps name).congr rfl) hP

theorem HousedWith.allocFrame {P : Paging} {q : PagePtr} {k w : Bool} (h : HousedWith I made held M)
    (hq : Given M made q.table sizeofTable) (ha : M.paging.allocFrame q k w = .ok P) :
    HousedWith I made held (M.withPaging P) :=
  h.withPaging (allocFrame_same ha) (hI.alloc h.inv hq ha)

/-! ## What extends a directory -/

/-- **`GetPage`, where it makes a table.** -/
theorem makeTable_housed {dir i : Nat} {u : Kernel} (h : HousedWith I made held M)
    (h0 : M.slot dir i = 0) (hs : M.Serves .kheap (.alloc sizeofTable true :: rest))
    (hm : makeTable (kallocPa rounds fresh) dir i M = .ok u) :
    ∃ t, t ≠ 0 ∧ HousedWith I ((t, sizeofTable) :: made) held u ∧ u.Serves .kheap rest ∧
      (∀ d j, u.slot d j = if d = dir ∧ j = i then t else M.slot d j) ∧
      u.paging.kernelDirectory = M.paging.kernelDirectory ∧
      u.paging.currentDirectory = M.paging.currentDirectory ∧
      u.liveDirectories = M.liveDirectories := by
  unfold makeTable at hm
  rw [if_pos (show (M.paging.directories dir).tables i = 0 from h0)] at hm
  obtain ⟨⟨t, phys, M₁⟩, ha, hm⟩ := bind_ok.1 hm
  cases hm
  obtain ⟨h₁, hs₁⟩ := h.alloc hI hs ha
  have h₂ := h₁.newTable hI
  have hsame := kallocPa_same ha
  have ht : Given (M₁.newTable t) ((t, sizeofTable) :: made) t sizeofTable := .inl List.mem_cons_self
  refine ⟨t, h₂.given_ne ht, h₂.setTable hI ht fun d hd j hj he => absurd he ?_, hs₁, fun d j => ?_,
    hsame.kernel, hsame.current, ?_⟩
  · exact h₁.unnamed d hd j hj
  · rw [slot_setTable]
    refine if_congr Iff.rfl rfl ?_
    show (M₁.paging.directories d).tables j = _
    rw [hsame.directories]
    rfl
  · show M₁.liveDirectories = _
    exact kallocPa_live ha

end

end Kernel

end Dmanix
