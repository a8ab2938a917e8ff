import Dmanix.Memory.Proof.HousedCalls

/-!
# Runs of the kernel's calls

`Callers.Kept`: the kernel mappings are coherent, and every table and directory has memory of its own.
`memory::Initialize` establishes it (`Initialized.housed`), every call under `Kernel.CallOk` keeps it
(`Kept.step`): then no clone gets the memory of the directory it copies or of `kernel_directory`. So
`Expand` and `Contract` never make a table, and what they do to a page they do in every directory
(`coherent_run`).
-/

namespace Dmanix

open Word32 Bytes Outcome Machine Paging Tiling

namespace Kernel

variable {M M' : Kernel} {name : HeapName} {lo hi : Nat} {bs : List Block} {rest : List HeapRequest}
  {rounds : Nat} {fresh : Mem} {src dir : Nat} {made : List (Nat × Nat)}
  {held : HeapName → List (Nat × Nat)}
  {I : (Nat → Nat → Prop) → Paging → Prop}

theorem HeapAt.serves (l : List Block) {r : List Block} {n pos : Nat} (size : Nat)
    (pageAlign : Bool) (h : HeapAt M name lo hi (l ++ ⟨true, n⟩ :: r))
    (hpos : pos = lo + extent Block.size l) (hsz : size ≤ 4194304)
    (hfit : size + 8 + gapOffset pageAlign pos ≤ n) (hsplit : SplitOk pageAlign pos n (size + 8))
    (hother : ∀ b ∈ l ++ r, b.hole = true → b.size < size + 8)
    (hroom : (l ++ ⟨true, n⟩ :: r).length + 1 < 0x20000)
    (hrest : ∀ M', HeapAt M' name lo hi
      (l ++ (carved n (size + 8) (gapSize pageAlign pos) ++ r)) → M'.Serves name rest) :
    M.Serves name (.alloc size pageAlign :: rest) := by
  intro g hg P
  obtain ⟨g', hg', hlo, hhi, hwf⟩ := HeapAt.congr (N := M.withPaging P) h rfl
  cases hg.symm.trans hg'
  refine ⟨hwf.allocOk_at (hpos.trans (by rw [← hlo]; rfl)) hsz hfit hsplit hother,
    fun rounds fresh p s hs => ?_⟩
  obtain ⟨s', ha, hr, hwf'⟩ := hwf.alloc_at rounds fresh (hpos.trans (by rw [← hlo]; rfl)) hsz hfit
    hsplit hother hroom
  cases ha.symm.trans hs
  exact hrest (putHeap (M.withPaging P) name s)
    (heapAt_put hwf' (hr.startAddress.trans hlo) (hr.maxAddress.trans hhi)) _ (if_pos rfl)

theorem requests_alloc (M : Kernel) (name : HeapName) (size : Nat) (pageAlign : Bool) :
    M.requests (.alloc name size pageAlign) name = [.alloc size pageAlign] := by
  cases name <;> rfl

theorem requests_free (M : Kernel) (name : HeapName) (p : Nat) :
    M.requests (.free name p) name = [.free p] := by
  cases name <;> rfl

theorem serves_nil (M : Kernel) (name : HeapName) : M.Serves name [] := fun _ _ => trivial

theorem HeapAt.owned {live : List (Nat × Nat)} (h : HeapAt M name lo hi bs)
    (hlo : lo = heapFirst name) (hhi : hi = heapMax name) (hleast : 0x70000 ≤ extent Block.size bs)
    (hmost : lo + extent Block.size bs ≤ hi)
    (hheaders : (live.map (·.1 - 4)).Perm ((allocs lo bs).map (·.1)))
    (hroom : ∀ a ∈ live, 4 ≤ a.1 ∧ ∃ n, a.2 + 8 ≤ n ∧ (a.1 - 4, n) ∈ allocs lo bs) :
    HeapOwned M name live := by
  obtain ⟨g, hg, hl⟩ := h.within hlo hhi hleast hmost
  obtain ⟨g', hg', hst, hmax, hwf⟩ := h
  cases hg.symm.trans hg'
  subst hst
  exact ⟨g, bs, hg, hl, hwf, hheaders, hroom⟩

/-- What `memory::Initialize` has in the kernel heap: the first clone, and the user heap's object. -/
def initialObjects : List (Nat × Nat) := [(firstClone, sizeofDirectory), (0xC0081004, sizeofHeap)]

/-- **After `memory::Initialize`** every table and directory has memory of its own. -/
theorem Initialized.housedWith {n : Nat} (h : Initialized n M)
    (hI : I (Given M initialObjects) M.paging) :
    HousedWith I initialObjects (fun _ => []) M := by
  have hk : M.paging.kernelDirectory ∈ M.liveDirectories := by
    rw [h.directories]
    simp
  have hslot : ∀ d ∈ M.liveDirectories, ∀ i < arraySize, M.slot d i = M.paging.kernelTable i := by
    intro d hd i hi
    rw [h.directories, List.mem_cons, List.mem_singleton] at hd
    rcases hd with rfl | rfl
    · exact (h.shared i hi).1
    · rfl
  refine ⟨⟨h.bumped, h.held, fun name => ?_, hk, fun d hd => ?_, fun t ht => ?_, ?_, hI⟩, ?_⟩
  · cases name with
    | kheap =>
      refine h.kheap.owned rfl rfl (by decide) (by decide) (by decide) fun a ha => ?_
      rcases List.mem_cons.1 ha with rfl | ha
      · exact ⟨by decide, 8204, by decide, by decide⟩
      · rw [List.mem_singleton.1 ha]
        exact ⟨by decide, 40, by decide, by decide⟩
    | uheap => exact h.uheap.owned rfl rfl (by decide) (by decide) (.refl _) nofun
  · rw [h.directories, List.mem_cons, List.mem_singleton] at hd
    rcases hd with rfl | rfl
    · exact .inl List.mem_cons_self
    · exact .inr h.kernelRegion
  · obtain ⟨ht0, d, hd, i, hi, rfl⟩ := ht
    rw [hslot d hd i hi] at ht0 ⊢
    exact .inr (h.tables i hi ht0).1
  · intro d hd i hi d' hd' j hj h0 he
    obtain ⟨K, k, hb, -⟩ := h.identity
    rw [hslot d hd i hi] at h0 he
    rw [hslot d' hd' j hj] at he
    exact hb.apart i hi j hj h0 he
  · rw [h.directories, h.current]
    exact List.mem_cons_self

/-! ## What a call keeps -/

section
variable (hI : Built I)
include hI

/-- The directory that is cloned and `kernel_directory` keep their memory. -/
theorem HousedWith.givesOther {made : List (Nat × Nat)} (h : HousedWith I made held M)
    (hs : M.Serves .kheap (M.requests (.clone src) .kheap)) (hsrc : src ∈ M.liveDirectories) :
    GivesOther rounds fresh src M := by
  rintro ⟨dir, phys, M₁⟩ ha
  have hvac := (newClone_duplicating hI h hs hsrc ha).2
  have hne : ∀ d ∈ M.liveDirectories, dir ≠ d := fun d hd he => by
    have := hvac.directories d hd
    simp only [Apart, sizeofDirectory] at this
    omega
  exact ⟨hne src hsrc, hne _ h.kernel⟩

end

theorem CallOk.clonesApart {p : Performed} (h : Housed made held M) (hok : M.CallOk p.call)
    (ha : Allowed M p.call) : ClonesApart M p := by
  obtain ⟨rounds, fresh, c⟩ := p
  rintro src rfl
  exact h.givesOther built_true (hok.serves .kheap) ha

end Kernel

namespace Callers

open Kernel

/-- **The invariant of runs** (module doc), with an invariant `I` of the memory given and the pages. -/
structure Kept (I : (Nat → Nat → Prop) → Paging → Prop) (c : Callers) : Prop where
  coherent : Coherent c.kernel
  housed : ∃ made, HousedWith I made c.held c.kernel

variable {I : (Nat → Nat → Prop) → Paging → Prop} {c d : Callers} {p : Performed}

theorem Step.kernel (h : Step c p d) : Kernel.Step c.kernel p d.kernel := by
  cases h with
  | alloc ha =>
    refine ⟨trivial, ?_⟩
    show (allocInternal _ _ _ _ _ _ c.kernel >>= _) = _
    rw [ha]
    rfl
  | free _ hf => exact ⟨trivial, hf⟩
  | other _ _ hs => exact hs

/-- **A call in order** keeps tables and directories apart. -/
theorem Step.housed (hI : Built I) {made : List (Nat × Nat)}
    (hH : HousedWith I made c.held c.kernel) (hok : CallOk c p) (hs : Step c p d) :
    ∃ made, HousedWith I made d.held d.kernel := by
  obtain ⟨hallow, hperf⟩ := hs.kernel
  cases hs with
  | @alloc _ _ _ _ _ name _ _ ha =>
    have hserves := hok.serves name
    rw [requests_alloc] at hserves
    exact ⟨made, (hH.alloc hI hserves ha).1⟩
  | @free _ _ _ _ name _ hp hf =>
    have hserves := hok.serves name
    rw [requests_free] at hserves
    exact ⟨made, (hH.free hI hp hserves hf).1⟩
  | other hna hnf hs =>
    obtain ⟨rounds, fresh, call⟩ := p
    have hserves := hok.serves .kheap
    cases call with
    | clone src =>
      obtain ⟨⟨dir, M'⟩, hcl, hperf⟩ := bind_ok.1 hperf
      cases hperf
      exact clone_housed hI hH hserves hallow hcl
    | allocateRange address size =>
      exact (allocateRange_extending hI ⟨⟨made, hH⟩, hserves⟩ hperf).housed
    | moveStack newStack size =>
      exact (moveStack_extending hI hallow ⟨⟨made, hH⟩, hserves⟩ hperf).housed
    | alloc n k b => exact absurd rfl (hna n k b)
    | free n q => exact absurd rfl (hnf n q)
    | switch dir =>
      cases hperf
      exact ⟨made, ⟨hH.early, hH.slots, fun name => (hH.heaps name).congr rfl, hH.kernel,
        hH.directories, hH.tables, hH.index, hI.rest hH.inv rfl rfl⟩, hallow.1⟩

theorem Kept.step (hI : Built I) (h : Kept I c) (hok : CallOk c p) (hs : Step c p d) : Kept I d := by
  obtain ⟨hc, made, hH⟩ := h
  obtain ⟨hallow, hperf⟩ := hs.kernel
  exact ⟨(perform_coherent hc hallow (hok.clonesApart hH.housed hallow)).ok hperf,
    hs.housed hI hH hok⟩

/-- A state `memory::Initialize` leaves, in which no caller holds anything. -/
def Started (c : Callers) : Prop := Kernel.Started c.kernel ∧ ∀ name, c.held name = []

theorem Started.kept (h : Started c) : Kept (fun _ _ => True) c := by
  obtain ⟨⟨_, _, _, _, hs, hok, hb⟩, hheld⟩ := h
  have hinit := memoryInitialize_ok hs hok hb
  refine ⟨hinit.coherent, initialObjects, ?_⟩
  rw [show c.held = fun _ => [] from funext hheld]
  exact hinit.housedWith trivial

end Callers

namespace Kernel

variable {M : Kernel} {made : List (Nat × Nat)} {held : HeapName → List (Nat × Nat)}

/-- What coherence gives: one set of kernel tables, so one entry for a heap page in all directories,
and nothing for `Expand` to make. -/
structure MapsTogether (M : Kernel) : Prop where
  tables : ∀ d ∈ M.liveDirectories, ∀ i < arraySize, M.Agrees d i
  pages : ∀ d ∈ M.liveDirectories, ∀ a make, kheapStart ≤ a → a < 0xE0000000 →
    M.paging.getPage d a make = .ok (M.paging.pageAt (a / 0x1000))
  expand : ∀ name g, M.allocator.heap name = some g → ∀ fresh w, w ≤ 0x400008 →
    ∀ e, (M.heapState g).expand (add32 (sub32 g.endAddress g.startAddress) w) fresh = .error e →
      e.halt ≠ .reentry
  calls : ∀ p : Performed, Allowed M p.call → M.CallOk p.call →
    perform p.rounds p.fresh p.call M ≠ .error .reentry

theorem CoherentBut.mapsTogether (h : Coherent M) (hH : Housed made held M) : MapsTogether M := by
  refine ⟨fun d hd i hi => h.agrees d hd i hi id, fun d hd a make h1 h2 => ?_,
    fun name g hg fresh w hw e he => ?_, fun p ha hok he => ?_⟩
  · rw [kheapStart_eq] at h1
    have hT := h.held (a / 0x1000 / 1024) ⟨by omega, by omega⟩
    have hs := (h.agrees d hd (a / 0x1000 / 1024) (by unfold arraySize; omega) id hT).1
    have hne : (M.paging.directories d).tables (a / 0x1000 / 1024) ≠ 0 := fun h0 =>
      hT (hs.symm.trans h0)
    rw [getPage_some hne]
    exact congrArg (fun t => Except.ok (⟨t, a / 0x1000 % 1024⟩ : PagePtr)) hs
  · obtain ⟨g', hg', hl⟩ := h.heaps name
    cases hg.symm.trans hg'
    exact (HeapState.expand_pages (grows_of_held h.held name).1 (heapMax_le name) hl hw
      (.refl _)).error he
  · exact (perform_coherent h ha (hok.clonesApart hH ha)).error he rfl

/-- Where the second clone lies. -/
def secondClone : Nat := 0xC0085000

/-- The kernel heap serves the next clone's request for the directory. -/
theorem Initialized.serves_clone {n : Nat} (h : Initialized n M) :
    M.Serves .kheap (M.requests (.clone firstClone) .kheap) := by
  have hnone : M.privateSlots firstClone 0 = ∅ := by
    refine Finset.eq_empty_of_forall_notMem fun i hi => ?_
    obtain ⟨hi', -, -, hne⟩ := mem_privateSlots.1 hi
    exact hne (h.shared i hi').1
  show M.Serves .kheap (_ :: tableRequests (M.privateSlots firstClone 0).card)
  rw [hnone, Finset.card_empty, tableRequests_zero]
  exact HeapAt.serves [⟨false, 40⟩, ⟨true, 4052⟩, ⟨false, 8204⟩] sizeofDirectory true h.kheap rfl
    (by decide) (by decide) (by decide) (by decide) (by decide) fun M' _ => serves_nil M' _

/-- The blocks of the kernel heap then. -/
def doubledBlocks : List Block :=
  [⟨false, 40⟩, ⟨true, 4052⟩, ⟨false, 8204⟩, ⟨true, 4084⟩, ⟨false, 8204⟩, ⟨true, 495608⟩]

/-- `M'` is `M` with a second clone. -/
structure Doubled (M M' : Kernel) : Prop where
  kheap : HeapAt M' .kheap 0xC0081000 kheapEnd doubledBlocks
  liveDirectories : M'.liveDirectories = secondClone :: M.liveDirectories
  liveTables : M'.liveTables = M.liveTables
  kernel : M'.paging.kernelDirectory = M.paging.kernelDirectory
  current : M'.paging.currentDirectory = M.paging.currentDirectory
  slots : ∀ d i, M'.slot d i = if d = secondClone then (if i < arraySize then M.slot firstClone i else 0)
    else M.slot d i

theorem Initialized.clone_first {n : Nat} (h : Initialized n M) (rounds : Nat) (fresh : Mem) :
    M.CallOk (.clone firstClone) ∧
      ∃ M', clone (kallocPa rounds fresh) firstClone M = .ok (secondClone, M') ∧ Doubled M M' := by
  have hk := h.kernel
  rw [kheapStart_eq] at hk
  obtain ⟨s, phys, ha, hs, hheap, -⟩ := HeapAt.alloc rounds fresh
    [⟨false, 40⟩, ⟨true, 4052⟩, ⟨false, 8204⟩] sizeofDirectory true true h.kheap rfl (by decide)
    (by decide) (by decide) (by decide) (by decide) fun _ => by
      rw [h.current]
      exact (h.shared 768 (by decide)).1 ▸ h.held 768 ⟨by decide, by decide⟩
  replace ha : kallocPa rounds fresh sizeofDirectory M =
    .ok (secondClone, phys, M.putHeap .kheap s) := ha
  have hker : M.paging.kernelDirectory ≠ secondClone := by
    rw [secondClone]
    omega
  refine ⟨⟨fun name => ?_, nofun⟩, ?_⟩
  · cases name with
    | kheap => exact h.serves_clone
    | uheap => exact serves_nil M _
  · obtain ⟨M', hc, hcl⟩ := @clone_shared _ _ _ _ firstClone _ _ ha (by decide)
      (by rw [hs.paging]; exact hker) fun i hi _ => by
        rw [hs.paging]
        exact (h.shared i hi).1.symm
    refine ⟨M', hc, HeapAt.congr (show HeapAt _ _ _ _ doubledBlocks from hheap) hcl.allocator,
      hcl.liveDirectories, hcl.liveTables, ?_, ?_, fun d i => ?_⟩
    · rw [hcl.kernel, hs.paging]
    · rw [hcl.current, hs.paging]
    · unfold slot
      split
      · rename_i hd
        rw [hd, hcl.tables, hs.paging]
      · rename_i hd
        rw [hcl.others d hd, hs.paging]

end Kernel

end Dmanix
