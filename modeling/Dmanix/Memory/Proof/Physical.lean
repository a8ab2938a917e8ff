import Dmanix.Memory.Proof.Runs
import Dmanix.Memory.Proof.Collision
import Dmanix.Memory.Proof.IdentityMapped

/-!
# The physical address of a clone (`src/memory/paging.cc`)

`Directory::Clone` computes the address for CR3 from the first page of the new directory, which is
three pages long. `KernelMapped` is what a run of heap calls and clones keeps: every directory has the
kernel's tables, and a page with a frame is present. There the address is right exactly when the memory
`kalloc_pa` gives starts a page and its first two pages have consecutive frames: `cr3_iff`.
-/

namespace Dmanix

open Word32 Bytes Outcome Machine Paging Tiling

/-! ## Addresses -/

namespace HeapState

theorem placeBlock_lt {s : HeapState} {pos n size newSize : Nat} :
    Meets (s.placeBlock pos n size newSize) (fun r => r.1 < 4294967296) fun _ => True := by
  unfold placeBlock
  dsimp only
  split
  · exact Meets.bind (Q := fun _ => True) (.intro fun _ _ => trivial) fun _ _ =>
      .pure (add32_lt _ _)
  · exact .pure (add32_lt _ _)

theorem carve_lt {s : HeapState} {i size newSize : Nat} {pageAlign : Bool} :
    Meets (s.carve i size newSize pageAlign) (fun r => r.1 < 4294967296) fun _ => True := by
  unfold carve
  refine Meets.bind (Q := fun _ => True) (.intro fun _ _ => trivial) fun _ _ => ?_
  exact Meets.bind (Q := fun _ => True) (.intro fun _ _ => trivial) fun _ _ => placeBlock_lt

theorem allocN_lt {size : Nat} {pageAlign : Bool} {fresh : Mem} : ∀ (rounds : Nat) {s : HeapState},
    Meets (s.allocN rounds size pageAlign fresh) (fun r => r.1 < 4294967296) fun _ => True := by
  intro rounds
  induction rounds with
  | zero =>
    intro s
    unfold allocN
    refine Meets.bind (Q := fun _ => True) (.intro fun _ _ => trivial) fun _ _ => ?_
    dsimp only
    split
    · exact carve_lt
    · exact .intro fun a ha => by cases ha
  | succ rounds ih =>
    intro s
    rw [allocN]
    refine Meets.bind (Q := fun _ => True) (.intro fun _ _ => trivial) fun _ _ => ?_
    dsimp only
    split
    · exact carve_lt
    · exact Meets.bind (Q := fun _ => True) (.intro fun _ _ => trivial) fun _ _ => ih

end HeapState

namespace Kernel

variable {M M' M₁ : Kernel} {rounds n dir src phys : Nat} {fresh : Mem}

/-- With a heap, `kalloc_pa` gives an address and what `GetPhysicalAddress` finds for it. -/
theorem kallocPa_physical {g : Heap} {size p : Nat} (hg : M.allocator.heap .kheap = some g)
    (h : kallocPa rounds fresh size M = .ok (p, phys, M₁)) :
    p < 4294967296 ∧ M₁.getPhysicalAddress p = .ok phys ∧ M₁.liveDirectories = M.liveDirectories := by
  unfold kallocPa allocInternal at h
  rw [hg] at h
  obtain ⟨⟨a, s⟩, ha, h⟩ := bind_ok.1 h
  obtain ⟨q, hq, h⟩ := bind_ok.1 h
  cases h
  exact ⟨(HeapState.allocN_lt rounds).ok (halted_ok.1 ha), hq, rfl⟩

/-! ## What a run keeps -/

/-- The tables `T` of the kernel, with their entries: page aligned, below the kernel heap. -/
structure KernelTables (T : Nat → Nat) : Prop where
  aligned : ∀ i < 1024, T i ≠ 0 → T i % 4096 = 0
  word : ∀ i < 1024, T i ≠ 0 → T i < 4294967296

/-- A page of the kernel's tables with a frame is present, and the frame is one of the first `32 * n`. -/
structure Marked (T : Nat → Nat) (n : Nat) (P : Paging) : Prop where
  size : P.frames.size = n
  mapped : ∀ i < 1024, ∀ e < 1024, T i ≠ 0 → (P.page ⟨T i, e⟩).frame ≠ 0 →
    (P.page ⟨T i, e⟩).present = true ∧ (P.page ⟨T i, e⟩).frame < 32 * n

theorem marked_alloc {T : Nat → Nat} : AllocKeeps (Marked T n) := by
  intro P P' q k w h ha
  refine ⟨(allocFrame_same ha).size.trans h.size, fun i hi e he hT hf => ?_⟩
  by_cases hq : (⟨T i, e⟩ : PagePtr) = q
  · subst hq
    by_cases h0 : (P.page ⟨T i, e⟩).frame = 0
    · obtain ⟨f, -, hlt, -, -, -, hpage⟩ := allocFrame_gives ha h0
      rw [h.size] at hlt
      rw [hpage]
      exact ⟨rfl, lt_of_le_of_lt (Nat.mod_le _ _) hlt⟩
    · rcases allocFrame_cases ha with ⟨-, rfl⟩ | ⟨hz, -⟩
      · exact h.mapped i hi e he hT hf
      · exact absurd hz h0
  · rw [allocFrame_page ha hq] at hf ⊢
    exact h.mapped i hi e he hT hf

theorem marked_free {T : Nat → Nat} : FreeKeeps (Marked T n) := by
  intro P P' q h hf
  refine ⟨(freeFrame_same hf).size.trans h.size, fun i hi e he hT h0 => ?_⟩
  by_cases hq : (⟨T i, e⟩ : PagePtr) = q
  · subst hq
    rcases freeFrame_cases hf with ⟨-, rfl⟩ | ⟨-, b, -, rfl⟩
    · exact h.mapped i hi e he hT h0
    · rw [page_setPage_self] at h0
      exact absurd rfl h0
  · rw [freeFrame_page hf hq] at h0 ⊢
    exact h.mapped i hi e he hT h0

/-- **What a run of heap calls and clones keeps** (module doc). -/
structure KernelMapped (T : Nat → Nat) (n : Nat) (M : Kernel) : Prop where
  coherent : Coherent M
  kernel : M.paging.kernelDirectory ∈ M.liveDirectories
  slots : ∀ d ∈ M.liveDirectories, ∀ i < 1024, M.slot d i = T i ∧
    (T i ≠ 0 → (M.paging.directories d).physical i = T i ||| 0x7)
  marked : Marked T n M.paging

/-- The calls of these runs. -/
def HeapOrClone : KernelCall → Prop
  | .clone _ => True
  | .alloc _ _ _ => True
  | .free _ _ => True
  | _ => False

variable {T : Nat → Nat}

theorem KernelMapped.same (h : KernelMapped T n M) (hs : SameSlots M M') (hc : Coherent M')
    (hm : Marked T n M'.paging) : KernelMapped T n M' := by
  refine ⟨hc, ?_, ?_, hm⟩
  · rw [hs.kernel, hs.liveDirectories]
    exact h.kernel
  · simpa only [slot, hs.directories, hs.liveDirectories] using h.slots

/-- **`alloc_internal`.** -/
theorem KernelMapped.alloc {name : HeapName} {size p : Nat} {pageAlign ph : Bool}
    (h : KernelMapped T n M)
    (ha : allocInternal rounds fresh name size pageAlign ph M = .ok (p, phys, M')) :
    SameSlots M M' ∧ KernelMapped T n M' := by
  obtain ⟨hs, hc⟩ := (allocInternal_coherent h.coherent).ok ha
  have hm := (allocInternal_each marked_alloc.kernel h.marked).ok ha
  exact ⟨hs, h.same hs hc hm⟩

/-- **`free_internal`.** -/
theorem KernelMapped.free {name : HeapName} {p : Nat} (h : KernelMapped T n M)
    (hf : freeInternal name p M = .ok M') : KernelMapped T n M' := by
  obtain ⟨hs, hc⟩ := (freeInternal_coherent h.coherent).ok hf
  exact h.same hs hc ((freeInternal_each marked_free h.marked).ok hf)

theorem KernelMapped.cloned (h : KernelMapped T n M) (hs : src ∈ M.liveDirectories)
    (hg : GivesOther rounds fresh src M)
    (hc : clone (kallocPa rounds fresh) src M = .ok (dir, M')) :
    ∃ phys M₁, kallocPa rounds fresh sizeofDirectory M = .ok (dir, phys, M₁) ∧
      KernelMapped T n M₁ ∧ Cloned M₁ src dir arraySize M' ∧ KernelMapped T n M' := by
  obtain ⟨⟨dir', phys, M₁⟩, ha, hrest⟩ := bind_ok.1 hc
  obtain ⟨hs₁, h₁⟩ := h.alloc ha
  obtain ⟨hne, hnk⟩ := hg _ ha
  have hsrc : src ∈ M₁.liveDirectories := hs₁.liveDirectories.symm ▸ hs
  have hnk₁ : M₁.paging.kernelDirectory ≠ dir' := by
    rw [hs₁.kernel]
    exact Ne.symm hnk
  obtain ⟨M₂, h₂, hcl⟩ := clone_shared ha (Ne.symm hne) hnk₁ fun i hi _ =>
    (h₁.slots _ h₁.kernel i hi).1.trans (h₁.slots src hsrc i hi).1.symm
  obtain ⟨rfl, rfl⟩ := Prod.mk.inj (Except.ok.inj (hc.symm.trans h₂))
  refine ⟨phys, M₁, ha, h₁, hcl, (clone_coherent h.coherent hs hg).ok hc, ?_, fun d hd i hi => ?_,
    ⟨?_, ?_⟩⟩
  · rw [hcl.kernel, hcl.liveDirectories]
    exact List.mem_cons_of_mem _ h₁.kernel
  · by_cases hdd : d = dir
    · subst hdd
      obtain ⟨h1, h2⟩ := h₁.slots src hsrc i hi
      refine ⟨?_, fun h0 => ?_⟩
      · rw [slot, hcl.tables, if_pos (show i < arraySize from hi)]
        exact h1
      · rw [hcl.physical, if_pos ⟨hi, fun hz => h0 (h1.symm.trans hz)⟩]
        exact h2 h0
    · rw [hcl.liveDirectories] at hd
      rw [slot, hcl.others d hdd]
      exact h₁.slots d ((List.mem_cons.1 hd).resolve_left hdd) i hi
  · rw [hcl.frames]
    exact h₁.marked.size
  · simp only [Paging.page, hcl.pages]
    exact h₁.marked.mapped

/-- **One call.** -/
theorem KernelMapped.step {p : Performed} (h : KernelMapped T n M) (hp : HeapOrClone p.call)
    (hg : ClonesApart M p) (hs : Step M p M') : KernelMapped T n M' := by
  obtain ⟨rounds, fresh, c⟩ := p
  obtain ⟨hallow, hperf⟩ := hs
  cases c with
  | clone src =>
    obtain ⟨⟨dir, M₂⟩, hc, hperf⟩ := bind_ok.1 hperf
    cases hperf
    obtain ⟨-, -, -, -, -, h'⟩ := h.cloned hallow (hg src rfl) hc
    exact h'
  | alloc name size pageAlign =>
    obtain ⟨⟨p, phys, M₂⟩, ha, hperf⟩ := bind_ok.1 hperf
    cases hperf
    exact (h.alloc ha).2
  | free name p => exact h.free hperf
  | allocateRange address size => exact hp.elim
  | moveStack newStack size => exact hp.elim
  | switch dir => exact hp.elim

/-- **Where the runs start.** -/
theorem Initialized.mapped (h : Initialized n M) :
    KernelTables M.paging.kernelTable ∧ KernelMapped M.paging.kernelTable n M := by
  have hin : ∀ i < 1024, M.paging.kernelTable i ≠ 0 → M.paging.kernelTable i % 4096 = 0 ∧
      M.paging.kernelTable i < 4294967296 := by
    intro i hi h0
    obtain ⟨hreg, -⟩ := h.tables i hi h0
    have hlow := h.bumped.inside _ hreg
    have hhigh := h.bumped.high
    have hal := h.bumped.aligned _ hreg rfl
    rw [kheapStart_eq] at hhigh
    simp only [sizeofTable] at hlow hal
    exact ⟨hal, by omega⟩
  refine ⟨⟨fun i hi h0 => (hin i hi h0).1, fun i hi h0 => (hin i hi h0).2⟩, h.coherent, ?_,
    fun d hd i hi => ?_, h.size, fun i hi e he h0 hf => ?_⟩
  · rw [h.directories]
    simp
  · by_cases h0 : M.paging.kernelTable i = 0
    · refine ⟨?_, fun hne => absurd h0 hne⟩
      rw [h.directories, List.mem_cons, List.mem_singleton] at hd
      rcases hd with rfl | rfl
      · exact (h.shared i hi).1
      · rfl
    · obtain ⟨h1, h2⟩ := h.shares hd hi h0
      exact ⟨h1, fun _ => h2⟩
  · -- the entry of page `1024 * i + e`
    obtain ⟨K, k, hb, -, -, -⟩ := h.identity
    have hv : M.paging.pageAt (1024 * i + e) = ⟨M.paging.kernelTable i, e⟩ := by
      unfold Paging.pageAt
      rw [show (1024 * i + e) / 1024 = i by omega, show (1024 * i + e) % 1024 = e by omega]
    have hfits := hb.fits
    have hle := hb.le
    rw [h.size] at hfits
    rw [← hv] at hf ⊢
    by_cases hvK : 1024 * i + e < K
    · obtain ⟨-, hpres, hframe⟩ := hb.identity _ hvK
      exact ⟨hpres, by omega⟩
    · rcases hb.above (1024 * i + e) (by omega) (by omega)
        (by rwa [show (1024 * i + e) / 1024 = i by omega]) with ⟨hz, -⟩ | ⟨-, hlt, hpres⟩
      · exact absurd hz hf
      · exact ⟨hpres, by omega⟩

/-! ## The stored address -/

theorem physicalAddress_setTable {P : Paging} {d i table entry : Nat} :
    ((P.setTable d i table entry).directories dir).physicalAddress =
      (P.directories dir).physicalAddress := by
  simp only [Paging.setTable, Paging.setDirectory, Function.update_apply]
  split
  · rename_i hd
    rw [hd]
  · rfl

theorem tableClone_directories {t : Nat} {r : Nat × Nat × Kernel}
    (h : tableClone (kallocPa rounds fresh) t M = .ok r) :
    r.2.2.paging.directories = M.paging.directories := by
  obtain ⟨⟨p, phys, M₁⟩, ha, h⟩ := bind_ok.1 h
  obtain ⟨M₂, h₂, h⟩ := bind_ok.1 h
  cases h
  have hloop := (upTo_meets (I := fun _ M' => M'.paging.directories = M₁.paging.directories)
    (E := fun _ => True) (show (M₁.newTable p).paging.directories = _ from rfl)
    fun i M' _ hM' => .intro fun M'' h => by
      unfold cloneEntry at h
      dsimp only at h
      split at h
      · cases h
        exact hM'
      · obtain ⟨P, hP, h⟩ := bind_ok.1 h
        cases h
        exact (allocFrame_same hP).directories.trans hM').ok h₂
  exact hloop.trans (kallocPa_same ha).directories

theorem clone_physicalAddress (ha : kallocPa rounds fresh sizeofDirectory M = .ok (dir, phys, M₁))
    (hc : clone (kallocPa rounds fresh) src M = .ok (dir, M')) :
    (M'.paging.directories dir).physicalAddress = add32 phys (sub32 (add32 dir 4096) dir) := by
  obtain ⟨⟨dir', phys', M₁'⟩, ha', hc⟩ := bind_ok.1 hc
  cases ha.symm.trans ha'
  obtain ⟨M₂, h₂, hc⟩ := bind_ok.1 hc
  cases hc
  have hnew : ((M₁.newClone dir phys).paging.directories dir).physicalAddress =
      add32 phys (sub32 (add32 dir 4096) dir) := by
    simp only [newClone, newDirectory, withPaging, Paging.setDirectory, Function.update_self]
  refine (upTo_meets (I := fun _ M => (M.paging.directories dir).physicalAddress =
    add32 phys (sub32 (add32 dir 4096) dir)) (E := fun _ => True) hnew
    fun i M _ hM => .intro fun M' h => ?_).ok h₂
  unfold cloneTable at h
  dsimp only at h
  split at h
  · cases h
    exact hM
  · split at h
    · cases h
      exact physicalAddress_setTable.trans hM
    · obtain ⟨r, hr, h⟩ := bind_ok.1 h
      cases h
      refine physicalAddress_setTable.trans ?_
      rw [tableClone_directories hr]
      exact hM

/-- The physical address of the clone at `dir` is page aligned, it is where the current mapping has the
array `physical`, and the whole array lies in that frame. -/
structure Cr3Right (M : Kernel) (dir : Nat) : Prop where
  aligned : (M.paging.directories dir).physicalAddress % 0x1000 = 0
  found : M.getPhysicalAddress (add32 dir 4096) = .ok (M.paging.directories dir).physicalAddress
  translated : translate M.paging M.paging.currentDirectory (add32 dir 4096) =
    some (M.paging.directories dir).physicalAddress
  oneFrame : ∀ k < 4096, ∃ p,
    translate M.paging M.paging.currentDirectory (add32 dir (4096 + k)) = some p ∧
      p / 0x1000 = (M.paging.directories dir).physicalAddress / 0x1000

/-- The memory `kalloc_pa` gives for a directory starts a page, and its first two pages have consecutive
frames. -/
def GivesInOrder (rounds : Nat) (fresh : Mem) (M : Kernel) : Prop :=
  ∀ dir phys M₁, kallocPa rounds fresh sizeofDirectory M = .ok (dir, phys, M₁) →
    dir % 0x1000 = 0 ∧ M₁.HasFrame (add32 dir 4096 / 0x1000) ∧
    (M₁.paging.page (M₁.currentPage (add32 dir 4096 / 0x1000))).frame =
      (M₁.paging.page (M₁.currentPage (dir / 0x1000))).frame + 1

theorem getPhysicalAddress_eq {a p : Nat} : M.getPhysicalAddress a = .ok p ↔
    M.currentSlot (a / 0x1000 / 1024) ≠ 0 ∧
    p = add32 (frameToAddr (M.paging.page (M.currentPage (a / 0x1000))).frame) (a % 4096) := by
  have hand : a &&& 0x0FFF = a % 4096 := Nat.and_two_pow_sub_one_eq_mod a 12
  unfold getPhysicalAddress Paging.getPage
  rw [hand]
  dsimp only
  constructor
  · intro h
    split at h
    · cases h
    · cases h
      exact ⟨‹_›, rfl⟩
  · rintro ⟨h0, rfl⟩
    rw [if_neg (show ¬ (M.paging.directories M.paging.currentDirectory).tables
      (a / 0x1000 / 1024) = 0 from h0)]
    rfl

theorem KernelMapped.translate_eq {d a f : Nat} (h : KernelMapped T n M) (hT : KernelTables T)
    (hd : d ∈ M.liveDirectories) (ha : a < 4294967296) (h0 : T (a / 0x1000 / 1024) ≠ 0)
    (hf : (M.paging.page ⟨T (a / 0x1000 / 1024), a / 0x1000 % 1024⟩).frame = f) (hf0 : f ≠ 0) :
    translate M.paging d a = some (add32 (frameToAddr f) (a % 4096)) := by
  have hi : a / 0x1000 / 1024 < 1024 := by omega
  have hand : a &&& 0x0FFF = a % 4096 := Nat.and_two_pow_sub_one_eq_mod a 12
  obtain ⟨h1, h2⟩ := tableEntry (hT.aligned _ hi h0) (hT.word _ hi h0)
  obtain ⟨hpres, -⟩ := h.marked.mapped _ hi _ (Nat.mod_lt (a / 0x1000) (by decide)) h0
    (by rw [hf]; exact hf0)
  unfold Machine.translate
  rw [(h.slots d hd _ hi).2 h0, if_neg h1, h2]
  dsimp only
  rw [hand]
  have hpage : M.paging.tables (T (a / 0x1000 / 1024)) (a / 0x1000 % 1024) =
      M.paging.page ⟨T (a / 0x1000 / 1024), a / 0x1000 % 1024⟩ := rfl
  rw [hpage, hpres, if_pos rfl, hf]

/-- **The address is right** exactly when the memory given starts a page and its first two pages have
consecutive frames. -/
theorem KernelMapped.cr3_iff (h : KernelMapped T n M) (hT : KernelTables T) (hn : 32 * n < 0xFFFFF)
    (hs : src ∈ M.liveDirectories) (hg : GivesOther rounds fresh src M)
    (hc : clone (kallocPa rounds fresh) src M = .ok (dir, M')) :
    Cr3Right M' dir ↔ GivesInOrder rounds fresh M := by
  obtain ⟨phys, M₁, ha, h₁, hcl, h'⟩ := h.cloned hs hg hc
  obtain ⟨g, hheap, -⟩ := h.coherent.heaps .kheap
  obtain ⟨hdir, hphys, -⟩ := kallocPa_physical hheap ha
  have haddr := clone_physicalAddress ha hc
  have hoff : sub32 (add32 dir 4096) dir = 4096 := by unfold sub32 add32; omega
  rw [hoff] at haddr
  -- both states map the current directory alike
  have hslot₁ : ∀ i < 1024, M₁.currentSlot i = T i := fun i hi =>
    (h₁.slots _ h₁.coherent.current i hi).1
  have hslot' : ∀ i < 1024, M'.currentSlot i = T i := fun i hi =>
    (h'.slots _ h'.coherent.current i hi).1
  have hpage : ∀ v < 0x100000, M'.paging.page (M'.currentPage v) =
      M₁.paging.page (M₁.currentPage v) := by
    intro v hv
    unfold currentPage Paging.page
    rw [hslot' _ (by omega), hslot₁ _ (by omega), hcl.pages]
  have hlt : ∀ v < 0x100000, M₁.currentSlot (v / 1024) ≠ 0 →
      (M₁.paging.page (M₁.currentPage v)).frame < 0xFFFFF := by
    intro v hv h0
    by_cases hz : (M₁.paging.page (M₁.currentPage v)).frame = 0
    · omega
    · have hTv := hslot₁ (v / 1024) (by omega)
      have := (h₁.marked.mapped (v / 1024) (by omega) (v % 1024) (Nat.mod_lt _ (by decide))
        (hTv ▸ h0) (hTv ▸ hz)).2
      rw [currentPage, hTv]
      omega
  obtain ⟨h0, hp⟩ := getPhysicalAddress_eq.1 hphys
  have hf := hlt (dir / 0x1000) (by omega) h0
  have hnext := add32_lt dir 4096
  generalize hv : add32 dir 4096 / 0x1000 = v
  have hv20 : v < 0x100000 := by omega
  generalize hff : (M₁.paging.page (M₁.currentPage (dir / 0x1000))).frame = f at *
  have hadd : (M'.paging.directories dir).physicalAddress = f * 4096 + dir % 4096 + 4096 := by
    rw [haddr, hp, frameToAddr, add32_eq (a := f * 0x1000) (by omega), add32_eq (by omega)]
  have hrem : add32 dir 4096 % 4096 = dir % 4096 := by unfold add32; omega
  constructor
  · intro hcr dir₂ phys₂ M₂ ha₂
    cases ha.symm.trans ha₂
    have hal : dir % 4096 = 0 := by
      have := hcr.aligned
      omega
    obtain ⟨hs0, hpa⟩ := getPhysicalAddress_eq.1 hcr.found
    rw [hv] at hs0 hpa
    rw [hslot' _ (by omega), ← hslot₁ _ (by omega)] at hs0
    have hfv := hlt v hv20 hs0
    rw [hadd, hpage v hv20, hrem, hal, frameToAddr, add32_eq (by omega)] at hpa
    rw [hv, hff]
    exact ⟨hal, ⟨hs0, by omega⟩, by omega⟩
  · intro hord
    obtain ⟨hal, hfr, hcons⟩ := hord dir phys M₁ ha
    rw [hv] at hfr hcons
    rw [hff] at hcons
    have hfv := hlt v hv20 hfr.1
    have hT0 : T (v / 1024) ≠ 0 := hslot₁ (v / 1024) (by omega) ▸ hfr.1
    -- every byte of the array is on page `v`
    have htr : ∀ k < 4096, translate M'.paging M'.paging.currentDirectory (add32 dir (4096 + k)) =
        some ((f + 1) * 4096 + k) := by
      intro k hk
      have hk32 : add32 dir (4096 + k) = 4096 * v + k := by
        rw [← hv]
        unfold add32
        omega
      have hpv : (4096 * v + k) / 0x1000 = v := by omega
      have := h'.translate_eq (a := 4096 * v + k) (f := f + 1) hT h'.coherent.current (by omega)
        (by rw [hpv]; exact hT0) (by
          rw [hpv, ← hcons, ← hpage v hv20, currentPage, hslot' _ (by omega)]) (by omega)
      rw [hk32, this, frameToAddr, show (4096 * v + k) % 4096 = k by omega, add32_eq (by omega)]
    refine ⟨by omega, ?_, ?_, fun k hk => ⟨_, htr k hk, by omega⟩⟩
    · refine getPhysicalAddress_eq.2 ⟨?_, ?_⟩
      · rw [hv, hslot' _ (by omega)]
        exact hT0
      · rw [hv, hadd, hpage v hv20, hcons, hrem, hal, frameToAddr, add32_eq (by omega)]
        omega
    · have hsum : f * 4096 + dir % 4096 + 4096 = (f + 1) * 4096 + 0 := by omega
      rw [hadd, hsum]
      exact htr 0 (by decide)

/-- The invariant of a run of heap calls and clones. -/
structure CloneRun (c : Callers) : Prop where
  kept : c.Kept fun _ _ => True
  mapped : ∃ T n, KernelTables T ∧ 32 * n < 0xFFFFF ∧ KernelMapped T n c.kernel

theorem CloneRun.step {c d : Callers} {p : Performed} (h : CloneRun c) (hp : HeapOrClone p.call)
    (hok : c.CallOk p) (hs : Callers.Step c p d) : CloneRun d := by
  obtain ⟨hk, T, n, hT, hn, hm⟩ := h
  obtain ⟨made, hH⟩ := hk.housed
  exact ⟨hk.step built_true hok hs, T, n, hT, hn,
    hm.step hp (hok.clonesApart hH hs.kernel.1) hs.kernel⟩

theorem cloneRun_started {c : Callers} (h : c.Started) : CloneRun c := by
  refine ⟨h.kept, ?_⟩
  obtain ⟨⟨rounds, fresh, memEnd, M₁, hs, hok, hb⟩, -⟩ := h
  obtain ⟨hT, hm⟩ := (memoryInitialize_ok hs hok hb).mapped
  refine ⟨_, _, hT, ?_, hm⟩
  have h : memEnd * 1024 % 4294967296 < 4294967296 := Nat.mod_lt _ (by decide)
  unfold numFrames
  omega

end Kernel

/-- **A block from the last hole of a heap, grown for it.** -/
theorem WF.alloc_grown {s : HeapState} {l : List Block} {x n size : Nat} {P : Paging} {fresh : Mem}
    (rounds : Nat) (h : WF s (l ++ [⟨true, n⟩])) (hx : x = s.startAddress + extent Block.size l)
    (hsz : size ≤ 4194304) (hother : ∀ b ∈ l, b.hole = true → b.size < size + 8)
    (hfit : n < size + 8 + gapOffset true x)
    (hgrown : size + 8 + gapOffset true x ≤ n + growth (size + 8))
    (h22 : n + growth (size + 8) < 4194304) (hlim : s.endAddress + growth (size + 8) ≤ s.maxAddress)
    (hmax : s.maxAddress < 4294967296)
    (hP : HeapState.expandPages s.startAddress (s.endAddress + growth (size + 8) - s.startAddress)
      s.supervisor s.readonly 0x100001 (s.endAddress - s.startAddress) s.paging = .ok P)
    (hsplit : SplitOk true x (n + growth (size + 8)) (size + 8))
    (hroom : l.length + 2 < 0x20000) :
    ∃ t, s.allocN (rounds + 1) size true fresh = .ok (x + gapSize true x + 4, t) ∧ t.paging = P := by
  obtain ⟨hmem, hn⟩ := h.mem_index hx
  have hbd := h.laid.hole_bounds hmem
  rw [show (header s.mem x).size = n from hn] at hbd
  -- another hole lies in front, and is too small
  have hfront : ∀ y ∈ s.index.items, y ≠ x →
      y < x ∧ (header s.mem y).size < size + 8 := by
    intro y hy hne
    obtain ⟨k, hk⟩ := h.laid.hole_mem hy
    have hyk : (header s.mem y).size = k := congrArg Header.size (h.tags _ hk).header
    have h8 := (h.laid.hole_bounds hy).2.2.1
    rw [place_append, List.mem_append, place_cons, place_nil, List.mem_singleton] at hk
    rcases hk with hk | hk
    · have hb := hother _ (mem_of_mem_place hk) rfl
      have := (place_bounds hk).2
      simp only at hb this
      omega
    · have hyx := (Prod.mk.inj hk).1
      omega
  have hnone : s.findSmallestHole (size + 8) true = none := by
    refine HeapState.findSmallestHole_none.2 fun y hy => ?_
    rw [h.laid.fits_iff hy (by omega)]
    by_cases hyx : y = x
    · rw [hyx, show (header s.mem x).size = n from hn]
      omega
    · have := (hfront y hy hyx).2
      omega
  have hlast : s.lastHole = some x := by
    cases hl : s.lastHole with
    | none =>
      have hnil := HeapState.lastHole_none hl fun y hy => by
        have := (h.laid.hole_bounds hy).1
        omega
      rw [hnil] at hmem
      exact absurd hmem List.not_mem_nil
    | some y =>
      obtain ⟨hy, hall⟩ := HeapState.lastHole_some hl
      by_contra hne
      have := hall x hmem
      have := (hfront y hy fun he => hne (congrArg some he)).1
      omega
  obtain ⟨hgrow, hr, -⟩ := @Laid.grow_onto s _ x n (size + 8) P fresh h.laid h.toTiled.pageBounds
    hlast hn (by omega) h22 hlim hmax hP
  have hf := h.fills
  rw [extent_append, extent_cons, extent_nil] at hf
  have hspace : s.lastSpace = (x, n) := by rw [HeapState.lastSpace, hlast, ← hn]
  obtain ⟨l', hl', -, hwf, hg, -⟩ := h.grow_ok (by omega) hspace
    (by simp only at hf; omega) h22 (by omega) hgrow
  have h0 : n ≠ 0 := by omega
  rw [if_neg h0] at hl'
  obtain ⟨rfl, -⟩ := List.append_inj' hl' rfl
  obtain ⟨t, ht, hrt, -⟩ := hwf.alloc_at rounds fresh hx hsz hgrown hsplit
    (fun b hb hh => hother b (by simpa using hb) hh) (by simpa using hroom)
  refine ⟨t, ?_, hrt.paging.trans rfl⟩
  rw [HeapState.allocN_succ hsz hnone, hgrow, ok_bind, ht]

namespace Kernel

variable {M M' M₁ : Kernel} {rounds n dir src phys : Nat} {fresh : Mem} {T : Nat → Nat}

theorem kallocPa_unused {q : PagePtr} {size p f : Nat} (hsize : 32 * M.paging.frames.size ≤ 0x100000)
    (hbit : M.paging.frames.bit f = true) (hq : (M.paging.page q).frame ≠ f)
    (h : kallocPa rounds fresh size M = .ok (p, phys, M₁)) : (M₁.paging.page q).frame ≠ f := by
  refine ((kallocPa_each (I := fun P => 32 * P.frames.size ≤ 0x100000 ∧ P.frames.bit f = true ∧
    (P.page q).frame ≠ f) (AllocKeeps.kernel ?_) size M ⟨hsize, hbit, hq⟩).ok h).2.2
  rintro P P' r k w ⟨h1, h2, h3⟩ ha
  by_cases h0 : (P.page r).frame = 0
  · obtain ⟨g, -, hlt, hclear, hsz, hbits, hpage⟩ := allocFrame_gives ha h0
    have hgf : g ≠ f := fun he => by
      rw [he, h2] at hclear
      cases hclear
    refine ⟨by rw [hsz]; exact h1, by rw [hbits, h2, Bool.or_true], ?_⟩
    by_cases hr : q = r
    · rw [hr, hpage]
      show g % 0x100000 ≠ f
      rw [Nat.mod_eq_of_lt (by omega)]
      exact hgf
    · rw [allocFrame_page ha hr]
      exact h3
  · rcases allocFrame_cases ha with ⟨-, rfl⟩ | ⟨hz, -⟩
    · exact ⟨h1, h2, h3⟩
    · exact absurd hz h0

theorem KernelMapped.clone_returns (h : KernelMapped T n M) (hs : src ∈ M.liveDirectories)
    (ha : kallocPa rounds fresh sizeofDirectory M = .ok (dir, phys, M₁)) (hne : dir ≠ src)
    (hnk : dir ≠ M.paging.kernelDirectory) :
    ∃ M', clone (kallocPa rounds fresh) src M = .ok (dir, M') := by
  obtain ⟨hs₁, h₁⟩ := h.alloc ha
  have hsrc : src ∈ M₁.liveDirectories := hs₁.liveDirectories.symm ▸ hs
  obtain ⟨M', hc, -⟩ := clone_shared ha (Ne.symm hne) (by rw [hs₁.kernel]; exact Ne.symm hnk)
    fun i hi _ => (h₁.slots _ h₁.kernel i hi).1.trans (h₁.slots src hsrc i hi).1.symm
  exact ⟨M', hc⟩

theorem Initialized.gives_in_order {c : Nat} (h : Initialized n M) (hf : FirstFrames M.paging c)
    (rounds : Nat) (fresh : Mem) : GivesInOrder rounds fresh M := by
  obtain ⟨s, phys, ha, hs, -, -⟩ := HeapAt.alloc rounds fresh
    [⟨false, 40⟩, ⟨true, 4052⟩, ⟨false, 8204⟩] sizeofDirectory true true h.kheap rfl (by decide)
    (by decide) (by decide) (by decide) (by decide) fun _ => by
      rw [h.current]
      exact (h.shared 768 (by decide)).1 ▸ h.held 768 ⟨by decide, by decide⟩
  replace ha : kallocPa rounds fresh sizeofDirectory M =
    .ok (secondClone, phys, M.putHeap .kheap s) := ha
  intro dir phys' M₁ ha'
  cases ha.symm.trans ha'
  have hpage : ∀ v, v < 0x100000 → (M.putHeap .kheap s).currentPage v = M.paging.pageAt v := by
    intro v hv
    unfold currentPage currentSlot slot Paging.pageAt
    rw [hs.paging, h.current, (h.shared (v / 1024) (by omega)).1]
  have hframe : ∀ v, 0xC0081 ≤ v → v < 0xC0100 →
      ((M.putHeap .kheap s).paging.page ((M.putHeap .kheap s).currentPage v)).frame + 0xC0081 =
        c + v := by
    intro v h1 h2
    rw [hpage v (by omega), hs.paging]
    exact hf.kheap v h1 h2
  have h5 := hframe 0xC0085 (by decide) (by decide)
  have h6 := hframe 0xC0086 (by decide) (by decide)
  have hslot : (M.putHeap .kheap s).currentSlot (0xC0086 / 1024) ≠ 0 := by
    have hp : (M.putHeap .kheap s).currentSlot (0xC0086 / 1024) = M.paging.kernelTable 768 :=
      congrArg PagePtr.table (hpage 0xC0086 (by decide))
    rw [hp]
    exact h.held 768 ⟨by decide, by decide⟩
  refine ⟨by decide, ⟨hslot, ?_⟩, ?_⟩
  · show ((M.putHeap .kheap s).paging.page ((M.putHeap .kheap s).currentPage 0xC0086)).frame ≠ 0
    omega
  · show ((M.putHeap .kheap s).paging.page ((M.putHeap .kheap s).currentPage 0xC0086)).frame =
      ((M.putHeap .kheap s).paging.page ((M.putHeap .kheap s).currentPage 0xC0085)).frame + 1
    omega

/-- The kernel heap but for a last hole of one and a half pages. -/
def edgeBlocks : List Block := [⟨false, 40⟩, ⟨true, 4052⟩, ⟨false, 8204⟩, ⟨false, 501752⟩]

theorem Initialized.alloc_edge (h : Initialized n M) (rounds : Nat) (fresh : Mem) :
    ∃ M', perform rounds fresh (.alloc .kheap 501744 false) M = .ok M' ∧ SameKernel M M' ∧
      HeapAt M' .kheap 0xC0081000 kheapEnd (edgeBlocks ++ [⟨true, 6144⟩]) := by
  obtain ⟨s, phys, ha, hs, hk, -⟩ := HeapAt.alloc rounds fresh
    [⟨false, 40⟩, ⟨true, 4052⟩, ⟨false, 8204⟩] 501744 false false h.kheap rfl (by decide)
    (by decide) (by decide) (by decide) (by decide) nofun
  refine ⟨_, ?_, hs, hk⟩
  show (allocInternal rounds fresh .kheap 501744 false false M >>= _) = _
  rw [ha]
  rfl

theorem HeapAt.kallocPa_edge {K k : Nat}
    (h : HeapAt M .kheap 0xC0081000 kheapEnd (edgeBlocks ++ [⟨true, 6144⟩]))
    (hb : Backed M.paging K k) (hk : k + 3 ≤ 32 * M.paging.frames.size) (hheld : Held HeapSlot M)
    (hcur : (M.paging.directories M.paging.currentDirectory).tables 768 ≠ 0) (rounds : Nat)
    (fresh : Mem) : ∃ phys M₁, kallocPa (rounds + 1) fresh sizeofDirectory M =
      .ok (0xC00FF000, phys, M₁) := by
  obtain ⟨g, hg, hlo, hhi, hwf⟩ := h
  have hlo' : (M.heapState g).startAddress = 0xC0081000 := hlo
  have hmax : (M.heapState g).maxAddress = kheapEnd := hhi
  have hend : (M.heapState g).endAddress = 0xC0100000 := by
    rw [← hwf.fills, hlo']
    rfl
  have hgr : growth (sizeofDirectory + 8) = 12288 := rfl
  obtain ⟨P, hP, hs, -⟩ := @HeapState.expandPages_returns 0xC0081000 532480 g.supervisor g.readonly
    (by decide) (by decide) 3 0x100001 520192 M.paging K k hb hk rfl
    (fun a h1 h2 => hheld _ ⟨by omega, by omega⟩) (by decide)
  obtain ⟨t, ht, htp⟩ := @WF.alloc_grown (M.heapState g) edgeBlocks 0xC00FE800 6144 sizeofDirectory
    P fresh rounds hwf (by rw [hlo']; rfl) (by decide) (by decide) (by decide) (by decide)
    (by decide) (by rw [hend, hgr, hmax]; decide) (by rw [hmax]; decide)
    (by rw [hend, hgr, hlo']; exact hP) (by decide) (by decide)
  have hput : (M.putHeap .kheap t).paging = P := htp
  obtain ⟨phys, ha⟩ := allocInternal_heap true hg ht fun _ => getPhysicalAddress_ok (by
    rw [hput, hs.directories, hs.current]
    exact hcur)
  exact ⟨phys, _, ha⟩

end Kernel

end Dmanix
