import Dmanix.Memory.Proof.Initialized
import Dmanix.Memory.Calls
import Dmanix.Memory.Proof.Shared

/-!
# Kernel mappings are coherent

`Coherent M`: every directory names, in each slot where `kernel_directory` has a table, that table
with the same physical entry, and both heaps' address ranges have tables. `Directory::Clone`,
`AllocateRange`, `MoveStack` and the heaps' calls keep it (`perform_coherent`), as long as a clone
does not get the memory of the directory it copies or of `kernel_directory`; so `Expand` and
`Contract` never make a table, and what they do to a page they do in every directory
(`coherent_run`).
-/

namespace Dmanix

open Word32 Bytes Outcome Machine Paging

namespace Kernel

/-- The directory at `d` has the kernel's table in slot `i`, if there is one. -/
def Agrees (M : Kernel) (d i : Nat) : Prop :=
  M.kernelSlot i ≠ 0 → M.slot d i = M.kernelSlot i ∧
    (M.paging.directories d).physical i =
      (M.paging.directories M.paging.kernelDirectory).physical i

/-- Both heaps exist, within their limits. -/
def HeapsWithin (M : Kernel) : Prop :=
  ∀ name, ∃ h, M.allocator.heap name = some h ∧ Limits (heapFirst name) (heapMax name) h

/-- The invariant, but for the slots `skip` of directories. -/
structure CoherentBut (skip : Nat → Nat → Prop) (M : Kernel) : Prop where
  current : M.paging.currentDirectory ∈ M.liveDirectories
  user : M.paging.currentDirectory ≠ M.paging.kernelDirectory
  agrees : ∀ d ∈ M.liveDirectories, ∀ i < arraySize, ¬ skip d i → M.Agrees d i
  held : Held HeapSlot M
  heaps : HeapsWithin M

/-- **The invariant** (module doc). -/
abbrev Coherent (M : Kernel) : Prop := CoherentBut (fun _ _ => False) M

/-- The same directories. -/
structure SameSlots (M M' : Kernel) : Prop where
  directories : M'.paging.directories = M.paging.directories
  kernel : M'.paging.kernelDirectory = M.paging.kernelDirectory
  current : M'.paging.currentDirectory = M.paging.currentDirectory
  liveDirectories : M'.liveDirectories = M.liveDirectories

theorem SameSlots.refl (M : Kernel) : SameSlots M M := ⟨rfl, rfl, rfl, rfl⟩

theorem SameSlots.trans {M M' M'' : Kernel} (h : SameSlots M M') (h' : SameSlots M' M'') :
    SameSlots M M'' :=
  ⟨h'.directories.trans h.directories, h'.kernel.trans h.kernel, h'.current.trans h.current,
    h'.liveDirectories.trans h.liveDirectories⟩

theorem SameSlots.of_paging {M M' : Kernel} (h : SameTables M.paging M'.paging)
    (hl : M'.liveDirectories = M.liveDirectories) : SameSlots M M' :=
  ⟨h.directories, h.kernel, h.current, hl⟩

variable {M M' : Kernel} {rounds : Nat} {fresh : Mem} {name : HeapName} {dir src : Nat}
  {skip skip' : Nat → Nat → Prop}

theorem CoherentBut.same (h : CoherentBut skip M) (hs : SameSlots M M')
    (hh : HeapsWithin M') : CoherentBut skip M' := by
  obtain ⟨h1, h2, h3, h4, -⟩ := h
  refine ⟨?_, ?_, ?_, ?_, hh⟩
  · rw [hs.current, hs.liveDirectories]
    exact h1
  · rw [hs.current, hs.kernel]
    exact h2
  · simpa only [Agrees, kernelSlot, slot, hs.directories, hs.kernel, hs.liveDirectories] using h3
  · simpa only [Held, kernelTable, hs.directories, hs.kernel] using h4

/-! ## The heaps -/

theorem heapMax_le (name : HeapName) : heapMax name ≤ 0xE0000000 := by
  cases name <;> decide

/-- The pages of a heap have tables, and giving or taking a frame there keeps the directories. -/
theorem grows_of_held (h : Held HeapSlot M) (name : HeapName) :
    Grows (SameTables M.paging) (heapFirst name) (heapMax name) ∧
    Shrinks (SameTables M.paging) (heapFirst name) (heapMax name) := by
  refine ⟨⟨fun {P a} hP h1 h2 => ?_, fun hP _ _ ha => hP.trans (allocFrame_same ha)⟩,
    fun hP _ _ hf => hP.trans (freeFrame_same hf)⟩
  rw [hP.kernelTable]
  have hlo : 0xC0000000 ≤ heapFirst name := by cases name <;> decide
  have hhi := heapMax_le name
  exact h _ ⟨by omega, by omega⟩

theorem HeapsWithin.put {s : HeapState} (h : HeapsWithin M)
    (hs : Limits (heapFirst name) (heapMax name) s.toHeap) : HeapsWithin (M.putHeap name s) := by
  intro n
  by_cases hn : n = name
  · subst hn
    exact ⟨s.toHeap, if_pos rfl, hs⟩
  · obtain ⟨g, hg, hl⟩ := h n
    exact ⟨g, (if_neg hn).trans hg, hl⟩

theorem halted_ok {α : Type} {x : Except Fault α} {a : α} : halted x = .ok a ↔ x = .ok a := by
  cases x with
  | ok b => simp [halted, Except.mapError]
  | error e => simp [halted, Except.mapError]

theorem halted_runs {α : Type} {x : Except Fault α} {Q : α → Prop} (h : HeapRuns x Q) :
    Runs (halted x) Q := by
  cases x with
  | ok a => exact .pure (h.ok rfl)
  | error e => exact .stop (h.error rfl)

theorem getPage_runs {P : Paging} {a : Nat} : Runs (P.getPage dir a false) fun _ => True := by
  unfold Paging.getPage
  dsimp only
  split
  · exact .stop nofun
  · exact .pure trivial

/-- **`alloc_internal`**: the allocator is not entered again, and the directories stay. -/
theorem allocInternal_coherent {size : Nat} {pageAlign phys : Bool} (h : CoherentBut skip M) :
    Runs (allocInternal rounds fresh name size pageAlign phys M) fun r =>
      SameSlots M r.2.2 ∧ CoherentBut skip r.2.2 := by
  obtain ⟨g, hg, hl⟩ := h.heaps name
  obtain ⟨hgrow, -⟩ := grows_of_held h.held name
  unfold allocInternal
  rw [hg]
  refine (halted_runs (HeapState.allocN_pages hgrow (heapMax_le name) rounds hl (.refl _))).bind
    fun r hr => ?_
  have hs : SameSlots M (M.putHeap name r.2) := .of_paging hr.2 rfl
  have hc : CoherentBut skip (M.putHeap name r.2) := h.same hs (h.heaps.put hr.1)
  cases phys with
  | false => exact .pure ⟨hs, hc⟩
  | true =>
    have hp : Runs ((M.putHeap name r.2).getPhysicalAddress r.1) fun _ => True :=
      getPage_runs.bind fun _ _ => .pure trivial
    exact hp.bind fun _ _ => .pure ⟨hs, hc⟩

/-- **`free_internal`**, the same. -/
theorem freeInternal_coherent {p : Nat} (h : CoherentBut skip M) :
    Runs (freeInternal name p M) fun M' => SameSlots M M' ∧ CoherentBut skip M' := by
  obtain ⟨g, hg, hl⟩ := h.heaps name
  obtain ⟨hgrow, hshrink⟩ := grows_of_held h.held name
  unfold freeInternal
  rw [hg]
  dsimp only
  split
  · refine (halted_runs (HeapState.free_pages hgrow hshrink (heapMax_le name) p hl
      (.refl _))).bind fun s hs => .pure ?_
    have hsame : SameSlots M (M.putHeap name s) := .of_paging hs.2 rfl
    exact ⟨hsame, h.same hsame (h.heaps.put hs.1)⟩
  · exact .pure ⟨.refl M, h⟩

/-! ## Pages -/

/-- A slot that takes a table where the kernel has none, or the kernel's own. -/
theorem CoherentBut.setTable {i table entry : Nat} (h : CoherentBut skip M)
    (hd : dir ≠ M.paging.kernelDirectory)
    (hset : M.kernelSlot i ≠ 0 → table = M.kernelSlot i ∧
      entry = (M.paging.directories M.paging.kernelDirectory).physical i)
    (hskip : ∀ d j, skip d j → skip' d j ∨ d = dir ∧ j = i) :
    CoherentBut skip' (M.withPaging (M.paging.setTable dir i table entry)) := by
  have hker : ∀ j, (M.withPaging (M.paging.setTable dir i table entry)).kernelSlot j =
      M.kernelSlot j := fun j => slot_setTable_other fun hc => hd hc.1.symm
  have hphys : ∀ d j, ((M.withPaging (M.paging.setTable dir i table entry)).paging.directories
      d).physical j = if d = dir ∧ j = i then entry else (M.paging.directories d).physical j :=
    fun d j => by
      simp only [withPaging, Paging.setTable, Paging.setDirectory, Function.update_apply]
      by_cases hds : d = dir
      · subst hds
        by_cases hj : j = i <;> simp [hj]
      · simp [hds]
  refine ⟨h.current, h.user, fun d hdl j hj hsk hne => ?_, fun s hs => ?_, h.heaps⟩
  · rw [hker] at hne ⊢
    have hkd : (M.withPaging (M.paging.setTable dir i table entry)).paging.kernelDirectory =
        M.paging.kernelDirectory := rfl
    rw [slot_setTable, hphys, hphys, hkd,
      if_neg (show ¬ (M.paging.kernelDirectory = dir ∧ j = i) from fun hc => hd hc.1.symm)]
    by_cases hc : d = dir ∧ j = i
    · rw [if_pos hc, if_pos hc, hc.2]
      exact hset (hc.2 ▸ hne)
    · rw [if_neg hc, if_neg hc]
      exact h.agrees d hdl j hj (fun hs => (hskip d j hs).elim hsk hc) hne
  · show (M.withPaging (M.paging.setTable dir i table entry)).kernelSlot s ≠ 0
    rw [hker]
    exact h.held s hs

/-- **`GetPage`** on a directory other than `kernel_directory` makes a table only where the kernel
has none. -/
theorem makeTable_coherent {i : Nat} (h : Coherent M) (hd : dir ∈ M.liveDirectories)
    (hk : dir ≠ M.paging.kernelDirectory) (hi : i < arraySize) :
    Runs (makeTable (kallocPa rounds fresh) dir i M) Coherent := by
  unfold makeTable
  split
  · rename_i h0
    refine (allocInternal_coherent h).bind fun r ⟨hs, hr⟩ => .pure ?_
    have hnew : Coherent (r.2.2.newTable r.1) := hr.same ⟨rfl, rfl, rfl, rfl⟩ hr.heaps
    refine hnew.setTable ?_ (fun hne => ?_) fun _ _ => False.elim
    · show dir ≠ r.2.2.paging.kernelDirectory
      rw [hs.kernel]
      exact hk
    · -- the slot would be the kernel's
      replace hne : M.kernelSlot i ≠ 0 := by
        have : (r.2.2.newTable r.1).kernelSlot i = M.kernelSlot i := by
          show (r.2.2.paging.directories r.2.2.paging.kernelDirectory).tables i = _
          rw [hs.directories, hs.kernel]
          rfl
        rwa [this] at hne
      exact absurd ((h.agrees dir hd i hi id hne).1.symm.trans h0) hne
  · exact .pure h

theorem allocPage_coherent {w : Bool} {a : Nat} (h : Coherent M) (hd : dir ∈ M.liveDirectories)
    (hk : dir ≠ M.paging.kernelDirectory) (ha : a < 4294967296) :
    Runs (allocPage (kallocPa rounds fresh) dir w a M) Coherent := by
  have heq : allocPage (kallocPa rounds fresh) dir w a M = (do
      let M₁ ← makeTable (kallocPa rounds fresh) dir (a / 0x1000 / 1024) M
      let page ← M₁.paging.getPage dir a false
      let P ← M₁.paging.allocFrame page false w
      return M₁.withPaging P) := by
    simp only [allocPage, Machine.getPage, bind_assoc, pure_bind]
  rw [heq]
  refine (makeTable_coherent h hd hk (show _ < 1024 by omega)).bind fun M₁ h₁ => ?_
  refine getPage_runs.bind fun q _ => ?_
  refine (allocFrame_runs _ q _ _).bind fun P hP => .pure ?_
  exact h₁.same (.of_paging (allocFrame_same hP) rfl) h₁.heaps

theorem pageLoop_coherent {test : Nat → Kernel → Bool} {next : Nat → Nat} {first : Nat}
    (hnext : ∀ i, next i < 4294967296) (hfirst : first < 4294967296) (h : Coherent M) :
    Runs (loop .hang test next
      (fun i M => allocPage (kallocPa rounds fresh) M.paging.currentDirectory true i M) rounds
      first M) Coherent := by
  have hloop := @loop_meets _ _ (· ≠ Halt.reentry) .hang test next
    (fun i (M : Kernel) => allocPage (kallocPa rounds fresh) M.paging.currentDirectory true i M)
    (fun i M => i < 4294967296 ∧ Coherent M) (by simp) (fun i M ⟨hi, hM⟩ _ =>
      (allocPage_coherent hM hM.current hM.user hi).imp fun _ hM' => ⟨hnext i, hM'⟩)
  exact (hloop rounds first M ⟨hfirst, h⟩).imp fun _ ⟨_, hM, _⟩ => hM.2

/-! ## Clone -/

theorem tableClone_coherent {t : Nat} (h : CoherentBut skip M) :
    Runs (tableClone (kallocPa rounds fresh) t M) fun r =>
      SameSlots M r.2.2 ∧ CoherentBut skip r.2.2 := by
  refine (allocInternal_coherent h).bind fun r ⟨hs, hr⟩ => ?_
  have hnew : SameSlots M (r.2.2.newTable r.1) := hs.trans ⟨rfl, rfl, rfl, rfl⟩
  have hloop := @upTo_meets _ _ (· ≠ Halt.reentry) (cloneEntry t r.1)
    (fun _ M' => SameSlots M M' ∧ CoherentBut skip M') arraySize (r.2.2.newTable r.1)
    ⟨hnew, hr.same ⟨rfl, rfl, rfl, rfl⟩ hr.heaps⟩ fun i M₁ _ ⟨h₁, h₂⟩ => by
      unfold cloneEntry
      dsimp only
      split
      · exact .pure ⟨h₁, h₂⟩
      · refine (allocFrame_runs _ _ _ _).bind fun P hP => .pure ?_
        have hsame := allocFrame_same hP
        refine ⟨h₁.trans ?_, h₂.same ?_ h₂.heaps⟩ <;>
          exact ⟨hsame.directories, hsame.kernel, hsame.current, rfl⟩
  exact hloop.bind fun M₁ h₁ => .pure h₁

/-- The slots of the new directory from `n` on are not filled yet. -/
structure Filling (src dir n : Nat) (M : Kernel) : Prop where
  coherent : CoherentBut (fun d j => d = dir ∧ n ≤ j) M
  source : src ∈ M.liveDirectories
  apart : dir ≠ src
  notKernel : dir ≠ M.paging.kernelDirectory

/-- **One slot of `Directory::Clone`**: the kernel's table where the kernel has one. -/
theorem cloneTable_coherent {i : Nat} (h : Filling src dir i M) (hi : i < arraySize) :
    Runs (cloneTable (kallocPa rounds fresh) src dir i M) (Filling src dir (i + 1)) := by
  obtain ⟨hc, hs, ha, hk⟩ := h
  have hsrc := hc.agrees src hs i hi fun hd => ha hd.1.symm
  have hskip : ∀ d j, d = dir ∧ i ≤ j → d = dir ∧ i + 1 ≤ j ∨ d = dir ∧ j = i :=
    fun d j h => by omega
  unfold cloneTable
  dsimp only
  split
  · -- an empty slot: the kernel's is empty too
    rename_i h0
    refine .pure ⟨⟨hc.current, hc.user, fun d hd j hj hsk => ?_, hc.held, hc.heaps⟩, hs, ha, hk⟩
    by_cases hdj : d = dir ∧ j = i
    · obtain ⟨rfl, rfl⟩ := hdj
      exact fun hne => absurd ((hsrc hne).1.symm.trans h0) hne
    · exact hc.agrees d hd j hj fun hd => hsk (by omega)
  · rename_i h0
    split
    · rename_i heq
      refine .pure ⟨hc.setTable hk (fun hne => ?_) hskip, hs, ha, hk⟩
      exact ⟨heq.symm, (hsrc hne).2⟩
    · rename_i hneq
      refine (tableClone_coherent hc).bind fun r ⟨hr, hcr⟩ => .pure ?_
      have hk' : dir ≠ r.2.2.paging.kernelDirectory := by
        rw [hr.kernel]
        exact hk
      refine ⟨hcr.setTable hk' (fun hne => ?_) hskip, ?_, ha, hk'⟩
      · replace hne : M.kernelSlot i ≠ 0 := by
          have : r.2.2.kernelSlot i = M.kernelSlot i := by
            rw [kernelSlot, slot, hr.directories, hr.kernel]
            rfl
          rwa [this] at hne
        exact absurd (hsrc hne).1.symm hneq
      · show src ∈ r.2.2.liveDirectories
        rw [hr.liveDirectories]
        exact hs

theorem newClone_filling {phys : Nat} (h : Coherent M) (hs : src ∈ M.liveDirectories)
    (ha : dir ≠ src) (hk : dir ≠ M.paging.kernelDirectory) :
    Filling src dir 0 (M.newClone dir phys) := by
  have hc := cloned_newClone M src dir phys
  have hmem : ∀ d ∈ M.liveDirectories, d ∈ (M.newClone dir phys).liveDirectories := fun d hd => by
    rw [hc.liveDirectories]
    exact List.mem_cons_of_mem _ hd
  have hkd : (M.newClone dir phys).paging.directories (M.newClone dir phys).paging.kernelDirectory =
      M.paging.directories M.paging.kernelDirectory := by
    rw [hc.kernel, hc.others _ (Ne.symm hk)]
  refine ⟨⟨?_, ?_, fun d hd i hi hsk => ?_, fun s hs => ?_, fun name => ?_⟩, hmem src hs, ha, ?_⟩
  · rw [hc.current]
    exact hmem _ h.current
  · rw [hc.current, hc.kernel]
    exact h.user
  · have hdd : d ≠ dir := fun he => hsk ⟨he, Nat.zero_le i⟩
    have hdl : d ∈ M.liveDirectories := by
      rw [hc.liveDirectories] at hd
      exact (List.mem_cons.1 hd).resolve_left hdd
    have := h.agrees d hdl i hi id
    unfold Agrees kernelSlot slot at this ⊢
    rwa [hkd, hc.others d hdd]
  · have := h.held s hs
    unfold kernelTable at this ⊢
    rwa [hkd]
  · rw [hc.allocator]
    exact h.heaps name
  · rw [hc.kernel]
    exact hk

/-- `kalloc_pa` does not give `Directory::Clone` the memory of the directory to copy or of
`kernel_directory`. -/
def GivesOther (rounds : Nat) (fresh : Mem) (src : Nat) (M : Kernel) : Prop :=
  ∀ r, kallocPa rounds fresh sizeofDirectory M = .ok r →
    r.1 ≠ src ∧ r.1 ≠ M.paging.kernelDirectory

/-- **`Directory::Clone`.** -/
theorem clone_coherent (h : Coherent M) (hs : src ∈ M.liveDirectories)
    (hg : GivesOther rounds fresh src M) :
    Runs (clone (kallocPa rounds fresh) src M) fun r => Coherent r.2 := by
  have hgive : Runs (kallocPa rounds fresh sizeofDirectory M) fun r =>
      (SameSlots M r.2.2 ∧ Coherent r.2.2) ∧ r.1 ≠ src ∧ r.1 ≠ M.paging.kernelDirectory :=
    have hc := allocInternal_coherent h
    ⟨fun hx => ⟨hc.ok hx, hg _ hx⟩, fun hx => hc.error hx⟩
  refine hgive.bind fun r ⟨⟨hs', hc⟩, hne, hnk⟩ => ?_
  have hfill : Filling src r.1 0 (r.2.2.newClone r.1 r.2.1) :=
    newClone_filling hc (hs'.liveDirectories.symm ▸ hs) hne (hs'.kernel.symm ▸ hnk)
  have hloop := @upTo_meets _ _ (· ≠ Halt.reentry) (cloneTable (kallocPa rounds fresh) src r.1)
    (Filling src r.1) arraySize _ hfill fun i M hi hM => cloneTable_coherent hM hi
  refine hloop.bind fun M₁ h₁ => .pure ?_
  obtain ⟨h1, h2, h3, h4, h5⟩ := h₁.coherent
  exact ⟨h1, h2, fun d hd i hi _ => h3 d hd i hi (by omega), h4, h5⟩

/-! ## Calls -/

/-- The guard: a clone gets memory of its own. -/
def ClonesApart (M : Kernel) (p : Performed) : Prop :=
  ∀ src, p.call = .clone src → GivesOther p.rounds p.fresh src M

/-- **Every call keeps the invariant**, and none enters the allocator again. -/
theorem perform_coherent {p : Performed} (h : Coherent M) (ha : Allowed M p.call)
    (hg : ClonesApart M p) : Runs (perform p.rounds p.fresh p.call M) Coherent := by
  obtain ⟨rounds, fresh, c⟩ := p
  cases c with
  | clone src => exact (clone_coherent h ha (hg src rfl)).bind fun _ hr => .pure hr
  | allocateRange address size =>
    have hlt : pageBits address < 4294967296 :=
      Nat.lt_of_le_of_lt Nat.and_le_right (by decide)
    exact pageLoop_coherent (fun i => add32_lt i _) hlt h
  | moveStack newStack size => exact pageLoop_coherent (fun i => sub32_lt i _) ha h
  | alloc name size pageAlign => exact (allocInternal_coherent h).bind fun _ hr => .pure hr.2
  | free name p => exact (freeInternal_coherent h).imp fun _ h => h.2
  | switch dir =>
    obtain ⟨-, -, h3, h4, h5⟩ := h
    exact .pure ⟨ha.1, ha.2, h3, h4, h5⟩

/-! ## Runs -/

/-- A state `memory::Initialize` leaves, with all memory given before the heap below it. -/
def Started (M : Kernel) : Prop :=
  ∃ rounds fresh memEnd M₀, Start M₀ ∧ memoryInitialize rounds fresh memEnd M₀ = .ok M ∧ Below M

theorem HeapAt.within {lo hi : Nat} {bs : List Block} (h : HeapAt M name lo hi bs)
    (hlo : lo = heapFirst name) (hhi : hi = heapMax name)
    (hleast : 0x70000 ≤ Tiling.extent Block.size bs)
    (hmost : lo + Tiling.extent Block.size bs ≤ hi) :
    ∃ g, M.allocator.heap name = some g ∧ Limits (heapFirst name) (heapMax name) g := by
  obtain ⟨g, hg, h1, h2, hwf⟩ := h
  have hf : g.startAddress + Tiling.extent Block.size bs = g.endAddress := hwf.fills
  exact ⟨g, hg, h1.trans hlo, h2.trans hhi, by omega, by omega⟩

theorem Initialized.coherent {n : Nat} (h : Initialized n M) : Coherent M := by
  refine ⟨?_, ?_, fun d hd i hi _ hne => ?_, h.held, fun name => ?_⟩
  · rw [h.directories, h.current]
    exact List.mem_cons_self
  · have := h.kernel
    rw [kheapStart_eq] at this
    rw [h.current, firstClone]
    omega
  · have hk : M.paging.kernelDirectory ∈ M.liveDirectories := by
      rw [h.directories]
      simp
    obtain ⟨h1, h2⟩ := h.shares hd hi hne
    exact ⟨h1, h2.trans (h.shares hk hi hne).2.symm⟩
  · cases name with
    | kheap => exact h.kheap.within rfl rfl (by decide) (by decide)
    | uheap => exact h.uheap.within rfl rfl (by decide) (by decide)

end Kernel

end Dmanix
