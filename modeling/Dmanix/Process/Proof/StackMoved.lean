import Dmanix.Memory.Proof.Range
import Dmanix.Process.MoveStack

/-!
# The call chain moves with the stack

The page loop of `MoveStack` leaves a page at every address of the new region (`moveStack_paged`), so
the copy and the scan do not fault and `MoveStack` returns where its page loop does
(`moveStack_returns`). Whenever it returns, the chain of frames has moved (`chain_moves`).
-/

namespace Dmanix

open Word32 Bytes Outcome Machine Tiling

namespace Machine

variable {σ : Type}

/-- Page `n` of the current directory is present. -/
def HasPage (M : Machine σ) (n : Nat) : Prop :=
  M.currentSlot (n / 1024) ≠ 0 ∧ (M.paging.page (M.currentPage n)).present = true

/-- Pages of the current directory that have a frame are present. -/
def SoundPages (M : Machine σ) : Prop :=
  ∀ n < 0x100000, M.currentSlot (n / 1024) ≠ 0 → (M.paging.page (M.currentPage n)).Sound

theorem HasPage.resolve {M : Machine σ} {a : Nat} (h : M.HasPage (a / 0x1000)) :
    ∃ p, M.resolve a = .ok p := by
  unfold Machine.resolve
  exact ⟨_, if_pos h⟩

end Machine

namespace Kernel

variable {M t u : Kernel} {rounds i lo hi newStack size : Nat} {fresh : Mem} {q : PagePtr}
  {made : List (Nat × Nat)} {held : HeapName → List (Nat × Nat)}

/-! ## One round -/

/-- A page of the current directory, where `GetPage` makes a table for another slot. -/
theorem MadeTable.currentPage {s p v : Nat} (h : MadeTable t t.paging.currentDirectory s p u)
    (hv : v / 1024 ≠ s) : u.currentSlot (v / 1024) = t.currentSlot (v / 1024) ∧
      u.currentPage v = t.currentPage v := by
  have hslot : u.currentSlot (v / 1024) = t.currentSlot (v / 1024) := by
    unfold currentSlot
    rw [h.slots, h.current, if_neg fun hc => hv hc.2]
  exact ⟨hslot, by rw [Machine.currentPage, hslot]; rfl⟩

theorem getPage_paged (hap : t.currentSlot (i / 0x1000 / 1024) = 0 → MakesApart rounds fresh t)
    (h : getPage (kallocPa rounds fresh) t.paging.currentDirectory i t = .ok (q, u)) :
    (∀ v < 0x100000, t.HasPage v → u.HasPage v) ∧ (SoundPages t → SoundPages u) := by
  obtain ⟨M₁, hm, h⟩ := bind_ok.1 h
  obtain ⟨q', -, h⟩ := bind_ok.1 h
  cases h
  rcases makeTable_cases hm with ⟨-, rfl⟩ | ⟨h0, p, phys, M₂, ha, hmade⟩
  · exact ⟨fun _ _ hv => hv, id⟩
  · have hp : ∀ v < 0x100000, t.currentSlot (v / 1024) ≠ p := fun v hv =>
      (hap h0 p phys M₂ ha (v / 1024) (show _ < 1024 by omega)).1
    constructor
    · intro v hv hpage
      have hvi : v / 1024 ≠ i / 0x1000 / 1024 := fun he => hpage.1 (he.symm ▸ h0)
      obtain ⟨hslot, hcur⟩ := hmade.currentPage hvi
      refine ⟨hslot.symm ▸ hpage.1, ?_⟩
      rw [hcur]
      exact (hmade.present _ (hp v hv)).1 hpage.2
    · intro hsound v hv hne
      by_cases hvi : v / 1024 = i / 0x1000 / 1024
      · -- the entries of the new table have no frames
        have hslot : u.currentSlot (v / 1024) = p := by
          unfold currentSlot
          rw [hmade.slots, hmade.current, if_pos ⟨rfl, hvi⟩]
        intro hf
        rw [currentPage, hslot, hmade.zero] at hf
        exact absurd rfl hf
      · obtain ⟨hslot, hcur⟩ := hmade.currentPage hvi
        rw [hcur]
        exact (hmade.present _ (hp v hv)).2 (hsound v hv (hslot ▸ hne))

/-- **One round**: the page is present then, and the others stay so. -/
theorem allocPage_paged (hap : t.currentSlot (i / 0x1000 / 1024) = 0 → MakesApart rounds fresh t)
    (hi : i < 4294967296) (hsound : SoundPages t)
    (h : allocPage (kallocPa rounds fresh) t.paging.currentDirectory true i t = .ok u) :
    (∀ v < 0x100000, t.HasPage v → u.HasPage v) ∧ SoundPages u ∧ u.HasPage (i / 0x1000) := by
  obtain ⟨⟨q, t₁⟩, hg, h⟩ := bind_ok.1 h
  obtain ⟨P, hP, h⟩ := bind_ok.1 h
  cases h
  have hf := getPage_found hap hg
  obtain ⟨hkept, hsound'⟩ := getPage_paged hap hg
  have hs := Paging.allocFrame_same hP
  have hslot := currentSlot_withPaging hs
  have hpage := currentPage_withPaging hs
  -- what `AllocFrame` does to an entry
  have hentry : ∀ r : PagePtr, P.page r = t₁.paging.page r ∨ (P.page r).present = true := fun r => by
    rcases Paging.allocFrame_cases hP with ⟨-, rfl⟩ | ⟨-, f, b, -, -, rfl⟩
    · exact .inl rfl
    · by_cases hr : r = q
      · subst hr
        exact .inr (by rw [Paging.page_setPage_self])
      · exact .inl (Paging.page_setPage_ne _ hr)
  have hS : SoundPages (t₁.withPaging P) := fun v hv hne => by
    rw [hslot] at hne
    rw [hpage]
    show (P.page _).Sound
    rcases hentry (t₁.currentPage v) with he | he
    · rw [he]
      exact hsound' hsound v hv hne
    · exact fun _ => he
  refine ⟨fun v hv h => ?_, hS, ?_⟩
  · obtain ⟨h1, h2⟩ := hkept v hv h
    refine ⟨(hslot _).symm ▸ h1, ?_⟩
    rw [hpage]
    rcases hentry (t₁.currentPage v) with he | he
    · exact (congrArg Page.present he).trans h2
    · exact he
  · refine ⟨(hslot _).symm ▸ hf.made, ?_⟩
    rw [hpage, ← hf.entry]
    show (P.page q).present = true
    rcases Paging.allocFrame_cases hP with ⟨h0, rfl⟩ | ⟨-, f, b, -, -, rfl⟩
    · have := hsound' hsound (i / 0x1000) (by omega) hf.made
      rw [← hf.entry] at this
      exact this h0
    · rw [Paging.page_setPage_self]

/-! ## The loop -/

/-- **The page loop**: pages stay present, and those of the region are present then. -/
theorem moveStack_paged {k : Nat} (hn : newStack < 4294967296) (hsize : size ≤ newStack)
    (hplace : size % 0x1000 ≤ newStack % 0x1000) (hH : Housed made held M)
    (hs : M.Serves .kheap (M.requests (.moveStack newStack size) .kheap)) (hsound : SoundPages M)
    (h : moveStack (kallocPa rounds fresh) k newStack size M = .ok u) :
    (∀ v < 0x100000, M.HasPage v → u.HasPage v) ∧
      ∀ v, (newStack - size) / 0x1000 ≤ v → v ≤ newStack / 0x1000 → u.HasPage v := by
  have hround := moveStack_rounds hn h
  have hbottom : sub32 newStack size = newStack - size := sub32_eq hsize hn
  have hE : Extending (fun _ _ => True) held (slotsOf (sub32 newStack size) newStack) M :=
    ⟨⟨made, hH⟩, hs⟩
  unfold moveStack at h
  rw [hbottom] at h hround hE
  have hloop := loop_ok (I := fun j t => j ≤ newStack ∧
    j % 0x1000 = newStack % 0x1000 ∧
    Extending (fun _ _ => True) held (slotsOf (newStack - size) newStack) t ∧ SoundPages t ∧
    (∀ v < 0x100000, M.HasPage v → t.HasPage v) ∧
    ∀ v, j / 0x1000 < v → v ≤ newStack / 0x1000 → t.HasPage v) h
    ⟨Nat.le_refl _, rfl, hE, hsound, fun _ _ hv => hv, fun v h1 h2 => absurd h2 (by omega)⟩ ?_
  · obtain ⟨j, ⟨hj, hm, -, -, hkept, hcov⟩, hend⟩ := hloop
    have hlt : j < newStack - size := Nat.lt_of_not_le (of_decide_eq_false hend)
    exact ⟨hkept, fun v h1 h2 => hcov v (by omega) h2⟩
  · rintro j t u he ⟨hj, hm, ht, hS, hkept, hcov⟩ hb
    have hle : newStack - size ≤ j := of_decide_eq_true he.test_eq
    have hsub : sub32 j 0x1000 = j - 0x1000 := sub32_eq (by omega) (by omega)
    have hslot : j / 0x1000 / 1024 ∈ slotsOf (newStack - size) newStack :=
      mem_slotsOf.2 ⟨show _ < 1024 by omega, by omega, by omega⟩
    obtain ⟨hkept', hS', hpage⟩ := allocPage_paged (ht.makesApart hslot) (by omega) hS hb
    rw [hsub]
    refine ⟨by omega, by omega, allocPage_extending built_true ht (by omega) hslot hb, hS',
      fun v hv h => hkept' v hv (hkept v hv h), fun v h1 h2 => ?_⟩
    by_cases hv : j / 0x1000 < v
    · exact hkept' v (by omega) (hcov v hv h2)
    · rwa [show v = j / 0x1000 by omega]

end Kernel

namespace MoveStack

open Kernel

variable {newStack size stack esp ebp : Nat} {M M₁ : Kernel} {m : Mem} {made : List (Nat × Nat)}
  {held : HeapName → List (Nat × Nat)}

/-- The loops, which go down by pages and by words, touch the same pages. -/
structure Placed (newStack size : Nat) : Prop where
  bottom : size % 0x1000 ≤ newStack % 0x1000
  top : newStack % 0x1000 ≤ 0xFFC

/-- `MoveStack` is called in order after `memory::Initialize`, on a stack with pages. -/
structure Called (newStack size stack esp : Nat) (M : Kernel) : Prop where
  run : ∃ c₀ c : Callers, c₀.Started ∧ Guarded.Run Callers.Step Callers.CallOk c₀ c ∧ c.kernel = M
  ok : M.CallOk (.moveStack newStack size)
  sound : SoundPages M
  old : ∀ v, esp / 0x1000 ≤ v → v * 0x1000 < stack → M.HasPage v

/-- **`MoveStack` returns** where its page loop does: no access faults. -/
theorem moveStack_returns (h : Stacks newStack size stack esp) (hesp : 0 < esp)
    (hplace : Placed newStack size) (hc : Called newStack size stack esp M) {rounds : Nat} {fresh : Mem}
    (hpages : M.moveStack (kallocPa rounds fresh) rounds newStack size = .ok M₁) :
    ∃ words r, moveStack rounds fresh words newStack size stack esp ebp M m = .ok r := by
  obtain ⟨⟨c₀, c, h₀, hr, rfl⟩, hok, hsound, hold⟩ := hc
  obtain ⟨-, made, hH⟩ : c.Kept fun _ _ => True :=
    hr.invariant h₀.kept fun _ _ _ hI hok hs => hI.step built_true hok hs
  obtain ⟨hkept, hregion⟩ := moveStack_paged h.newStack_lt h.size_le hplace.bottom hH (hok.serves .kheap)
    hsound hpages
  have hround := moveStack_rounds h.newStack_lt hpages
  rw [sub32_eq h.size_le h.newStack_lt] at hround
  have hmoved := h.moved (Nat.le_refl esp) h.esp_le
  have hdepth := sub32_eq h.esp_le h.stack_lt
  obtain ⟨h1, h2, h3, h4, h5, h6, h7⟩ := id h
  obtain ⟨hb, ht⟩ := hplace
  -- every byte of both stacks has a page
  have hold' : ∀ a, esp ≤ a → a < stack → ∃ p, M₁.resolve a = .ok p := fun a ha1 ha2 =>
    (hkept _ (by omega) (hold (a / 0x1000) (by omega) (by omega))).resolve
  have hnew : ∀ a, newStack - size ≤ a → a < newStack + 4 → ∃ p, M₁.resolve a = .ok p :=
    fun a ha1 ha2 => (hregion (a / 0x1000) (by omega) (by omega)).resolve
  have hcopy : copy8 M₁ (add32 esp (sub32 newStack stack)) esp (sub32 stack esp) m =
      .ok (copy m (add32 esp (sub32 newStack stack)) esp (sub32 stack esp)) := by
    refine copy8_returns (by rw [hmoved]; omega) (by omega) (fun i hi => ?_) fun i hi => ?_
    · rw [hdepth] at hi
      rw [add32_eq (by omega)]
      exact hold' _ (by omega) (by omega)
    · rw [hdepth] at hi
      rw [hmoved, add32_eq (by omega)]
      exact hnew _ (by omega) (by omega)
  have hlow : newStack % 4 + size < newStack := by
    have : newStack % 4 ≤ newStack % 0x1000 := by omega
    omega
  have htop : newStack + 4 ≤ 4294967296 := by omega
  obtain ⟨words, m₂, hscan⟩ : ∃ words m₂, scan M₁ words newStack size esp stack
      (sub32 newStack stack) (copy m (add32 esp (sub32 newStack stack)) esp (sub32 stack esp)) =
        .ok m₂ := scan_returns h1 hlow fun i hi ⟨hw1, hw2⟩ k hk => by
    rw [add32_eq (by omega)]
    exact hnew _ (by omega) (by omega)
  exact ⟨words, _, bind_ok.2 ⟨M₁, hpages, bind_ok.2 ⟨_, hcopy, bind_ok.2 ⟨m₂, hscan, rfl⟩⟩⟩⟩

/-- A stack from 0x1000 to 0x1010 with frames at 0x1004 and 0x100C; a return address, 5, lies beside
the first, and a 7 behind the stack. -/
def twoFrames (a : Nat) : UInt8 :=
  if a = 0x1004 then 0x0C else if a = 0x1005 then 0x10 else if a = 0x1008 then 5
  else if a = 0x1010 then 7 else 0

theorem twoFrames_stacks : Stacks 0x3010 0x10 0x1010 0x1000 :=
  ⟨by decide, by decide, by decide, by decide, by decide, by decide, by decide⟩

theorem twoFrames_chain : Chain twoFrames 0x1000 0x1010 0x1004 [0x1004, 0x100C] 0 := by
  have hsaved : read32 twoFrames 0x1004 = 0x100C := by decide
  refine .caller ⟨by decide, by decide, by decide⟩ ?_
  rw [hsaved]
  exact .frame ⟨by decide, by decide, by decide⟩

theorem sound_initialized {n : Nat} (h : Initialized n M) : SoundPages M := by
  obtain ⟨K, k, hb, -⟩ := h.identity
  intro v hv hne hf
  have hcur : M.currentSlot (v / 1024) = M.paging.kernelTable (v / 1024) := by
    rw [currentSlot, h.current]
    exact (h.shared _ (by omega)).1
  rw [hcur] at hne
  have hpage : M.currentPage v = M.paging.pageAt v := by
    rw [currentPage, hcur]
    rfl
  rw [hpage] at hf ⊢
  by_cases hvK : v < K
  · exact (hb.identity v hvK).2.1
  · rcases hb.above v (by omega) hv hne with ⟨h0, -⟩ | ⟨-, -, hp⟩
    · exact absurd h0 hf
    · exact hp

theorem hasPage_initialized {n v : Nat} (h : Initialized n M) (hv : 0x1000 * v < M.allocator.baseAddress) :
    M.HasPage v := by
  obtain ⟨K, k, hb, hK, -⟩ := h.identity
  have hhigh := h.bumped.high
  rw [kheapStart_eq] at hhigh
  obtain ⟨hT, hp, -⟩ := hb.identity v (by omega)
  have hcur : M.currentSlot (v / 1024) = M.paging.kernelTable (v / 1024) := by
    rw [currentSlot, h.current]
    exact (h.shared _ (by omega)).1
  refine ⟨hcur.symm ▸ hT, ?_⟩
  rw [currentPage, hcur]
  exact hp

/-- After `memory::Initialize` the stack is moved to pages for which `kernel_directory` has a table. -/
theorem called_image : ∃ M, Called 0xDFFFF000 0x2000 0x1010 0x1000 M := by
  obtain ⟨M, h₀, hb, hinit, -⟩ := image_initialized
  have hst : Callers.Started ⟨M, fun _ => []⟩ :=
    ⟨⟨_, _, _, _, start_image (by decide) (by decide), h₀, hb⟩, fun _ => rfl⟩
  have hlow : 0x1000 < M.allocator.baseAddress := by
    have h1 := hinit.bumped.inside _ hinit.kernelRegion
    have h2 := hinit.bumped.above _ hinit.kernelRegion
    simp only [sizeofDirectory] at h1 h2
    omega
  refine ⟨M, ⟨_, _, hst, .refl, rfl⟩, ⟨fun name => ?_, ?_⟩, sound_initialized hinit, fun v h1 h2 =>
    hasPage_initialized hinit (by omega)⟩
  · cases name with
    | uheap => exact serves_nil M _
    | kheap =>
      have hempty : M.missingSlots (slotsOf (sub32 0xDFFFF000 0x2000) 0xDFFFF000) = ∅ := by
        refine Finset.eq_empty_of_forall_notMem fun s hs => ?_
        obtain ⟨hs, h0⟩ := mem_missingSlots.1 hs
        obtain ⟨-, h1, h2⟩ := mem_slotsOf.1 hs
        have hs : s = 895 := Nat.le_antisymm (h2.trans (by decide)) (h1.trans' (by decide))
        rw [hs, currentSlot, hinit.current] at h0
        exact hinit.held 895 ⟨by decide, by decide⟩ ((hinit.shared 895 (by decide)).1.symm.trans h0)
      show M.Serves .kheap (tableRequests (M.missingSlots (slotsOf _ _)).card)
      rw [hempty, Finset.card_empty, tableRequests_zero]
      exact serves_nil M _
  · rintro newStack size hc a h1 h2 (⟨-, h3⟩ | ⟨-, h3⟩ | ⟨g, hg, -, h3⟩)
    all_goals cases hc
    · have hhigh := hinit.bumped.high
      rw [kheapStart_eq] at hhigh
      omega
    · rw [kheapEnd] at h3
      omega
    · obtain ⟨g', hg', hlo, -, hwf⟩ := hinit.uheap
      cases hg.symm.trans hg'
      have hf : g.startAddress + extent Block.size uheapBlocks = g.endAddress := hwf.fills
      have hext : extent Block.size uheapBlocks ≤ 0x400000 := by decide
      omega

/-- A kernel with one table, in which the old stack has a page and the new one has none. -/
def onePage : Kernel where
  paging :=
    { frames := ⟨fun _ => 3, 1⟩
      tables := fun _ e => if e = 1 then ⟨true, true, false, false, false, 1⟩ else Page.zero
      directories := fun _ => ⟨fun i => if i = 0 then 0x5000 else 0, fun _ => 0, 0⟩
      kernelDirectory := 0
      currentDirectory := 0
      phys := fun _ => 0 }
  allocator := ⟨0x6000, fun _ => none, fun _ => 0, []⟩
  liveDirectories := []
  liveTables := []

theorem onePage_returns : ∃ M' m' esp' ebp', moveStack 2 (fun _ => 0) 6 0x3010 0x10 0x1010 0x1000 0x1004
    onePage twoFrames = .ok (M', m', esp', ebp') := by
  have hrun : (moveStack 2 (fun _ => 0) 6 0x3010 0x10 0x1010 0x1000 0x1004 onePage twoFrames).map
      (fun _ => ()) = .ok () := by
    decide +kernel
  cases hm : moveStack 2 (fun _ => 0) 6 0x3010 0x10 0x1010 0x1000 0x1004 onePage twoFrames with
  | error e =>
    rw [hm] at hrun
    cases hrun
  | ok r => exact ⟨r.1, r.2.1, r.2.2.1, r.2.2.2, rfl⟩

end MoveStack

end Dmanix
