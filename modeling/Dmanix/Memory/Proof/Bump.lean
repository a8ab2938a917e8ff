import Dmanix.Memory.Initialize

/-!
# Memory before the heap

`alloc_internal` without a heap gives the memory from `base_address` on. While everything it gave
ends below the kernel heap (`Below`), each region lies above the ones before (`Bumped`).

The stages of `memory::Initialize` are reasoned about under `Below` of the state they leave:
`Boots` says what a stage establishes then. Under an assumption `G` that there is a bound `B` on all
the memory given (`Room`), the stage keeps the bound and stops only for the reason `S`.
-/

namespace Dmanix

open Word32 Outcome Machine

namespace Kernel

/-! ## Regions -/

/-- Every region ends at or below the kernel heap. -/
def Below (M : Kernel) : Prop := ∀ r ∈ M.allocator.regions, r.addr + r.size ≤ kheapStart

/-- No heap exists. -/
def NoHeap (M : Kernel) : Prop := ∀ name, M.allocator.heap name = none

/-- The regions given so far, the last one first: apart, page-aligned where asked, and below
`base_address`. -/
structure Bumped (A : Kalloc) : Prop where
  low : 0x1000 ≤ A.baseAddress
  high : A.baseAddress ≤ kheapStart
  inside : ∀ r ∈ A.regions, r.addr + r.size ≤ A.baseAddress
  apart : A.regions.Pairwise fun r s => s.addr + s.size ≤ r.addr
  aligned : ∀ r ∈ A.regions, r.pageAlign = true → r.addr % 0x1000 = 0
  above : ∀ r ∈ A.regions, 0x1000 ≤ r.addr

theorem kheapStart_eq : kheapStart = 3221225472 := by rfl

/-- Where the next region starts. -/
theorem bump_addr {base : Nat} (pageAlign : Bool) (hlo : 0x1000 ≤ base) (hhi : base ≤ kheapStart) :
    (if pageAlign && pageBits base ≠ 0 then add32 (pageBits base) 0x1000 else base) =
      if pageAlign then base / 4096 * 4096 + 4096 else base := by
  rw [kheapStart_eq] at hhi
  cases pageAlign with
  | false => simp
  | true =>
    have hp : pageBits base = base / 4096 * 4096 := pageBits_eq (by omega)
    have hne : base / 4096 * 4096 ≠ 0 := by omega
    simp only [hp, Bool.true_and, decide_eq_true hne, if_true]
    exact add32_eq (by omega)

section
variable (M : Kernel) (size : Nat) (pageAlign : Bool)

@[simp] theorem paging_bump : (M.bump size pageAlign).2.paging = M.paging := by rfl

@[simp] theorem liveDirectories_bump :
    (M.bump size pageAlign).2.liveDirectories = M.liveDirectories := by rfl

@[simp] theorem heap_bump : (M.bump size pageAlign).2.allocator.heap = M.allocator.heap := by rfl

@[simp] theorem regions_bump : (M.bump size pageAlign).2.allocator.regions =
    ⟨(M.bump size pageAlign).1, size, pageAlign⟩ :: M.allocator.regions := by rfl

end

/-- **A region is given**: at or above `base_address`, the next page for a page-aligned one. -/
theorem Bumped.bump {M : Kernel} (h : Bumped M.allocator) {size : Nat} {pageAlign : Bool}
    (hb : Below (M.bump size pageAlign).2) :
    Bumped (M.bump size pageAlign).2.allocator ∧ M.allocator.baseAddress ≤ (M.bump size pageAlign).1 ∧
      (M.bump size pageAlign).1 + size = (M.bump size pageAlign).2.allocator.baseAddress := by
  have haddr : (M.bump size pageAlign).1 =
      if pageAlign then M.allocator.baseAddress / 4096 * 4096 + 4096 else M.allocator.baseAddress :=
    bump_addr pageAlign h.low h.high
  have hge : M.allocator.baseAddress ≤ (M.bump size pageAlign).1 := by
    rw [haddr]
    split <;> omega
  have hend : (M.bump size pageAlign).1 + size ≤ kheapStart := hb _ List.mem_cons_self
  have hbase : (M.bump size pageAlign).2.allocator.baseAddress =
      (M.bump size pageAlign).1 + size := by
    rw [kheapStart_eq] at hend
    exact add32_eq (show (M.bump size pageAlign).1 + size < 4294967296 by omega)
  have hlow := h.low
  refine ⟨⟨?_, ?_, ?_, ?_, ?_, ?_⟩, hge, hbase.symm⟩
  · omega
  · omega
  · intro r hr
    rcases List.mem_cons.1 hr with rfl | hr
    · exact Nat.le_of_eq hbase.symm
    · have := h.inside r hr
      omega
  · refine List.pairwise_cons.2 ⟨fun r hr => ?_, h.apart⟩
    exact (h.inside r hr).trans hge
  · intro r hr ha
    rcases List.mem_cons.1 hr with rfl | hr
    · have hp : pageAlign = true := ha
      show (M.bump size pageAlign).1 % 0x1000 = 0
      rw [haddr, hp, if_pos rfl]
      omega
    · exact h.aligned r hr ha
  · intro r hr
    rcases List.mem_cons.1 hr with rfl | hr
    · exact hlow.trans hge
    · exact h.above r hr

theorem Below.of_bump {M : Kernel} {size : Nat} {pageAlign : Bool}
    (hb : Below (M.bump size pageAlign).2) : Below M :=
  fun r hr => hb r (List.mem_cons_of_mem _ hr)

/-! ## A bound -/

/-- The slots of `kernel_directory` without a table. -/
def nullSlots (M : Kernel) : Nat :=
  (List.range arraySize).countP
    fun i => (M.paging.directories M.paging.kernelDirectory).tables i = 0

/-- The memory given ends below `B`, also after a table is made for every slot without one: each
takes two pages at most. -/
structure Room (B : Nat) (M : Kernel) : Prop where
  base : M.allocator.baseAddress + 8192 * M.nullSlots ≤ B
  regions : ∀ r ∈ M.allocator.regions, r.addr + r.size ≤ B

theorem Room.below {B : Nat} {M : Kernel} (h : Room B M) (hB : B ≤ kheapStart) : Below M :=
  fun r hr => (h.regions r hr).trans hB

/-- A region of at most a page, aligned, takes at most two pages. -/
theorem bump_le (M : Kernel) (size : Nat) (pageAlign : Bool) :
    (M.bump size pageAlign).1 ≤ M.allocator.baseAddress + 4096 ∧
    (M.bump size pageAlign).2.allocator.baseAddress ≤ M.allocator.baseAddress + 4096 + size := by
  have h1 : (M.bump size pageAlign).1 ≤ M.allocator.baseAddress + 4096 := by
    show (if _ then _ else _) ≤ _
    split
    · exact (Nat.mod_le _ _).trans (Nat.add_le_add_right Nat.and_le_left _)
    · exact Nat.le_add_right _ _
  refine ⟨h1, ?_⟩
  have : (M.bump size pageAlign).2.allocator.baseAddress ≤ (M.bump size pageAlign).1 + size :=
    Nat.mod_le _ _
  omega

/-! ## Stages -/

/-- A state a stage can start in. -/
structure Ready (G : Prop) (B : Nat) (M : Kernel) (I : Kernel → Prop) : Prop where
  noHeap : NoHeap M
  holds : Below M → I M
  room : G → Room B M

/-- What a stage that starts in `M` establishes (module doc). -/
def Boots (G : Prop) (B : Nat) (S : Prop) (M : Kernel) (x : Except Halt Kernel)
    (J : Kernel → Prop) : Prop :=
  Meets x (fun M' => (Below M' → Below M) ∧ Ready G B M' J) fun _ => G → S

variable {G : Prop} {B : Nat} {S : Prop} {M : Kernel} {x : Except Halt Kernel}
  {I J J' : Kernel → Prop}

theorem Ready.imp (h : Ready G B M I) (hJ : I M → J M) : Ready G B M J :=
  ⟨h.noHeap, fun hb => hJ (h.holds hb), h.room⟩

theorem Boots.imp (h : Boots G B S M x J) (hJ : ∀ M', Below M → J M' → J' M') :
    Boots G B S M x J' := by
  refine Meets.imp h fun M' ⟨h1, h2⟩ => ⟨h1, h2.noHeap, fun hb => ?_, h2.room⟩
  exact hJ M' (h1 hb) (h2.holds hb)

theorem Boots.pure {M' : Kernel} (hb : Below M' → Below M) (h : Ready G B M' J) :
    Boots G B S M (.ok M') J :=
  Meets.pure ⟨hb, h⟩

/-- Two stages. -/
theorem Boots.seq {f : Kernel → Except Halt Kernel} (h : Boots G B S M x J)
    (hf : ∀ M₁, Ready G B M₁ J → Boots G B S M₁ (f M₁) J') : Boots G B S M (x >>= f) J' := by
  refine Meets.bind h fun M₁ ⟨h1, h2⟩ => ?_
  exact Meets.imp (hf M₁ h2) fun M₂ ⟨i1, i2⟩ => ⟨fun hb => h1 (i1 hb), i2⟩

/-- A stage that starts in a state with `I i` for some `i`, known while the state is below the
kernel heap. -/
theorem Boots.exists {ι : Type} [Inhabited ι] {I : ι → Kernel → Prop}
    (h : Ready G B M fun M => ∃ i, I i M) (hx : ∀ i, Ready G B M (I i) → Boots G B S M x J) :
    Boots G B S M x J := by
  by_cases hb : Below M
  · obtain ⟨i, hi⟩ := h.holds hb
    exact hx i ⟨h.noHeap, fun _ => hi, h.room⟩
  · exact hx default ⟨h.noHeap, fun hb' => absurd hb' hb, h.room⟩

/-- A loop over pages, below `0xF0000000` while there is room. -/
theorem Boots.loop {test : Nat → Kernel → Bool} {body : Nat → Kernel → Except Halt Kernel}
    {I : Nat → Kernel → Prop} (hB : B ≤ kheapStart)
    (hstep : ∀ i M, i < 4294967296 → Ready G B M (I i) → test i M = true →
      Boots G B S M (body i M) (I (add32 i 0x1000)))
    (htest : ∀ i M, I i M → Room B M → test i M = true → i < 0xF0000000) :
    ∀ (rounds i : Nat) (M : Kernel), i < 4294967296 → Ready G B M (I i) →
      (G → i < 0xF0001000 ∧ 0xF0001000 ≤ i + 4096 * rounds) →
      Boots G B S M (Outcome.loop .hang test (add32 · 0x1000) body rounds i M)
        fun M' => ∃ j, I j M' ∧ test j M' = false
  | 0, _, _, _, _, hr => .stop fun hG => by
    have := hr hG
    omega
  | rounds + 1, i, M, hi, h, hr => by
    unfold Outcome.loop
    by_cases ht : test i M = true
    · rw [if_pos ht]
      refine (hstep i M hi h ht).seq fun M₁ h₁ =>
        Boots.loop hB hstep htest rounds _ M₁ (add32_lt _ _) h₁ fun hG => ?_
      have hroom := h.room hG
      have hi := htest i M (h.holds (hroom.below hB)) hroom ht
      have := hr hG
      rw [add32_eq (by omega)]
      omega
    · rw [if_neg ht]
      exact .pure id (h.imp fun hI => ⟨i, hI, Bool.eq_false_iff.2 ht⟩)

end Kernel

end Dmanix
