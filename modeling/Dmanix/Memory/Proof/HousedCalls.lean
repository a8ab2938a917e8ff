import Dmanix.Memory.Proof.Housed

/-!
# Calls keep tables and directories apart

What builds on the heaps keeps `Housed` while the kernel heap serves the requests the call makes
(`Kernel.requests`): a loop over pages makes one for each slot without a table (`Extending`),
`Directory::Clone` one for the directory and one for each table it copies (`Duplicating`). Each table
and directory made gets vacant memory.
-/

namespace Dmanix

open Word32 Bytes Outcome Machine Paging

namespace Kernel

variable {M t u : Kernel} {made : List (Nat × Nat)} {held : HeapName → List (Nat × Nat)}
  {I : (Nat → Nat → Prop) → Paging → Prop} {rounds lo hi i n src dir : Nat} {fresh : Mem}
  {w : Bool} {S : Finset Nat}

theorem Serves.congr {name : HeapName} {rs : List HeapRequest} (h : M.Serves name rs)
    (ha : u.allocator = M.allocator) : u.Serves name rs := by
  unfold Serves
  rwa [ha]

/-! ## Loops over pages -/

theorem mem_slotsOf {s : Nat} : s ∈ slotsOf lo hi ↔
    s < arraySize ∧ lo / 0x400000 ≤ s ∧ s ≤ hi / 0x400000 := by
  rw [slotsOf, Finset.mem_filter, Finset.mem_range]

theorem mem_missingSlots {s : Nat} : s ∈ M.missingSlots S ↔ s ∈ S ∧ M.currentSlot s = 0 := by
  rw [missingSlots, Finset.mem_filter]

theorem missingSlots_filled {s table : Nat} (hs : s ∈ S) (h0 : M.currentSlot s = 0) (ht : table ≠ 0)
    (hu : ∀ j, u.currentSlot j = if j = s then table else M.currentSlot j) :
    (M.missingSlots S).card = (u.missingSlots S).card + 1 := by
  have herase : u.missingSlots S = (M.missingSlots S).erase s := by
    ext j
    rw [Finset.mem_erase, mem_missingSlots, mem_missingSlots, hu]
    by_cases hj : j = s
    · simp only [hj, if_true, ht, and_false, ne_eq, not_true_eq_false, false_and]
    · simp only [hj, if_false, ne_eq, not_false_eq_true, true_and]
  have hcard := Finset.card_erase_add_one (mem_missingSlots.2 ⟨hs, h0⟩)
  rw [herase, hcard]

/-- The kernel heap serves a request for each slot of `S` that has no table. -/
structure Extending (I : (Nat → Nat → Prop) → Paging → Prop) (held : HeapName → List (Nat × Nat))
    (S : Finset Nat) (M : Kernel) : Prop where
  housed : ∃ made, HousedWith I made held M
  serves : M.Serves .kheap (tableRequests (M.missingSlots S).card)

section
variable (hI : Built I)
include hI

/-- **`GetPage(address, true)`** on the current directory. -/
theorem getPage_extending {q : PagePtr} (h : Extending I held S M) (hi : i < 4294967296)
    (hS : i / 0x1000 / 1024 ∈ S)
    (hg : getPage (kallocPa rounds fresh) M.paging.currentDirectory i M = .ok (q, u)) :
    Extending I held S u ∧ u.Named q.table := by
  have hs := h.serves
  obtain ⟨made, hH⟩ := h.housed
  obtain ⟨M₁, hm, hg⟩ := bind_ok.1 hg
  obtain ⟨q', hq, hg⟩ := bind_ok.1 hg
  cases hg
  have hslot : i / 0x1000 / 1024 < arraySize := show _ < 1024 by omega
  have hname : ∀ {d}, d ∈ u.liveDirectories → u.paging.getPage d i false = .ok q → u.Named q.table := by
    intro d hd hq
    unfold Paging.getPage at hq
    dsimp only at hq
    split at hq
    · cases hq
    · rename_i h0
      cases hq
      exact ⟨h0, d, hd, _, hslot, rfl⟩
  by_cases h0 : M.slot M.paging.currentDirectory (i / 0x1000 / 1024) = 0
  · have hcount : ∀ v : Kernel, ∀ x, x ≠ 0 →
        (∀ j, v.currentSlot j = if j = i / 0x1000 / 1024 then x else M.currentSlot j) →
        (M.missingSlots S).card = (v.missingSlots S).card + 1 := fun v x hx hv =>
      missingSlots_filled hS h0 hx hv
    -- one request fewer is left, whatever table is made
    obtain ⟨n, hn⟩ : ∃ n, (M.missingSlots S).card = n + 1 :=
      Nat.exists_eq_succ_of_ne_zero (Finset.card_ne_zero_of_mem (mem_missingSlots.2 ⟨hS, h0⟩))
    rw [hn, tableRequests_succ] at hs
    obtain ⟨x, hx, hH', hs', hslots, hk, hc, hl⟩ := makeTable_housed hI hH h0 hs hm
    have hcur : ∀ j, u.currentSlot j = if j = i / 0x1000 / 1024 then x else M.currentSlot j := fun j => by
      rw [currentSlot, hc, hslots]
      simp [currentSlot]
    have := hcount u x hx hcur
    refine ⟨⟨⟨_, hH'⟩, ?_⟩, hname (hl.symm ▸ hH.current) hq⟩
    rwa [show (u.missingSlots S).card = n by omega]
  · have : u = M := by
      unfold makeTable at hm
      rw [if_neg (show (M.paging.directories M.paging.currentDirectory).tables _ ≠ 0 from h0)] at hm
      cases hm
      rfl
    subst this
    exact ⟨⟨⟨made, hH⟩, hs⟩, hname hH.current hq⟩

/-- **`AllocFrame(current_directory->GetPage(address, true), ..)`** -/
theorem allocPage_extending (h : Extending I held S M) (hi : i < 4294967296)
    (hS : i / 0x1000 / 1024 ∈ S)
    (ha : allocPage (kallocPa rounds fresh) M.paging.currentDirectory w i M = .ok u) :
    Extending I held S u := by
  obtain ⟨⟨q, t⟩, hg, ha⟩ := bind_ok.1 ha
  obtain ⟨P, hP, ha⟩ := bind_ok.1 ha
  cases ha
  obtain ⟨h', hq⟩ := getPage_extending hI h hi hS hg
  obtain ⟨made, hH⟩ := h'.housed
  refine ⟨⟨made, hH.allocFrame hI (hH.tables _ hq) hP⟩, ?_⟩
  have hmiss : missingSlots (t.withPaging P) S = missingSlots t S := by
    unfold missingSlots
    simp only [currentSlot_withPaging (allocFrame_same hP)]
  rw [hmiss]
  exact h'.serves.congr rfl

end

theorem allocateRange_rounds {k address size : Nat}
    (h : allocateRange (kallocPa rounds fresh) k address size M = .ok u) :
    pageBits (add32 address size) < 0xFFFFF000 := by
  have hle : ∀ x, pageBits x ≤ 0xFFFFF000 := fun _ => Nat.and_le_right
  by_contra hge
  have hfirst : pageBits address % 0x1000 = 0 := by
    show (address &&& 0xFFFFF000) % 2 ^ 12 = 0
    rw [Nat.and_mod_two_pow]
    exact Nat.and_zero _
  have hlast := hle (add32 address size)
  obtain ⟨j, ⟨hj, hlt⟩, hend⟩ := loop_ok (I := fun j _ => j % 0x1000 = 0 ∧ j < 4294967296) h
    ⟨hfirst, Nat.lt_of_le_of_lt (hle _) (by decide)⟩
    fun j t u _ ⟨hj, _⟩ _ => ⟨by unfold add32; omega, add32_lt _ _⟩
  rw [decide_eq_false_iff_not] at hend
  omega

/-- **`AllocateRange`** that returns visits pages of its range only. -/
theorem allocateRange_pages {P : Kernel → Prop} {k address size : Nat}
    (ha : allocateRange (kallocPa rounds fresh) k address size M = .ok u) (hM : P M)
    (hstep : ∀ j t v, j < 4294967296 →
      j / 0x1000 / 1024 ∈ slotsOf (pageBits address) (pageBits (add32 address size)) → P t →
      allocPage (kallocPa rounds fresh) t.paging.currentDirectory true j t = .ok v → P v) : P u := by
  have hlast := allocateRange_rounds ha
  generalize hl : pageBits (add32 address size) = last at *
  generalize hf : pageBits address = first at *
  unfold allocateRange at ha
  rw [hl, hf] at ha
  obtain ⟨j, ⟨-, hP⟩, -⟩ := loop_ok (I := fun j t => first ≤ j ∧ P t) ha ⟨Nat.le_refl _, hM⟩
    fun j t u he ⟨hj, ht⟩ hb => by
      have hle : j ≤ last := of_decide_eq_true he.test_eq
      refine ⟨?_, hstep j t u (by omega)
        (mem_slotsOf.2 ⟨show _ < 1024 by omega, by omega, by omega⟩) ht hb⟩
      rw [add32_eq (by omega)]
      omega
  exact hP

theorem allocateRange_extending (hI : Built I) {k address size : Nat}
    (h : Extending I held (slotsOf (pageBits address) (pageBits (add32 address size))) M)
    (ha : allocateRange (kallocPa rounds fresh) k address size M = .ok u) :
    Extending I held (slotsOf (pageBits address) (pageBits (add32 address size))) u :=
  allocateRange_pages ha h fun _ _ _ hj hS ht hb => allocPage_extending hI ht hj hS hb

theorem moveStack_rounds {k newStack size : Nat} (hn : newStack < 4294967296)
    (h : moveStack (kallocPa rounds fresh) k newStack size M = .ok u) :
    newStack % 0x1000 < sub32 newStack size ∨ newStack < sub32 newStack size := by
  by_contra hge
  obtain ⟨j, ⟨hj, hlt⟩, hend⟩ := loop_ok (I := fun j _ => j % 0x1000 = newStack % 0x1000 ∧
    j < 4294967296) h ⟨rfl, hn⟩ fun j t u _ ⟨hj, _⟩ _ => ⟨by unfold sub32; omega, sub32_lt _ _⟩
  rw [decide_eq_false_iff_not] at hend
  omega

/-- **`MoveStack`**'s loop, where it returns. -/
theorem moveStack_pages {P : Kernel → Prop} {k newStack size : Nat} (hn : newStack < 4294967296)
    (ha : moveStack (kallocPa rounds fresh) k newStack size M = .ok u) (hM : P M)
    (hstep : ∀ j t v, j < 4294967296 →
      j / 0x1000 / 1024 ∈ slotsOf (sub32 newStack size) newStack → P t →
      allocPage (kallocPa rounds fresh) t.paging.currentDirectory true j t = .ok v → P v) : P u := by
  have hround := moveStack_rounds hn ha
  generalize hb : sub32 newStack size = bottom at *
  unfold moveStack at ha
  rw [hb] at ha
  obtain ⟨j, ⟨-, -, hP⟩, -⟩ := loop_ok (I := fun j t => j ≤ newStack ∧
    j % 0x1000 = newStack % 0x1000 ∧ P t) ha ⟨Nat.le_refl _, rfl, hM⟩
    fun j t u he ⟨hj, hm, ht⟩ hb => by
      have hle : bottom ≤ j := of_decide_eq_true he.test_eq
      have hsub : sub32 j 0x1000 = j - 0x1000 := sub32_eq (by omega) (by omega)
      refine ⟨?_, ?_, hstep j t u (by omega)
        (mem_slotsOf.2 ⟨show _ < 1024 by omega, by omega, by omega⟩) ht hb⟩
      · omega
      · omega
  exact hP

theorem moveStack_extending (hI : Built I) {k newStack size : Nat} (hn : newStack < 4294967296)
    (h : Extending I held (slotsOf (sub32 newStack size) newStack) M)
    (ha : moveStack (kallocPa rounds fresh) k newStack size M = .ok u) :
    Extending I held (slotsOf (sub32 newStack size) newStack) u :=
  moveStack_pages hn ha h fun _ _ _ hj hS ht hb => allocPage_extending hI ht hj hS hb

/-! ## `Directory::Clone` -/

theorem mem_privateSlots {s first : Nat} : s ∈ M.privateSlots src first ↔
    s < arraySize ∧ first ≤ s ∧ M.slot src s ≠ 0 ∧ M.slot src s ≠ M.kernelSlot s := by
  rw [privateSlots, Finset.mem_filter, Finset.mem_range]

theorem privateSlots_next (h : M.slot src i = 0 ∨ M.slot src i = M.kernelSlot i) :
    M.privateSlots src (i + 1) = M.privateSlots src i := by
  ext j
  rw [mem_privateSlots, mem_privateSlots]
  constructor
  · rintro ⟨h1, h2, h3, h4⟩
    exact ⟨h1, by omega, h3, h4⟩
  · rintro ⟨h1, h2, h3, h4⟩
    have hne : j ≠ i := by
      rintro rfl
      exact h.elim h3 h4
    exact ⟨h1, by omega, h3, h4⟩

theorem privateSlots_copied (hi : i < arraySize) (h0 : M.slot src i ≠ 0)
    (hne : M.slot src i ≠ M.kernelSlot i) :
    (M.privateSlots src i).card = (M.privateSlots src (i + 1)).card + 1 := by
  have herase : M.privateSlots src (i + 1) = (M.privateSlots src i).erase i := by
    ext j
    rw [Finset.mem_erase, mem_privateSlots, mem_privateSlots]
    constructor
    · rintro ⟨h1, h2, h3, h4⟩
      exact ⟨by omega, h1, by omega, h3, h4⟩
    · rintro ⟨hj, h1, h2, h3, h4⟩
      exact ⟨h1, by omega, h3, h4⟩
  have hcard := Finset.card_erase_add_one (mem_privateSlots.2 ⟨hi, Nat.le_refl i, h0, hne⟩)
  rw [herase, hcard]

theorem privateSlots_congr (hs : ∀ j, u.slot src j = M.slot src j)
    (hk : ∀ j, u.kernelSlot j = M.kernelSlot j) (first : Nat) :
    u.privateSlots src first = M.privateSlots src first := by
  ext j
  rw [mem_privateSlots, mem_privateSlots, hs, hk]

/-- `Directory::Clone` of the directory at `src` into the one at `dir`, before slot `i`: the kernel heap
serves a request for each table that is still to be copied. -/
structure Duplicating (I : (Nat → Nat → Prop) → Paging → Prop) (held : HeapName → List (Nat × Nat))
    (src dir i : Nat) (M : Kernel) : Prop where
  housed : ∃ made, HousedWith I made held M
  serves : M.Serves .kheap (tableRequests (M.privateSlots src i).card)
  source : src ∈ M.liveDirectories
  apart : dir ≠ src
  notKernel : dir ≠ M.paging.kernelDirectory

section
variable (hI : Built I)
include hI

theorem cloneEntry_housed {dst : Nat} (h : HousedWith I made held M)
    (hd : Given M made dst sizeofTable) (hc : cloneEntry src dst i M = .ok u) :
    HousedWith I made held u ∧ u.allocator = M.allocator := by
  unfold cloneEntry at hc
  dsimp only at hc
  split at hc
  · cases hc
    exact ⟨h, rfl⟩
  · obtain ⟨P, hP, hc⟩ := bind_ok.1 hc
    cases hc
    have hs := allocFrame_same hP
    refine ⟨h.withPaging ⟨hs.directories, hs.kernel, hs.current, hs.size⟩ ?_, rfl⟩
    exact hI.rest (hI.entry (hI.alloc h.inv hd hP) (q := ⟨dst, i⟩)
      (v := { M.paging.page ⟨src, i⟩ with frame := (P.page ⟨dst, i⟩).frame }) rfl) rfl rfl

/-- **`Table::Clone`** -/
theorem tableClone_housed {p phys x : Nat} {rest : List HeapRequest} (h : HousedWith I made held M)
    (hs : M.Serves .kheap (.alloc sizeofTable true :: rest))
    (hc : tableClone (kallocPa rounds fresh) x M = .ok (p, phys, u)) :
    HousedWith I ((p, sizeofTable) :: made) held u ∧ u.Serves .kheap rest ∧ SameSlots M u ∧
      ∀ d ∈ u.liveDirectories, ∀ j < arraySize, u.slot d j ≠ p := by
  obtain ⟨⟨p', phys', M₁⟩, ha, hc⟩ := bind_ok.1 hc
  obtain ⟨M₂, h₂, hc⟩ := bind_ok.1 hc
  cases hc
  obtain ⟨h₁, hs₁⟩ := h.alloc hI hs ha
  have hnew := h₁.newTable hI
  obtain ⟨hH, hA⟩ := upTo_ok (I := fun _ t => HousedWith I ((p, sizeofTable) :: made) held t ∧
      t.allocator = M₁.allocator) h₂ ⟨hnew, rfl⟩ fun i t v _ _ ht hb => by
    obtain ⟨hv, hva⟩ := cloneEntry_housed hI ht.1 (.inl List.mem_cons_self) hb
    exact ⟨hv, hva.trans ht.2⟩
  have hsame := kallocPa_same ha
  have hloop := cloneEntries_same.ok h₂
  refine ⟨hH, hs₁.congr hA, ⟨hloop.directories.trans hsame.directories,
    hloop.kernel.trans hsame.kernel, hloop.current.trans hsame.current,
    hloop.liveDirectories.trans (show M₁.liveDirectories = _ from kallocPa_live ha)⟩,
    fun d hd j hj => ?_⟩
  have hun := h₁.unnamed d (hloop.liveDirectories ▸ hd) j hj
  unfold slot at hun ⊢
  rwa [hloop.directories]

/-- **One slot of `Directory::Clone`.** -/
theorem cloneTable_duplicating (h : Duplicating I held src dir i M) (hi : i < arraySize)
    (hc : cloneTable (kallocPa rounds fresh) src dir i M = .ok u) :
    Duplicating I held src dir (i + 1) u := by
  have hs := h.serves
  obtain ⟨made, hH⟩ := h.housed
  -- what is copied from later on depends on the source and `kernel_directory`
  have hset : ∀ {v : Kernel} {x e : Nat}, SameSlots M v →
      privateSlots (v.withPaging (v.paging.setTable dir i x e)) src (i + 1) =
        M.privateSlots src (i + 1) := by
    intro v x e hv
    refine privateSlots_congr (fun j => ?_) (fun j => ?_) _
    · rw [slot_setTable_other fun hj => h.apart hj.1.symm, slot, hv.directories]
      rfl
    · show (v.withPaging (v.paging.setTable dir i x e)).slot v.paging.kernelDirectory j = _
      rw [hv.kernel, slot_setTable_other fun hj => h.notKernel hj.1.symm, slot, hv.directories]
      rfl
  unfold cloneTable at hc
  dsimp only at hc
  split at hc
  · rename_i h0
    cases hc
    exact ⟨⟨made, hH⟩, by rwa [privateSlots_next (.inl h0)], h.source, h.apart, h.notKernel⟩
  · rename_i h0
    have hname : Given M made (M.slot src i) sizeofTable :=
      hH.tables _ ⟨h0, src, h.source, i, hi, rfl⟩
    split at hc
    · rename_i heq
      cases hc
      refine ⟨⟨made, hH.setTable hI hname fun d hd j hj he => ?_⟩, ?_, h.source, h.apart, h.notKernel⟩
      · exact hH.index d hd j hj src h.source i hi (he.symm ▸ h0) he
      rw [hset (.refl M), privateSlots_next (.inr heq.symm)]
      exact hs.congr rfl
    · rename_i hne
      obtain ⟨⟨p, phys, v⟩, hv, hc⟩ := bind_ok.1 hc
      cases hc
      rw [privateSlots_copied hi h0 (Ne.symm hne), tableRequests_succ] at hs
      obtain ⟨hHv, hsv, hsame, hnew⟩ := tableClone_housed hI hH hs hv
      refine ⟨⟨_, hHv.setTable hI (.inl List.mem_cons_self) fun d hd j hj he => absurd he ?_⟩, ?_, ?_,
        h.apart, ?_⟩
      · exact hnew d hd j hj
      · rw [hset hsame]
        exact hsv.congr rfl
      · show src ∈ v.liveDirectories
        rw [hsame.liveDirectories]
        exact h.source
      · show dir ≠ v.paging.kernelDirectory
        rw [hsame.kernel]
        exact h.notKernel

/-- **`kalloc_pa`** gives vacant memory. -/
theorem HousedWith.kallocPa_vacant {size p phys : Nat} {rest : List HeapRequest}
    (h : HousedWith I made held M) (hs : M.Serves .kheap (.alloc size true :: rest))
    (ha : kallocPa rounds fresh size M = .ok (p, phys, u)) :
    HousedWith I made (Function.update held .kheap ((p, size) :: held .kheap)) u ∧
      u.Serves .kheap rest ∧ M.Vacant size p := by
  obtain ⟨h₁, hs₁⟩ := h.alloc hI hs ha
  have hsame := kallocPa_same ha
  have hlive : u.liveDirectories = M.liveDirectories := kallocPa_live ha
  have hmem : (p, size) ∈ Function.update held .kheap ((p, size) :: held .kheap) .kheap := by
    rw [Function.update_self]
    exact List.mem_cons_self
  obtain ⟨h0, hd, ht⟩ := h₁.vacant hmem
  refine ⟨h₁, hs₁, h0, hlive ▸ hd, fun x hx => ht x ?_⟩
  simpa only [Named, slot, hsame.directories, hlive] using hx

theorem newClone_duplicating {phys : Nat} (h : HousedWith I made held M)
    (hs : M.Serves .kheap (M.requests (.clone src) .kheap)) (hsrc : src ∈ M.liveDirectories)
    (ha : kallocPa rounds fresh sizeofDirectory M = .ok (dir, phys, u)) :
    Duplicating I held src dir 0 (u.newClone dir phys) ∧ M.Vacant sizeofDirectory dir := by
  obtain ⟨h₁, hs₁, hvac⟩ := h.kallocPa_vacant hI hs ha
  have hsame := kallocPa_same ha
  have hlive : u.liveDirectories = M.liveDirectories := kallocPa_live ha
  have hne : ∀ d ∈ M.liveDirectories, dir ≠ d := fun d hd he => by
    have := hvac.directories d hd
    simp only [Apart, sizeofDirectory] at this
    omega
  have hcl := cloned_newClone u src dir phys
  refine ⟨⟨⟨_, h₁.newClone hI⟩, ?_, ?_, ?_, ?_⟩, hvac⟩
  · rw [privateSlots_congr (M := M) (fun j => ?_) fun j => ?_]
    · exact hs₁.congr rfl
    · rw [slot, hcl.others _ (Ne.symm (hne _ hsrc)), hsame.directories]
      rfl
    · show ((u.newClone dir phys).paging.directories
        (u.newClone dir phys).paging.kernelDirectory).tables j = _
      rw [hcl.kernel, hcl.others _ (Ne.symm (hne _ (hlive ▸ h₁.kernel))), hsame.directories,
        hsame.kernel]
      rfl
  · rw [hcl.liveDirectories, hlive]
    exact List.mem_cons_of_mem _ hsrc
  · exact hne _ hsrc
  · rw [hcl.kernel]
    exact hne _ (hlive ▸ h₁.kernel)

theorem clone_duplicating {phys : Nat} {M₁ : Kernel} (h : HousedWith I made held M)
    (hs : M.Serves .kheap (M.requests (.clone src) .kheap)) (hsrc : src ∈ M.liveDirectories)
    (ha : kallocPa rounds fresh sizeofDirectory M = .ok (dir, phys, M₁)) (hi : i ≤ arraySize)
    (hc : upTo (cloneTable (kallocPa rounds fresh) src dir) i (M₁.newClone dir phys) = .ok t) :
    Duplicating I held src dir i t :=
  upTo_ok (I := Duplicating I held src dir) hc (newClone_duplicating hI h hs hsrc ha).1
    fun _ _ _ hj _ hI' hb => cloneTable_duplicating hI hI' (by omega) hb

/-- **`Directory::Clone`** -/
theorem clone_housed (h : HousedWith I made held M)
    (hs : M.Serves .kheap (M.requests (.clone src) .kheap)) (hsrc : src ∈ M.liveDirectories)
    (hc : clone (kallocPa rounds fresh) src M = .ok (dir, u)) :
    ∃ made, HousedWith I made held u := by
  obtain ⟨⟨dir', phys, M₁⟩, ha, hc⟩ := bind_ok.1 hc
  obtain ⟨M₂, h₂, hc⟩ := bind_ok.1 hc
  cases hc
  exact (clone_duplicating hI h hs hsrc ha (Nat.le_refl _) h₂).housed

end

end Kernel

end Dmanix
