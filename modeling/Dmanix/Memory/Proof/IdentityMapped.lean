import Dmanix.Memory.Proof.Initialized

/-!
# Memory before the heap is identity mapped

After `memory::Initialize` every address below `base_address` is its own physical address, in
`kernel_directory` and in the current directory, and no heap page has the frame of one:
`bootstrap_identity`.
-/

namespace Dmanix

open Word32 Bytes Outcome Machine Paging

namespace Kernel

theorem tableEntry {t : Nat} (ht : t % 4096 = 0) (hlt : t < 4294967296) :
    (t ||| 0x7) &&& 1 ≠ 0 ∧ pageBits (t ||| 0x7) = t := by
  have hor : t ||| 0x7 = t + 7 := by
    have := Nat.two_pow_add_eq_or_of_lt (i := 12) (b := 7) (by decide) (t / 4096)
    rw [show 2 ^ 12 * (t / 4096) = t by omega] at this
    exact this.symm
  rw [hor, Nat.and_one_is_mod, pageBits_eq (by omega)]
  omega

theorem frame_offset {a : Nat} (ha : a < 4294967296) :
    add32 (frameToAddr (a / 0x1000)) (a &&& 0x0FFF) = a := by
  have hand : a &&& 0x0FFF = a % 4096 := Nat.and_two_pow_sub_one_eq_mod a 12
  rw [hand, frameToAddr, add32_eq (by omega)]
  omega

section
variable {n : Nat} {M : Kernel} (h : Initialized n M)
include h

theorem Initialized.translate_eq {d a : Nat} (hd : d ∈ M.liveDirectories) (ha : a < 4294967296)
    (hT : M.paging.kernelTable (a / 0x1000 / 1024) ≠ 0) :
    Machine.translate M.paging d a =
      if (M.paging.page (M.paging.pageAt (a / 0x1000))).present then
        some (add32 (frameToAddr (M.paging.page (M.paging.pageAt (a / 0x1000))).frame)
          (a &&& 0x0FFF))
      else none := by
  obtain ⟨hreg, -⟩ := h.tables _ (by omega) hT
  have hin := h.bumped.inside _ hreg
  have hhigh := h.bumped.high
  rw [kheapStart_eq] at hhigh
  have hal := h.bumped.aligned _ hreg rfl
  simp only [sizeofTable] at hin hal
  obtain ⟨h1, h2⟩ := tableEntry hal (by omega)
  unfold Machine.translate
  rw [(h.shares hd (by omega) hT).2, if_neg h1, h2]
  rfl

/-- An address below `base_address` lies on a page mapped to the frame of its number. -/
theorem Initialized.identity_page {a : Nat} (ha : a < M.allocator.baseAddress) :
    M.paging.kernelTable (a / 0x1000 / 1024) ≠ 0 ∧
    (M.paging.page (M.paging.pageAt (a / 0x1000))).present = true ∧
    (M.paging.page (M.paging.pageAt (a / 0x1000))).frame = a / 0x1000 := by
  obtain ⟨K, k, hb, hK, -, -⟩ := h.identity
  exact hb.identity _ (by omega)

end

/-- What `memory::Initialize` owes the memory given before the heap. -/
structure IdentityMapped (M : Kernel) : Prop where
  apart : M.allocator.regions.Pairwise fun r s => s.addr + s.size ≤ r.addr
  aligned : ∀ r ∈ M.allocator.regions, r.pageAlign = true → r.addr % 0x1000 = 0
  below : ∀ r ∈ M.allocator.regions, r.addr + r.size ≤ M.allocator.baseAddress
  identity : ∀ a < M.allocator.baseAddress,
    Machine.translate M.paging M.paging.kernelDirectory a = some a ∧
    Machine.translate M.paging M.paging.currentDirectory a = some a ∧
    M.getPhysicalAddress a = .ok a
  heapPages : ∀ a p, kheapStart ≤ a → a < uheapEnd →
    Machine.translate M.paging M.paging.kernelDirectory a = some p ∨
      Machine.translate M.paging M.paging.currentDirectory a = some p →
    ∀ b < M.allocator.baseAddress, p / 0x1000 ≠ b / 0x1000

theorem Initialized.identityMapped {n : Nat} {M : Kernel} (h : Initialized n M) :
    IdentityMapped M := by
  have hhigh := h.bumped.high
  rw [kheapStart_eq] at hhigh
  have hkernel : M.paging.kernelDirectory ∈ M.liveDirectories := by
    rw [h.directories]
    simp
  have hcurrent : M.paging.currentDirectory ∈ M.liveDirectories := by
    rw [h.directories, h.current]
    simp
  have hid : ∀ d ∈ M.liveDirectories, ∀ a < M.allocator.baseAddress,
      Machine.translate M.paging d a = some a := fun d hd a ha => by
    obtain ⟨hT, hp, hf⟩ := h.identity_page ha
    rw [h.translate_eq hd (by omega) hT, if_pos hp, hf, frame_offset (by omega)]
  refine ⟨h.bumped.apart, h.bumped.aligned, h.bumped.inside, fun a ha =>
    ⟨hid _ hkernel a ha, hid _ hcurrent a ha, ?_⟩, fun a p h1 h2 hp b hb => ?_⟩
  · obtain ⟨hT, -, hf⟩ := h.identity_page ha
    have hcur := (h.shares hcurrent (by omega) hT).1
    unfold getPhysicalAddress
    rw [getPage_some (by rw [hcur]; exact hT), ok_bind, hcur]
    show Except.ok (add32 (frameToAddr (M.paging.page (M.paging.pageAt (a / 0x1000))).frame) _) = _
    rw [hf, frame_offset (by omega)]
  · rw [kheapStart_eq] at h1
    rw [uheapEnd] at h2
    have hT : M.paging.kernelTable (a / 0x1000 / 1024) ≠ 0 := h.held _ ⟨by omega, by omega⟩
    rw [h.translate_eq hkernel (by omega) hT, h.translate_eq hcurrent (by omega) hT, or_self] at hp
    obtain ⟨K, k, hback, hK, -, -⟩ := h.identity
    obtain ⟨hpres, hp⟩ : (M.paging.page (M.paging.pageAt (a / 0x1000))).present = true ∧
        add32 (frameToAddr (M.paging.page (M.paging.pageAt (a / 0x1000))).frame)
          (a &&& 0x0FFF) = p := by
      split at hp
      · exact ⟨‹_›, Option.some.inj hp⟩
      · cases hp
    -- the frame is the page's number, or one above the identity mapping
    have hframe : b / 0x1000 < (M.paging.page (M.paging.pageAt (a / 0x1000))).frame ∧
        (M.paging.page (M.paging.pageAt (a / 0x1000))).frame < 0x100000 := by
      have hfits := hback.fits
      have hsize := hback.size
      by_cases hv : a / 0x1000 < K
      · rw [(hback.identity _ hv).2.2]
        omega
      · rcases hback.above _ (by omega) (by omega) hT with ⟨-, h0⟩ | h0
        · rw [h0] at hpres
          cases hpres
        · omega
    have hand : a &&& 0x0FFF = a % 4096 := Nat.and_two_pow_sub_one_eq_mod a 12
    rw [hand, frameToAddr, add32_eq (by omega)] at hp
    omega

/-- **Bootstrap memory is identity mapped**, for every start of `base_address` from a page on and
every memory size, when `memory::Initialize` returns and what it gave before the heap lies below
the kernel heap. -/
theorem bootstrap_identity {rounds memEnd : Nat} {fresh : Mem} {M M' : Kernel} (h : Start M)
    (hok : memoryInitialize rounds fresh memEnd M = .ok M') (hb : Below M') : IdentityMapped M' :=
  (memoryInitialize_ok h hok hb).identityMapped

/-- An image that ends at 2 MiB, on a machine of 64 MiB. -/
theorem bootstrap_identity_image : ∃ M', memoryInitialize 1 (fun _ => 0) 65536 (image 0x200000) =
    .ok M' ∧ Below M' ∧ IdentityMapped M' := by
  obtain ⟨M', h, hb, -⟩ := image_initialized
  exact ⟨M', h, hb, bootstrap_identity (start_image (by decide) (by decide)) h hb⟩

end Kernel

end Dmanix
