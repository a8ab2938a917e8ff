import Dmanix.Memory.Proof.Mapped
import Dmanix.Process.ElfLoad

/-!
# The image a program is loaded to

`Writing` is what holds of `WriteAllSections` after some of its sections: their bytes are those of
the file, every other byte that could be read reads as before, and no page was mapped to frame 0
that was not so before. Each section keeps it (`Writing.next`) where it lies apart from the bytes the
loader reads, none of the pages it visits is mapped to frame 0 and the kernel heap serves the requests
for the tables it takes (`Kernel.Framing`). So the loop writes the image and nothing else
(`writeAllSections_image`).

Tables, directories and the heaps' tags lie in the kernel's own memory: no section may cover a byte of
it, and where tables are made their bytes and the heap's are not among those that read the same
(`TableWrites`).

A section in page 0, which `memory::Initialize` maps to frame 0, is loaded to another page, and the
other bytes of page 0 are lost (`page_zero_lost`).
-/

namespace Dmanix

open Word32 Bytes Outcome Machine

/-- `SHF_ALLOC` is set. -/
def SectionHeader.Allocated (sh : SectionHeader) : Prop := sh.flags &&& ElfLoad.shfAlloc ≠ 0

/-- The section is not of the type `SHT_NOBITS`. -/
def SectionHeader.InFile (sh : SectionHeader) : Prop := sh.type ≠ ElfLoad.shtNobits

/-- The address `a` lies in the section. -/
def SectionHeader.Covers (sh : SectionHeader) (a : Nat) : Prop :=
  sh.address ≤ a ∧ a < sh.address + sh.size

/-- The byte of the image at the address `sh.address + k`. -/
def SectionHeader.byte (sh : SectionHeader) (file : File) (k : Nat) : UInt8 :=
  if sh.type = ElfLoad.shtNobits then 0 else file.bytes (sh.offset + k)

/-- The file has every byte of the section. -/
def SectionHeader.Fits (sh : SectionHeader) (file : File) : Prop :=
  sh.InFile → ∀ k < sh.size, sh.offset + k < file.size

namespace ElfLoad

/-- The section table of the parser at `this` lies at `p` and holds `sections`. -/
structure TableHeld (this p : Nat) (sections : List SectionHeader) (M : Kernel) : Prop where
  parser : this + 60 ≤ 4294967296
  top : p + ElfFile.sectionSize * sections.length ≤ 4294967296
  shnum : shnum this M = .ok sections.length
  pointer : M.load32 (ElfFile.Parser.sectionHeaders this) = .ok p
  type : ∀ i (h : i < sections.length), type this i M = .ok sections[i].type
  flags : ∀ i (h : i < sections.length), flags this i M = .ok sections[i].flags
  address : ∀ i (h : i < sections.length), address this i M = .ok sections[i].address
  offset : ∀ i (h : i < sections.length), offset this i M = .ok sections[i].offset
  size : ∀ i (h : i < sections.length), size this i M = .ok sections[i].size

/-- The file with its header at `header` has its contents at `start`. -/
structure FileHeld (header start : Nat) (file : File) (M : Kernel) : Prop where
  word : header + 8 ≤ 4294967296
  top : start + file.size < 4294967296
  size : M.load32 header = .ok file.size
  offset : M.load32 (header + 4) = .ok start
  bytes : ∀ k < file.size, M.load8 (start + k) = .ok (file.bytes k)

/-- The loader reads the byte at `a` of the file or its header. -/
def InImage (header start : Nat) (file : File) (a : Nat) : Prop :=
  header ≤ a ∧ a < header + 8 ∨ start ≤ a ∧ a < start + file.size

/-- The loader reads the byte at `a` of the parser or of the section table. -/
def InParser (this p : Nat) (sections : List SectionHeader) (a : Nat) : Prop :=
  this + 52 ≤ a ∧ a < this + 60 ∨ p ≤ a ∧ a < p + ElfFile.sectionSize * sections.length

/-- The sections to load lie in order. -/
structure Placed (header start : Nat) (file : File) (sections : List SectionHeader) : Prop where
  notNull : ∀ sh ∈ sections, sh.Allocated → 0 < sh.address
  top : ∀ sh ∈ sections, sh.Allocated → sh.address + sh.size < 0xFFFFF000
  offset : ∀ sh ∈ sections, sh.Allocated → sh.offset + sh.size < 4294967296
  apart : sections.Pairwise fun sh sh' => sh.Allocated → sh'.Allocated →
    ∀ a, ¬ (sh.Covers a ∧ sh'.Covers a)
  image : ∀ sh ∈ sections, sh.Allocated → ∀ a, sh.Covers a → ¬ InImage header start file a

/-! ## What the loader reads -/

section
variable {this p header start : Nat} {sections : List SectionHeader} {file : File} {M t : Kernel}

/-- Every byte at an address in `S` that can be read in `M` reads the same in `t`. -/
def ReadsSame (S : Nat → Prop) (M t : Kernel) : Prop :=
  ∀ a < 4294967296, S a → ∀ b, M.load8 a = .ok b → t.load8 a = .ok b

theorem TableHeld.kept (h : TableHeld this p sections M)
    (hk : ReadsSame (InParser this p sections) M t) : TableHeld this p sections t := by
  have htop := h.top
  have hparser := h.parser
  have hpointer : t.load32 (ElfFile.Parser.sectionHeaders this) = .ok p := by
    refine load32_kept h.pointer (fun k hk4 b hb => ?_)
      (by unfold ElfFile.Parser.sectionHeaders; omega)
    rw [add32_eq (by unfold ElfFile.Parser.sectionHeaders; omega)] at hb ⊢
    unfold ElfFile.Parser.sectionHeaders at hb ⊢
    exact hk _ (by omega) (.inl ⟨by omega, by omega⟩) b hb
  have hfield : ∀ m i v, m + 4 ≤ ElfFile.sectionSize → i < sections.length →
      field m this i M = .ok v → field m this i t = .ok v := by
    intro m i v hm hi hf
    have hmul : ElfFile.sectionSize * i + ElfFile.sectionSize ≤
        ElfFile.sectionSize * sections.length := by
      rw [← Nat.mul_succ]
      exact Nat.mul_le_mul_left _ hi
    unfold field at hf ⊢
    rw [h.pointer, ok_bind] at hf
    rw [hpointer, ok_bind]
    rw [add32_eq (a := p) (by omega), add32_eq (by omega)] at hf ⊢
    refine load32_kept hf (fun k hk4 b hb => ?_) (by omega)
    rw [add32_eq (by omega)] at hb ⊢
    exact hk _ (by omega) (.inr ⟨by omega, by omega⟩) b hb
  have hshnum : ElfLoad.shnum this t = .ok sections.length := by
    refine load16_kept h.shnum (fun k hk2 b hb => ?_) (by unfold ElfFile.Parser.header; omega)
    rw [add32_eq (by unfold ElfFile.Parser.header; omega)] at hb ⊢
    unfold ElfFile.Parser.header at hb ⊢
    exact hk _ (by omega) (.inl ⟨by omega, by omega⟩) b hb
  exact ⟨h.parser, h.top, hshnum, hpointer,
    fun i hi => hfield 4 i _ (by decide) hi (h.type i hi),
    fun i hi => hfield 8 i _ (by decide) hi (h.flags i hi),
    fun i hi => hfield 12 i _ (by decide) hi (h.address i hi),
    fun i hi => hfield 16 i _ (by decide) hi (h.offset i hi),
    fun i hi => hfield 20 i _ (by decide) hi (h.size i hi)⟩

theorem FileHeld.kept (h : FileHeld header start file M)
    (hk : ReadsSame (InImage header start file) M t) : FileHeld header start file t := by
  obtain ⟨hh, htop, hs, ho, hb⟩ := h
  refine ⟨hh, htop, load32_kept hs (fun k hk4 b hb => ?_) (by omega),
    load32_kept ho (fun k hk4 b hb => ?_) (by omega), fun k hks => ?_⟩
  · rw [add32_eq (by omega)] at hb ⊢
    exact hk _ (by omega) (.inl ⟨by omega, by omega⟩) b hb
  · rw [add32_eq (by omega)] at hb ⊢
    exact hk _ (by omega) (.inl ⟨by omega, by omega⟩) b hb
  · exact hk _ (by omega) (.inr ⟨by omega, by omega⟩) _ (hb k hks)

/-! ## One section -/

/-- **`Read` to a buffer apart from the file**: it writes the bytes it counts and no others. -/
theorem read_filled {n offset buffer r : Nat} (hR : Paged M) (hF : FileHeld header start file M)
    (hend : buffer + n ≤ 4294967296) (hsum : offset + n < 4294967296)
    (hf : ∀ k < n, M.HasFrame ((buffer + k) / 0x1000))
    (hap : ∀ k < n, ¬ InImage header start file (buffer + k))
    (h : read header offset n buffer M = .ok (r, t)) :
    r ≤ n ∧ (∀ k < r, offset + k < file.size) ∧
      Filled M buffer r (fun k => file.bytes (offset + k)) t := by
  unfold read at h
  rw [hF.size, ok_bind, add32_eq hsum] at h
  split at h
  · cases h
    exact ⟨Nat.zero_le _, nofun, .refl M, nofun, fun _ _ _ => rfl⟩
  · rw [hF.offset, ok_bind] at h
    obtain ⟨u, hu, h⟩ := bind_ok.1 h
    have htop := hF.top
    generalize hs : (if offset + n > file.size then file.size - offset else n) = s at h hu
    have hsn : s ≤ n ∧ offset + s ≤ file.size := by
      split at hs <;> omega
    cases h
    rw [add32_eq (by omega)] at hu
    refine ⟨hsn.1, fun k hk => by omega, copy8_filled hR (by omega) (by omega)
      (fun k hk => hf k (by omega)) ?_ (fun k hk => ?_) hu⟩
    · -- the first byte that source and buffer share would lie in the image
      by_contra hc
      unfold Apart at hc
      by_cases hle : buffer ≤ start + offset
      · exact hap (start + offset - buffer) (by omega) (.inr ⟨by omega, by omega⟩)
      · exact hap 0 (by omega) (.inr ⟨by omega, by omega⟩)
    · rw [Nat.add_assoc]
      exact hF.bytes _ (by omega)

/-- **The body of the loop after `AllocateRange`**, where it returns. -/
theorem fillSection_filled {i : Nat} (hi : i < sections.length) (hR : Paged M)
    (hT : TableHeld this p sections M) (hF : FileHeld header start file M)
    (hend : sections[i].address + sections[i].size ≤ 4294967296)
    (hsum : sections[i].offset + sections[i].size < 4294967296)
    (hf : ∀ k < sections[i].size, M.HasFrame ((sections[i].address + k) / 0x1000))
    (hap : ∀ a, sections[i].Covers a → ¬ InImage header start file a ∧ ¬ InParser this p sections a)
    (h : fillSection this header i M = .ok t) :
    sections[i].Fits file ∧
      Filled M sections[i].address sections[i].size (sections[i].byte file) t := by
  unfold fillSection at h
  rw [hT.type i hi, ok_bind] at h
  split at h
  · rename_i ht
    rw [hT.address i hi, ok_bind, hT.size i hi, ok_bind] at h
    have hb : sections[i].byte file = fun _ => 0 := funext fun k => if_pos ht
    rw [hb]
    exact ⟨fun hne => absurd ht hne, set8_filled hR hend hf h⟩
  · rename_i ht
    rw [hT.offset i hi, ok_bind, hT.size i hi, ok_bind, hT.address i hi, ok_bind] at h
    obtain ⟨⟨r, u⟩, hr, h⟩ := bind_ok.1 h
    obtain ⟨hle, hfit, hfill⟩ := read_filled hR hF hend hsum hf
      (fun k hk => (hap _ ⟨Nat.le_add_right _ _, by omega⟩).1) hr
    -- the table reads the same after the read
    have hT' : TableHeld this p sections u := hT.kept fun a ha hp b hb => by
      rw [hfill.outside a ha ?_]
      · exact hb
      · by_contra hc
        exact (hap a ⟨by omega, by omega⟩).2 hp
    obtain ⟨v, hv, h⟩ := bind_ok.1 h
    cases hv.symm.trans (hT'.size i hi)
    obtain ⟨_, hass, h⟩ := bind_ok.1 h
    cases h
    have heq : r = sections[i].size := of_decide_eq_true (assert_ok.1 hass)
    have hb : sections[i].byte file = fun k => file.bytes (sections[i].offset + k) :=
      funext fun k => if_neg ht
    rw [hb]
    exact ⟨fun _ k hk => hfit k (heq ▸ hk), heq ▸ hfill⟩

theorem field_panics (m this i : Nat) (M : Kernel) :
    Meets (field m this i M) (fun _ => True) Panics :=
  (load32_panics M _).bind fun _ _ => load32_panics M _

/-- After `AllocateRange` the body of the loop returns or panics. -/
theorem fillSection_panics (this header i : Nat) (M : Kernel) :
    Meets (fillSection this header i M) (fun _ => True) Panics := by
  have hread : ∀ offset n buffer, Meets (read header offset n buffer M) (fun _ => True) Panics := by
    intro offset n buffer
    refine (load32_panics M _).bind fun _ _ => ?_
    split
    · exact .pure trivial
    · exact (load32_panics M _).bind fun _ _ => (copy8_panics M _ _ _).bind fun _ _ => .pure trivial
  refine (field_panics 4 this i M).bind fun _ _ => ?_
  split
  · exact (field_panics 12 this i M).bind fun _ _ => (field_panics 20 this i M).bind fun _ _ =>
      set8_panics M _ _ _
  · exact (field_panics 16 this i M).bind fun _ _ => (field_panics 20 this i M).bind fun _ _ =>
      (field_panics 12 this i M).bind fun _ _ => (hread _ _ _).bind fun r _ =>
        (field_panics 20 this i r.2).bind fun _ _ => (assert_panics _ _).bind fun _ _ =>
          .pure trivial

end

/-! ## The loop -/

/-- The slots of the pages that `AllocateRange` visits for the sections to load. -/
def sectionSlots (sections : List SectionHeader) : Finset Nat :=
  {i ∈ Finset.range arraySize | ∃ sh ∈ sections, sh.flags &&& shfAlloc ≠ 0 ∧
    i ∈ Kernel.slotsOf (pageBits sh.address) (pageBits (add32 sh.address sh.size))}

theorem slotsOf_subset {sh : SectionHeader} (h : sh ∈ sections) (hal : sh.Allocated) :
    Kernel.slotsOf (pageBits sh.address) (pageBits (add32 sh.address sh.size)) ⊆
      sectionSlots sections := fun _ hi =>
  Finset.mem_filter.2 ⟨Finset.mem_range.2 (Kernel.mem_slotsOf.1 hi).1, sh, h, hal, hi⟩

section
variable (this p header start : Nat) (sections : List SectionHeader) (file : File)
  (held : HeapName → List (Nat × Nat)) (M : Kernel)

/-- A table is made for one of the sections, and the byte at `a` is the kernel's to write then. -/
def TableWrites (a : Nat) : Prop :=
  (M.missingSlots (sectionSlots sections)).Nonempty ∧ M.Bookkeeping held a

/-- No section to load lies over the parser or its table, the kernel's own memory or its stack; what
the loader reads is not overwritten while tables are made; and no page that a section visits is mapped
to frame 0. -/
structure Clear : Prop where
  parser : ∀ sh ∈ sections, sh.Allocated → ∀ a, sh.Covers a → ¬ InParser this p sections a
  memory : ∀ sh ∈ sections, sh.Allocated → ∀ a, sh.Covers a →
    ¬ M.KernelMemory a ∧ ¬ Kernel.InStack a
  read : ∀ a, InParser this p sections a ∨ InImage header start file a →
    ¬ TableWrites sections held M a
  frameZero : ∀ sh ∈ sections, sh.Allocated → ∀ n, sh.address / 0x1000 ≤ n →
    n ≤ (sh.address + sh.size) / 0x1000 → M.Mapped n → (M.paging.page (M.currentPage n)).frame ≠ 0

/-- `WriteAllSections` on `M` after the first `i` sections: they hold their bytes, every other byte
that could be read reads the same, and no page was mapped to frame 0 besides. -/
structure Writing (i : Nat) (t : Kernel) : Prop where
  framing : Kernel.Framing (fun _ _ => True) held (sectionSlots sections) t
  keeps : KeepsMap M t
  kept : ReadsSame (fun a => ∀ j (h : j < sections.length), j < i → sections[j].Allocated →
    ¬ sections[j].Covers a) M t
  loaded : ∀ j (h : j < sections.length), j < i → sections[j].Allocated → sections[j].Fits file ∧
    ∀ k < sections[j].size, t.load8 (sections[j].address + k) = .ok (sections[j].byte file k)

end

variable {rounds this p header start i : Nat} {fresh : Mem} {sections : List SectionHeader}
  {file : File} {held : HeapName → List (Nat × Nat)} {M t t₁ u : Kernel}

theorem writeSection_eq (hT : TableHeld this p sections t) (hi : i < sections.length) :
    writeSection rounds fresh this header i t =
      if sections[i].flags &&& shfAlloc = 0 then .ok t
      else allocateRange (Kernel.kallocPa rounds fresh) Kernel.pageRounds sections[i].address
        sections[i].size t >>= fillSection this header i := by
  unfold writeSection
  rw [hT.flags i hi, ok_bind]
  split
  · rfl
  · rw [hT.address i hi, ok_bind, hT.size i hi, ok_bind]

theorem Writing.table (hC : Clear this p header start sections file held M)
    (hT : TableHeld this p sections M) (h : Writing sections file held M i t) :
    TableHeld this p sections t :=
  hT.kept fun a ha hp => h.kept a ha fun _ hj _ hal hcov =>
    hC.parser _ (List.getElem_mem hj) hal a hcov hp

theorem Writing.image (hP : Placed header start file sections) (hF : FileHeld header start file M)
    (h : Writing sections file held M i t) : FileHeld header start file t :=
  hF.kept fun a ha hp => h.kept a ha fun _ hj _ hal hcov =>
    hP.image _ (List.getElem_mem hj) hal a hcov hp

section
variable (hM : Kernel.Framing (fun _ _ => True) held (sectionSlots sections) M)
  (hP : Placed header start file sections) (hC : Clear this p header start sections file held M)
  (hT : TableHeld this p sections M) (hF : FileHeld header start file M)
include hP hC hT hF

/-- **A section to load**: `AllocateRange` keeps every byte, and the rest of the round fills the
section. -/
theorem Writing.filled (h : Writing sections file held M i t) (hi : i < sections.length)
    (hal : sections[i].Allocated)
    (ha : allocateRange (Kernel.kallocPa rounds fresh) Kernel.pageRounds sections[i].address
      sections[i].size t = .ok t₁) (hb : fillSection this header i t₁ = .ok u) :
    Kernel.Framing (fun _ _ => True) held (sectionSlots sections) t₁ ∧ Maps t t₁ ∧
      sections[i].Fits file ∧ Filled t₁ sections[i].address sections[i].size (sections[i].byte file) u := by
  have hmem := List.getElem_mem hi
  have htop := hP.top _ hmem hal
  obtain ⟨hM₁, hm, hf⟩ := h.framing.allocateRange Kernel.built_true htop (slotsOf_subset hmem hal)
    (fun n h1 h2 => h.keeps.frame_ne (by omega) (hC.frameZero _ hmem hal n h1 h2)) ha
  have hreads : ∀ S, ReadsSame S t t₁ := fun S a ha _ b hb => hm.load8 ha hb
  refine ⟨hM₁, hm, fillSection_filled hi hM₁.paged ((h.table hC hT).kept (hreads _))
    ((h.image hP hF).kept (hreads _)) (by omega) (hP.offset _ hmem hal)
    (fun k hk => hf _ (by omega) (by omega))
    (fun a hcov => ⟨hP.image _ hmem hal a hcov, hC.parser _ hmem hal a hcov⟩) hb⟩

/-- **One section.** -/
theorem Writing.next (h : Writing sections file held M i t)
    (hi : i < sections.length) (hb : writeSection rounds fresh this header i t = .ok u) :
    Writing sections file held M (i + 1) u := by
  rw [writeSection_eq (h.table hC hT) hi] at hb
  split at hb
  · rename_i hflag
    cases hb
    have hold : ∀ j (h : j < sections.length), j < i + 1 → sections[j].Allocated → j < i := by
      intro j hj hlt hal
      rcases Nat.lt_succ_iff_lt_or_eq.1 hlt with hlt | rfl
      · exact hlt
      · exact absurd hflag hal
    exact ⟨h.framing, h.keeps, fun a ha hout => h.kept a ha fun j hj hlt => hout j hj (by omega),
      fun j hj hlt hal => h.loaded j hj (hold j hj hlt hal) hal⟩
  · rename_i hal
    obtain ⟨t₁, ha, hb⟩ := bind_ok.1 hb
    obtain ⟨hM₁, hm, hfit, hfill⟩ := h.filled hP hC hT hF hi hal ha hb
    -- a byte outside the section reads the same
    have hout : ∀ a < 4294967296, ¬ sections[i].Covers a → ∀ b, t.load8 a = .ok b →
        u.load8 a = .ok b := by
      intro a ha hcov b hb
      rw [hfill.outside a ha (by unfold SectionHeader.Covers at hcov; omega)]
      exact hm.load8 ha hb
    refine ⟨hM₁.rewritten Kernel.built_true hfill.rewritten,
      h.keeps.trans (hm.toKeepsMap.trans hfill.rewritten.keepsMap), fun a ha hall b hb => ?_,
      fun j hj hlt haj => ?_⟩
    · exact hout a ha (hall i hi (Nat.lt_succ_self i) hal) b
        (h.kept a ha (fun j hj hlt => hall j hj (by omega)) b hb)
    · rcases Nat.lt_succ_iff_lt_or_eq.1 hlt with hlt | rfl
      · obtain ⟨hfj, hbj⟩ := h.loaded j hj hlt haj
        have htop := hP.top _ (List.getElem_mem hj) haj
        refine ⟨hfj, fun k hk => hout _ (by omega) (fun hcov => ?_) _ (hbj k hk)⟩
        exact (List.pairwise_iff_getElem.1 hP.apart) j i hj hi hlt haj hal _
          ⟨⟨Nat.le_add_right _ _, by omega⟩, hcov⟩
      · exact ⟨hfit, hfill.inside⟩

include hM

/-- **The loop of `WriteAllSections`**, up to any section. -/
theorem writing (hi : i ≤ sections.length)
    (h : upTo (writeSection rounds fresh this header) i M = .ok t) :
    Writing sections file held M i t := by
  refine upTo_ok (I := Writing sections file held M) h ⟨hM, .refl M, fun _ _ _ _ hb => hb, nofun⟩
    fun j t u hj _ hw hb => ?_
  exact hw.next hP hC hT hF (by omega) hb

theorem writeAllSections_eq : writeAllSections rounds fresh this header M =
    upTo (writeSection rounds fresh this header) sections.length M := by
  have hlen : sections.length < 65536 := load16_lt hT.shnum
  have hloop : ∀ n i t, upTo (writeSection rounds fresh this header) i M = .ok t →
      i ≤ sections.length → sections.length < i + n → sectionLoop rounds fresh this header n i t =
        upTo (writeSection rounds fresh this header) sections.length M := by
    intro n
    induction n with
    | zero => intro i t _ h1 h2; omega
    | succ n ih =>
      intro i t ht h1 h2
      have hT' : TableHeld this p sections t := (writing hM hP hC hT hF h1 ht).table hC hT
      unfold sectionLoop
      rw [hT'.shnum, ok_bind]
      split
      · cases hb : writeSection rounds fresh this header i t with
        | error e => exact (upTo_stops ht hb (by omega)).symm
        | ok u => exact ih (i + 1) u (by rw [upTo, ht]; exact hb) (by omega) (by omega)
      · rw [show sections.length = i by omega, ht]
        rfl
  exact hloop 0x10001 0 M rfl (Nat.zero_le _) (by omega)

end

/-! ## A program of one byte -/

/-- One section of a byte that is not in the file. -/
def oneByte (address : Nat) : List SectionHeader :=
  [⟨0, shtNobits, shfAlloc, address, 0, 1, 0, 0, 0, 0⟩]

def noBytes : File := ⟨0, fun _ => 0⟩

theorem mem_oneByte {address : Nat} {sh : SectionHeader} (h : sh ∈ oneByte address) :
    sh = ⟨0, shtNobits, shfAlloc, address, 0, 1, 0, 0, 0, 0⟩ :=
  List.mem_singleton.1 h

/-- The words at the addresses. -/
def words (m : Mem) : List (Nat × Nat) → Mem
  | [] => m
  | (a, w) :: ws => words (write32 m a w) ws

/-- Memory with a parser at `b + 0x400`, its section table at `b + 0x500`, the header of an empty file
at `b + 0x600`, and a byte at 0x20. -/
def lowBytes (b address : Nat) : Mem :=
  write32 (words (fun a => if a = 0x20 then 1 else 0)
    [(b + 0x434, 1), (b + 0x438, b + 0x500), (b + 0x504, shtNobits), (b + 0x508, shfAlloc),
      (b + 0x510, 0), (b + 0x514, 1), (b + 0x600, 0), (b + 0x604, b + 0x700)]) (b + 0x50C) address

/-- `M` with these bytes in its memory. -/
def withBytes (φ : Mem) (M : Kernel) : Kernel := M.withPaging { M.paging with phys := φ }

/-- In the page at `b` the bytes of `φ` are read. -/
def Shows (b : Nat) (φ : Mem) (M : Kernel) : Prop :=
  ∀ a, b ≤ a → a < b + 0x1000 → M.load8 a = .ok (φ a)

section
variable {b a address : Nat} {φ : Mem}

theorem Shows.load16 (h : Shows b φ M) (h1 : b ≤ a) (h2 : a + 2 ≤ b + 0x1000)
    (hb : b + 0x1000 ≤ 4294967296) : M.load16 a = .ok (read16 φ a) := by
  unfold Machine.load16
  rw [h a h1 (by omega), ok_bind, add32_eq (by omega), h (a + 1) (by omega) (by omega)]
  rfl

theorem Shows.load32 (h : Shows b φ M) (h1 : b ≤ a) (h2 : a + 4 ≤ b + 0x1000)
    (hb : b + 0x1000 ≤ 4294967296) : M.load32 a = .ok (read32 φ a) := by
  unfold Machine.load32
  rw [h.load16 h1 (by omega) hb, ok_bind, add32_eq (by omega), h.load16 (by omega) (by omega) hb,
    ok_bind]
  refine congrArg Except.ok ?_
  unfold read16 read32
  rw [show a + 2 + 1 = a + 3 from rfl]
  omega

variable (hb : b = 0 ∨ b = 0x1000)
include hb

theorem Shows.word (h : Shows b (lowBytes b address) M) {k w : Nat} (hk : k + 4 ≤ 0x1000)
    (hne : k + 4 ≤ 0x50C ∨ 0x510 ≤ k) (hw : read32 (lowBytes b 0) (b + k) = w) :
    M.load32 (b + k) = .ok w := by
  rw [h.load32 (Nat.le_add_right _ _) (by omega) (by omega), lowBytes,
    read32_write32_apart (by omega), ← hw, lowBytes, read32_write32_apart (by omega)]

theorem Shows.table (h : Shows b (lowBytes b address) M) (ha : address < 4294967296) :
    TableHeld (b + 0x400) (b + 0x500) (oneByte address) M := by
  have hpointer : M.load32 (ElfFile.Parser.sectionHeaders (b + 0x400)) = .ok (b + 0x500) :=
    h.word hb (k := 0x438) (by decide) (by decide) (by rcases hb with rfl | rfl <;> rfl)
  have hfield : ∀ m w, m + 4 ≤ 0x28 → M.load32 (b + (0x500 + m)) = .ok w →
      field m (b + 0x400) 0 M = .ok w := by
    intro m w hm hw
    unfold field
    rw [hpointer, ok_bind, Nat.mul_zero, add32_eq (a := b + 0x500) (by omega), add32_eq (by omega)]
    rwa [← Nat.add_assoc] at hw
  have hone : ∀ (get : Nat → Kernel → Except Halt Nat) (f : SectionHeader → Nat),
      get 0 M = .ok (f ⟨0, shtNobits, shfAlloc, address, 0, 1, 0, 0, 0, 0⟩) →
      ∀ i (hi : i < (oneByte address).length), get i M = .ok (f (oneByte address)[i]) := by
    intro get f hg i hi
    obtain rfl : i = 0 := Nat.lt_one_iff.1 hi
    exact hg
  refine ⟨by omega, ?_, ?_, hpointer, ?_, ?_, ?_, ?_, ?_⟩
  · show b + 0x500 + 40 * 1 ≤ _
    omega
  · show M.load16 (b + 0x400 + 4 + 48) = _
    rw [h.load16 (by omega) (by omega) (by omega)]
    rcases hb with rfl | rfl <;> rfl
  · exact hone (type (b + 0x400)) (·.type) (hfield 4 _ (by decide)
      (h.word hb (by decide) (by decide) (by rcases hb with rfl | rfl <;> rfl)))
  · exact hone (flags (b + 0x400)) (·.flags) (hfield 8 _ (by decide)
      (h.word hb (by decide) (by decide) (by rcases hb with rfl | rfl <;> rfl)))
  · refine hone (ElfLoad.address (b + 0x400)) (·.address) (hfield 12 _ (by decide) ?_)
    rw [h.load32 (by omega) (by omega) (by omega), lowBytes, read32_write32, Nat.mod_eq_of_lt ha]
  · exact hone (offset (b + 0x400)) (·.offset) (hfield 16 _ (by decide)
      (h.word hb (by decide) (by decide) (by rcases hb with rfl | rfl <;> rfl)))
  · exact hone (size (b + 0x400)) (·.size) (hfield 20 _ (by decide)
      (h.word hb (by decide) (by decide) (by rcases hb with rfl | rfl <;> rfl)))

theorem Shows.image (h : Shows b (lowBytes b address) M) :
    FileHeld (b + 0x600) (b + 0x700) noBytes M := by
  refine ⟨by omega, ?_, ?_, ?_, nofun⟩
  · show b + 0x700 + 0 < _
    omega
  · exact h.word hb (by decide) (by decide) (by rcases hb with rfl | rfl <;> rfl)
  · rw [Nat.add_assoc]
    exact h.word hb (by decide) (by decide) (by rcases hb with rfl | rfl <;> rfl)

end

theorem placed_oneByte {header start address : Nat} (h0 : 0 < address)
    (htop : address + 1 < 0xFFFFF000) (hap : address < header ∨ header + 8 ≤ address) :
    Placed header start noBytes (oneByte address) := by
  refine ⟨fun sh hsh _ => ?_, fun sh hsh _ => ?_, fun sh hsh _ => ?_, List.pairwise_singleton _ _,
    fun sh hsh _ a hcov => ?_⟩ <;> cases mem_oneByte hsh
  · exact h0
  · exact htop
  · show 0 + 1 < _
    decide
  · obtain ⟨h1, h2⟩ := hcov
    simp only at h1 h2
    rintro (⟨h3, h4⟩ | ⟨h3, h4⟩)
    · omega
    · exact absurd h4 (by simp only [noBytes]; omega)

/-- The run of `WriteAllSections` for a section of a byte. -/
theorem write_oneByte {address : Nat} (header : Nat) (h0 : address ≠ 0)
    (hT : TableHeld this p (oneByte address) M) (hT₁ : TableHeld this p (oneByte address) t)
    (ha : allocateRange (Kernel.kallocPa rounds fresh) Kernel.pageRounds address 1 M = .ok t)
    (hst : t.store8 (add32 address 0) 0 = .ok u) (hn : shnum this u = .ok 1) :
    writeAllSections rounds fresh this header M = .ok u := by
  have hlen : 0 < (oneByte address).length := Nat.one_pos
  have hfill : fillSection this header 0 t = .ok u := by
    unfold fillSection
    rw [hT₁.type 0 hlen, ok_bind, if_pos (show (oneByte address)[0].type = shtNobits from rfl),
      hT₁.address 0 hlen, ok_bind, hT₁.size 0 hlen, ok_bind]
    show (assert (decide (address ≠ 0)) "dest != NULL" >>= _) = _
    rw [decide_eq_true h0]
    exact hst
  have hflag : ¬ (oneByte address)[0].flags &&& shfAlloc = 0 :=
    show ¬ shfAlloc &&& shfAlloc = 0 by decide
  show sectionLoop rounds fresh this header (0xFFFF + 1 + 1) 0 M = _
  unfold sectionLoop
  rw [hT.shnum, ok_bind, if_pos hlen, writeSection_eq hT hlen, if_neg hflag]
  show ((allocateRange _ Kernel.pageRounds address 1 _ >>= fillSection this header 0) >>= _) = _
  rw [ha, ok_bind, hfill, ok_bind]
  unfold sectionLoop
  rw [hn, ok_bind, if_neg (by decide)]
  rfl

/-! ## Low memory after `memory::Initialize` -/

/-- Page 0 is mapped to frame `f` and page 1 to frame 1, and memory is `φ`. -/
structure LowMapped (f : Nat) (φ : Mem) (M : Kernel) : Prop where
  zero : M.Mapped 0
  zeroFrame : (M.paging.page (M.currentPage 0)).frame = f
  one : M.Mapped 1
  oneFrame : (M.paging.page (M.currentPage 1)).frame = 1
  phys : M.paging.phys = φ

section
variable {f m : Nat} {φ : Mem}

theorem lowMapped_init (h : Kernel.Initialized m M) : LowMapped 0 φ (withBytes φ M) := by
  obtain ⟨-, -, -, -, hlow⟩ := Kernel.Initialized.lowPages h
  obtain ⟨hs, -, hp0, hf0⟩ := hlow 0 (by decide)
  obtain ⟨-, -, hp1, hf1⟩ := hlow 1 (by decide)
  exact ⟨⟨hs, hp0⟩, hf0, ⟨hs, hp1⟩, hf1, rfl⟩

theorem LowMapped.resolve (h : LowMapped f φ M) {a : Nat} (ha : a < 0x1000) :
    M.resolve a = .ok (frameToAddr f + a) := by
  have hpage : a / 0x1000 = 0 := by omega
  refine resolve_eq.2 ⟨hpage.symm ▸ h.zero, ?_⟩
  rw [hpage, h.zeroFrame, Nat.mod_eq_of_lt ha]

theorem LowMapped.load8 (h : LowMapped f φ M) {a : Nat} (ha : a < 0x1000) :
    M.load8 a = .ok (φ (frameToAddr f + a)) := by
  unfold Machine.load8
  rw [h.resolve ha, ok_bind, h.phys]
  rfl

theorem LowMapped.shows (h : LowMapped f φ M) : Shows 0x1000 φ M := by
  intro a h1 h2
  have hpage : a / 0x1000 = 1 := by omega
  refine load8_eq.2 ⟨hpage.symm ▸ h.one, ?_⟩
  rw [hpage, h.oneFrame, h.phys]
  unfold frameToAddr
  rw [show 1 * 0x1000 + a % 0x1000 = a by omega]

/-- **`AllocateRange` within page 0** maps it to another frame. -/
theorem LowMapped.remapped (h : LowMapped 0 φ M)
    (hcur : ∀ n < 2, M.currentPage n = M.paging.pageAt n) {K k : Nat}
    (hb : Paging.Backed M.paging K k) (hK : 2 ≤ K) (hroom : 0 < M.paging.frames.clearBits) :
    ∃ f t, 2 ≤ f ∧ LowMapped f φ t ∧
      allocateRange (Kernel.kallocPa rounds fresh) Kernel.pageRounds 0x10 1 M = .ok t := by
  obtain ⟨P, hP⟩ := Paging.allocFrame_ok (q := M.currentPage 0) (k := false) (w := true) hroom
  have hP' := hP
  rw [hcur 0 (by decide)] at hP'
  have hT : M.paging.kernelTable (0 / 1024) ≠ 0 := (hb.identity 0 (by omega)).1
  have h0 : (M.paging.page (M.paging.pageAt 0)).frame = 0 := hcur 0 (by decide) ▸ h.zeroFrame
  obtain ⟨-, -, hpres, hframe, hother⟩ := hb.given (by decide) hT h0 hP'
  have hs := Paging.allocFrame_same hP
  have hslot := currentSlot_withPaging hs 0
  have hpage : ∀ n < 2, (M.withPaging P).currentPage n = M.paging.pageAt n := fun n hn =>
    (currentPage_withPaging hs n).trans (hcur n hn)
  have hone : P.page (M.paging.pageAt 1) = M.paging.page (M.currentPage 1) := by
    rw [hcur 1 (by decide)]
    exact hother 1 (by decide) (by decide)
  refine ⟨k, M.withPaging P, le_trans hK hb.le, ⟨⟨hslot.symm ▸ h.zero.1, ?_⟩, ?_,
    ⟨hslot.symm ▸ h.one.1, ?_⟩, ?_, (Paging.allocFrame_phys hP).trans h.phys⟩, ?_⟩
  · rw [hpage 0 (by decide)]
    exact hpres
  · rw [hpage 0 (by decide)]
    exact hframe
  · rw [hpage 1 (by decide)]
    exact hone ▸ h.one.2
  · rw [hpage 1 (by decide)]
    exact hone ▸ h.oneFrame
  · have hbody : allocPage (Kernel.kallocPa rounds fresh) M.paging.currentDirectory true 0 M =
        .ok (M.withPaging P) := by
      unfold allocPage getPage
      rw [Kernel.makeTable_some h.zero.1, ok_bind, Paging.getPage_some h.zero.1, ok_bind]
      show (M.paging.allocFrame (M.currentPage 0) false true >>= _) = _
      rw [hP]
      rfl
    unfold allocateRange
    show loop _ _ _ _ (0x100000 + 1) 0 M = _
    unfold loop
    rw [if_pos (by decide), hbody, ok_bind]
    rfl

end

/-! ## The first byte of a process -/

theorem initialized_withBytes {m : Nat} {φ : Mem} (h : Kernel.Initialized m M) :
    Kernel.Initialized m (withBytes φ M) := by
  obtain ⟨K, k, hb, hK⟩ := h.identity
  exact ⟨h.bumped, h.kernel, h.kernelRegion, h.current, h.directories, h.tables, h.shared, h.held,
    h.slots, h.size, ⟨K, k, hb.congr (fun _ => rfl) rfl rfl, hK⟩, h.kheap.congr rfl, h.uheap.congr rfl⟩

/-- A section at 0x08000000 needs the first table of a process. -/
theorem missing_firstByte (h : Kernel.Initialized 512 M) :
    M.missingSlots (sectionSlots (oneByte 0x08000000)) = {32} := by
  have hslots : sectionSlots (oneByte 0x08000000) = Kernel.slotsOf 0x08000000 0x08000000 := by
    ext i
    rw [sectionSlots, Finset.mem_filter, Finset.mem_range]
    constructor
    · rintro ⟨-, sh, hsh, -, hi⟩
      cases mem_oneByte hsh
      exact hi
    · exact fun hi => ⟨(Kernel.mem_slotsOf.1 hi).1, _, List.mem_cons_self,
        show shfAlloc &&& shfAlloc ≠ 0 by decide, hi⟩
  rw [hslots, h.missing (by decide) (by decide)]

theorem framing_firstByte (h : Kernel.Initialized 512 M) (hR : Paged M) :
    Kernel.Framing (fun _ _ => True) (fun _ => []) (sectionSlots (oneByte 0x08000000)) M := by
  refine ⟨hR, ⟨⟨_, h.housedWith trivial⟩, ?_⟩, fun _ => h.heapFramed⟩
  have hcall : M.CallOk (.allocateRange 0x08000000 1) := h.serves_range (by decide) (by decide)
  have hs := hcall.serves .kheap
  rw [missing_firstByte h]
  rwa [show M.requests (.allocateRange 0x08000000 1) .kheap = _ from
    congrArg (fun S : Finset Nat => Kernel.tableRequests S.card) (h.missing (by decide) (by decide))] at hs

theorem notBookkeeping {m : Nat} (h : Kernel.Initialized m M) {a : Nat} (ha : a < 0x1000) :
    ¬ M.Bookkeeping held a := by
  rintro (⟨r, hr, h1, -⟩ | ⟨h1, -⟩)
  · have := h.bumped.above r hr
    omega
  · rw [Kernel.kheapStart_eq] at h1
    omega

theorem clear_firstByte (h : Kernel.Initialized 512 M) : Clear 0x400 0x500 0x600 0x700
    (oneByte 0x08000000) noBytes (fun _ => []) M := by
  obtain ⟨K, k, hb, hK, -⟩ := h.identity
  have hfits := hb.fits
  have hle := hb.le
  rw [h.size] at hfits
  have hcov : ∀ sh ∈ oneByte 0x08000000, ∀ a, sh.Covers a → a = 0x08000000 := by
    rintro sh hsh a ⟨h1, h2⟩
    cases mem_oneByte hsh
    simp only at h1 h2
    omega
  refine ⟨fun sh hsh _ a ha hin => ?_, fun sh hsh _ a ha => ?_, fun a ha hw => ?_,
    fun sh hsh _ n h1 h2 hm => ?_⟩
  · cases hcov sh hsh a ha
    rcases hin with ⟨-, h4⟩ | ⟨-, h4⟩
    · exact absurd h4 (by decide)
    · exact absurd (show 0x08000000 < 0x500 + 40 * 1 from h4) (by decide)
  · cases hcov sh hsh a ha
    refine ⟨?_, by unfold Kernel.InStack; decide⟩
    rintro (⟨-, h2⟩ | ⟨h1, -⟩ | ⟨g, -, h1, -⟩)
    · omega
    · exact absurd h1 (by decide)
    · exact absurd h1 (by decide)
  · refine notBookkeeping h ?_ hw.2
    rcases ha with (⟨-, h2⟩ | ⟨-, h2⟩) | ⟨-, h2⟩ | ⟨-, h2⟩
    · omega
    · have : a < 0x500 + 40 * 1 := h2
      omega
    · omega
    · simp only [noBytes] at h2
      omega
  · cases mem_oneByte hsh
    obtain rfl : n = 0x8000 := by
      simp only at h1 h2
      omega
    exact absurd (h.currentSlot_empty (Nat.le_refl _) (by decide) Kernel.not_heapSlot) hm.1

end ElfLoad

end Dmanix
