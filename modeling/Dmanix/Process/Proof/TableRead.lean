import Dmanix.Process.ElfFile

/-!
# Where the section table goes

`select_keeps`: nothing after the reading of the table changes the member `section_headers_` or the
buffer, given allocators that leave alone what is in use. So the table is loaded faithfully just
when its reading did so, which `table_loaded` states in terms of the memory before it.
-/

namespace Dmanix

open Bytes Word32

theorem File.read_frame {file : File} {offset size buffer r : Nat} {m m' : Mem}
    (h : file.read offset size buffer m = .ok (r, m')) {a : Nat}
    (ha : ∀ i, i < size → a ≠ add32 buffer i) : m' a = m a := by
  unfold File.read at h
  split at h
  · cases h
    rfl
  · obtain ⟨_, -, h⟩ := bind_ok.1 h
    cases h
    refine fill_outside fun i hi => ha i ?_
    split at hi
    · rename_i hlt
      have : add32 offset size ≤ offset + size := Nat.mod_le _ _
      omega
    · exact hi

theorem File.read_size {file : File} {offset size buffer r : Nat} {m m' : Mem}
    (h : file.read offset size buffer m = .ok (r, m')) :
    r = if offset > file.size then 0
      else if add32 offset size > file.size then file.size - offset else size := by
  by_cases ho : offset > file.size
  · rw [File.read, if_pos ho] at h
    cases h
    rw [if_pos ho]
  · rw [File.read, if_neg ho] at h
    obtain ⟨_, -, h⟩ := bind_ok.1 h
    cases h
    rw [if_neg ho]

/-- A read inside the file delivers what it is asked for. -/
theorem File.read_inside {file : File} {offset size buffer r : Nat} {m m' : Mem}
    (hs : offset + size ≤ file.size) (h : file.read offset size buffer m = .ok (r, m')) :
    r = size ∧ m' = fill m buffer (fun i => file.bytes (offset + i)) size := by
  have hle : add32 offset size ≤ offset + size := Nat.mod_le _ _
  rw [File.read, if_neg (by omega), if_neg (by omega)] at h
  obtain ⟨_, -, h⟩ := bind_ok.1 h
  cases h
  exact ⟨rfl, rfl⟩

namespace ElfFile

/-- The bytes of the parser at `this`. -/
def Object (this a : Nat) : Prop := this ≤ a ∧ a < this + 76

/-- The `n` bytes at the pointer `p`. -/
def Block (p n a : Nat) : Prop := ∃ i, i < n ∧ a = add32 p i

/-- The file holds an ELF header and, inside the file, the section table it describes. -/
structure HoldsTable (file : File) : Prop where
  header : headerSize ≤ file.size
  entry : shentsize file.bytes 0 = sectionSize
  nonempty : 1 ≤ shnum file.bytes 0
  inside : shoff file.bytes 0 + sectionSize * shnum file.bytes 0 ≤ file.size

/-- The number of bytes of the section table. -/
def tableSize (file : File) : Nat := sectionSize * shnum file.bytes 0

/-- The byte `i` of the section table. -/
def table (file : File) (i : Nat) : UInt8 := file.bytes (shoff file.bytes 0 + i)

/-- The file passes the constructor's assertions: a header, entries of the right size, and `Read` gives
all of the table. Where the end of the table goes round, it reads on behind the file. -/
structure Accepted (file : File) : Prop where
  header : headerSize ≤ file.size
  entry : shentsize file.bytes 0 = sectionSize
  table : shnum file.bytes 0 = 0 ∨ shoff file.bytes 0 ≤ file.size ∧
    (shoff file.bytes 0 + tableSize file ≤ file.size ∨
      4294967296 ≤ shoff file.bytes 0 + tableSize file)

theorem HoldsTable.accepted {file : File} (h : HoldsTable file) : Accepted file where
  header := h.header
  entry := h.entry
  table := by
    have := h.inside
    unfold tableSize
    exact .inr ⟨by omega, .inl (by omega)⟩

/-- What the constructor uses once it has read the table into the buffer `p`: the parser, the buffer
and the size of the section that holds the section names. -/
def InUse (this p : Nat) (file : File) (a : Nat) : Prop :=
  Object this a ∨ Block p (tableSize file) a ∨
    ∃ k, k < 4 ∧ a = add32 (add32 p (sectionSize * shstringIndex file.bytes 0)) 20 + k

/-- `kalloc` hands out memory apart from the parser, whose bytes it leaves alone. -/
structure KernelHeap (kalloc : Nat → Mem → Except Halt (Nat × Mem)) (this : Nat) : Prop where
  word : ∀ {n p m m'}, kalloc n m = .ok (p, m') → p < 4294967296
  apart : ∀ {n p m m' a}, kalloc n m = .ok (p, m') → Block p n a → ¬ Object this a
  keeps : ∀ {n p m m' a}, kalloc n m = .ok (p, m') → Object this a → m' a = m a

/-- `ualloc` and `ufree` neither hand out nor change memory in use. -/
structure UserHeap (ualloc : Nat → Mem → Except Halt (Nat × Mem))
    (ufree : Nat → Mem → Except Halt Mem) (inUse : Nat → Prop) : Prop where
  apart : ∀ {n p m m' a}, ualloc n m = .ok (p, m') → Block p n a → ¬ inUse a
  keeps : ∀ {n p m m' a}, ualloc n m = .ok (p, m') → inUse a → m' a = m a
  free_keeps : ∀ {p m m' a}, ufree p m = .ok m' → inUse a → m' a = m a

/-! ## Up to the reading of the table -/

theorem tableSize_lt (file : File) : tableSize file < 4294967296 := by
  have := read16_lt file.bytes (0 + 48)
  unfold tableSize shnum sectionSize
  omega

theorem header_fields {file : File} {m : Mem} {h : Nat}
    (hb : ∀ k, k < headerSize → m (h + k) = file.bytes k) :
    shoff m h = shoff file.bytes 0 ∧ shentsize m h = shentsize file.bytes 0 ∧
      shnum m h = shnum file.bytes 0 ∧ shstringIndex m h = shstringIndex file.bytes 0 := by
  have hk : ∀ o k, o + k < headerSize → m (h + o + k) = file.bytes (0 + o + k) := fun o k hlt => by
    rw [Nat.add_assoc, hb _ hlt, Nat.zero_add]
  unfold headerSize at hk
  refine ⟨read32_shift fun k _ => hk 32 k (by omega), read16_shift fun k _ => hk 46 k (by omega),
    read16_shift fun k _ => hk 48 k (by omega), read16_shift fun k _ => hk 50 k (by omega)⟩

section
variable {kalloc ualloc : Nat → Mem → Except Halt (Nat × Mem)}
  {ufree : Nat → Mem → Except Halt Mem} {this filename p : Nat} {file : File} {m m1 m2 m3 : Mem}

/-- When the reading of the table begins, the parser holds the header and points to its buffer. -/
theorem prepare_ok (hthis : this + 76 ≤ 4294967296) (hf : headerSize ≤ file.size)
    (hk : KernelHeap kalloc this) (h : prepare kalloc this filename file m = .ok (p, m1)) :
    (∀ k, k < headerSize → m1 (Parser.header this + k) = file.bytes k) ∧
      read32 m1 (Parser.sectionHeaders this) = p ∧
      ∀ a, Block p (tableSize file) a → ¬ Object this a := by
  obtain ⟨⟨r, ma⟩, hr, h⟩ := bind_ok.1 h
  obtain ⟨_, -, h⟩ := bind_ok.1 h
  obtain ⟨⟨q, mb⟩, hq, h⟩ := bind_ok.1 h
  obtain ⟨_, -, h⟩ := bind_ok.1 h
  cases h
  obtain ⟨-, rfl⟩ := File.read_inside (by omega) hr
  have hb : ∀ k, k < headerSize → mb (Parser.header this + k) = file.bytes k := fun k hlt => by
    unfold headerSize at hlt
    rw [hk.keeps hq ⟨by unfold Parser.header; omega, by unfold Parser.header; omega⟩]
    have := fill_inside (m := initMembers this filename m) (d := Parser.header this)
      (f := fun i => file.bytes (0 + i)) (n := headerSize) (by decide) hlt
    rwa [add32_eq (by unfold Parser.header; omega), Nat.zero_add] at this
  refine ⟨fun k hlt => ?_, ?_, fun a ha => ?_⟩
  · rw [write32_outside, hb k hlt]
    unfold headerSize at hlt
    unfold Parser.header Parser.sectionHeaders
    omega
  · rw [read32_write32, Nat.mod_eq_of_lt (hk.word hq)]
  · have hn : ∀ k, k < headerSize → _ := fun k hlt =>
      (hk.keeps hq (a := Parser.header this + k)
        ⟨by unfold Parser.header; omega, by unfold Parser.header headerSize at *; omega⟩).symm.trans
        (hb k hlt)
    rw [(header_fields hn).2.2.1] at hq
    exact hk.apart hq ha

theorem read_accepted (hf : Accepted file) {buffer : Nat} (hb : buffer ≠ 0) :
    file.read (shoff file.bytes 0) (tableSize file) buffer m =
      .ok (tableSize file, fill m buffer (table file) (tableSize file)) := by
  have hlt := read32_lt file.bytes (0 + 32)
  have hn : tableSize file ≤ 40 * 65535 := by
    have := read16_lt file.bytes (0 + 48)
    unfold tableSize shnum sectionSize
    omega
  change shoff file.bytes 0 < 4294967296 at hlt
  unfold File.read
  rcases hf.table with h0 | ⟨hle, hin⟩
  · have hz : tableSize file = 0 := by
      rw [tableSize, h0, Nat.mul_zero]
    rw [hz]
    split
    · rfl
    · rw [add32_eq (by omega), Nat.add_zero, if_neg ‹_›, decide_eq_true hb]
      rfl
  · have hadd : ¬ add32 (shoff file.bytes 0) (tableSize file) > file.size := by
      unfold add32
      omega
    rw [if_neg (by omega), if_neg hadd, decide_eq_true hb]
    rfl

/-- The table is written to the address of the member `section_headers_`. -/
theorem readTable_ok (hf : Accepted file)
    (hb : ∀ k, k < headerSize → m1 (Parser.header this + k) = file.bytes k) :
    readTable this file m1 =
      .ok (fill m1 (Parser.sectionHeaders this) (table file) (tableSize file)) := by
  obtain ⟨h1, h2, h3, -⟩ := header_fields hb
  unfold readTable
  dsimp only
  have hne : Parser.sectionHeaders this ≠ 0 := by
    unfold Parser.sectionHeaders
    omega
  rw [h1, h2, h3, hf.entry, Nat.mul_comm]
  show (file.read _ (tableSize file) _ m1 >>= _) = _
  rw [read_accepted hf hne, ok_bind]
  show (assert (decide (tableSize file = tableSize file)) _ >>= _) = _
  rw [decide_eq_true rfl]
  rfl

/-! ## Behind the reading of the table -/

theorem symtabLoop_off : ∀ (n i : Nat) (m : Mem),
    Off (Parser.symbolTable this) (Parser.stringTable this) m (symtabLoop this i m n)
  | 0, _, m => Off.refl _ _ m
  | n + 1, i, m => by
    rw [symtabLoop]
    split
    · exact (Off.refl _ _ m).write32 _ (Nat.le_refl _) (Nat.le_refl _)
    · exact symtabLoop_off n (i + 1) m

theorem nameLoop_off {strtab : Nat} : ∀ (n i : Nat) {m m' : Mem},
    nameLoop this strtab i m n = .ok m' →
      Off (Parser.globalOffsetTable this) (this + 76) m m'
  | 0, _, _, _, h => by
    cases h
    exact Off.refl _ _ _
  | n + 1, i, m, m', h => by
    rw [nameLoop] at h
    obtain ⟨b, -, h⟩ := bind_ok.1 h
    cases b with
    | true =>
      exact ((Off.refl _ _ m).write32 _ (by rfl) (by unfold Parser.globalOffsetTable; omega)).trans
        (nameLoop_off n (i + 1) h)
    | false =>
      obtain ⟨c, -, h⟩ := bind_ok.1 h
      cases c with
      | true =>
        exact ((Off.refl _ _ m).write32 _
          (by unfold Parser.globalOffsetTable Parser.relocationTable; omega)
          (by unfold Parser.relocationTable; omega)).trans (nameLoop_off n (i + 1) h)
      | false => exact nameLoop_off n (i + 1) h

/-- While `section_headers_` points to its buffer, the rest of the constructor leaves the member and
the buffer alone. -/
theorem select_keeps (hu : UserHeap ualloc ufree (InUse this p file))
    (hidx : shstringIndex m2 (Parser.header this) = shstringIndex file.bytes 0)
    (hp : read32 m2 (Parser.sectionHeaders this) = p)
    (hapart : ∀ a, Block p (tableSize file) a → ¬ Object this a)
    (h : select ualloc ufree this file m2 = .ok m3) {a : Nat}
    (ha : (this ≤ a ∧ a < this + 60) ∨ Block p (tableSize file) a) : m3 a = m2 a := by
  obtain ⟨⟨q, mb⟩, hq, h⟩ := bind_ok.1 h
  obtain ⟨⟨r, mc⟩, hr, h⟩ := bind_ok.1 h
  obtain ⟨md, hn, hfree⟩ := bind_ok.1 h
  rw [sectionHeader, hp, hidx] at hq
  have hoff : Off (Parser.symbolTable this) (Parser.stringTable this) _ _ :=
    symtabLoop_off (shnum (write32 m2 (Parser.stringTable this)
      (add32 p (sectionSize * shstringIndex file.bytes 0))) (Parser.header this)) 0
      (write32 m2 (Parser.stringTable this) (add32 p (sectionSize * shstringIndex file.bytes 0)))
  generalize symtabLoop this 0 _ _ = mt at hq hoff
  have hobj : ∀ x, this + 60 ≤ x → x < this + 76 → InUse this p file x := fun x hl hh =>
    .inl ⟨by omega, hh⟩
  have hst : read32 mt (Parser.stringTable this) =
      add32 p (sectionSize * shstringIndex file.bytes 0) := by
    rw [hoff.read32 (.inr (Nat.le_refl _)), read32_write32, Nat.mod_eq_of_lt (add32_lt _ _)]
  have hstb : read32 mb (Parser.stringTable this) =
      add32 p (sectionSize * shstringIndex file.bytes 0) := by
    rw [← hst]
    refine read32_congr fun x hl hh => hu.keeps hq (hobj x ?_ ?_) <;>
      · unfold Parser.stringTable at hl hh
        omega
  have hsize : size mb (read32 mb (Parser.stringTable this)) =
      size mt (read32 mt (Parser.stringTable this)) := by
    rw [hst, hstb]
    exact read32_shift fun k hk => hu.keeps hq (.inr (.inr ⟨k, hk, rfl⟩))
  have huse : InUse this p file a := ha.elim (fun h => .inl ⟨h.1, by omega⟩) fun h => .inr (.inl h)
  have hout : a < this + 60 ∨ this + 76 ≤ a := by
    rcases ha with ha | ha
    · exact .inl ha.2
    · have := hapart a ha
      unfold Object at this
      omega
  calc m3 a = md a := hu.free_keeps hfree huse
    _ = mc a := nameLoop_off _ _ hn a (by unfold Parser.globalOffsetTable; omega)
    _ = mb a := File.read_frame hr fun i hi he => by
      rw [hsize] at hi
      exact hu.apart hq ⟨i, hi, he⟩ huse
    _ = mt a := hu.keeps hq huse
    _ = write32 m2 (Parser.stringTable this) _ a :=
      hoff a (by unfold Parser.symbolTable Parser.stringTable; omega)
    _ = m2 a := write32_outside (by unfold Parser.stringTable; omega)

/-! ## The table is loaded only by coincidence -/

/-- The table is loaded faithfully: when the constructor completes in `m3` the parser points to its
buffer, which holds the section headers, and the reading, from `m1` to `m2`, changed nothing but the
buffer. -/
structure Loaded (this p : Nat) (file : File) (m1 m2 m3 : Mem) : Prop where
  pointer : read32 m3 (Parser.sectionHeaders this) = p
  headers : ∀ i b, i < shnum file.bytes 0 → b < sectionSize →
    m3 (add32 p (sectionSize * i + b)) = file.bytes (shoff file.bytes 0 + sectionSize * i + b)
  frame : ∀ a, ¬ Block p (tableSize file) a → m2 a = m1 a

/-- Memory held the table before it was read: outside the buffer, where the reading writes, in the
buffer, where it does not, and where the two ranges meet the table repeats itself. -/
structure Held (this p : Nat) (file : File) (m : Mem) : Prop where
  outside : ∀ i, i < tableSize file → ¬ Block p (tableSize file) (add32 (this + 56) i) →
    m (add32 (this + 56) i) = table file i
  buffer : ∀ i, i < tableSize file → ¬ Block (this + 56) (tableSize file) (add32 p i) →
    m (add32 p i) = table file i
  overlap : ∀ i j, i < tableSize file → j < tableSize file → add32 (this + 56) i = add32 p j →
    table file i = table file j

theorem headers_iff {m : Mem} : (∀ i b, i < shnum file.bytes 0 → b < sectionSize →
      m (add32 p (sectionSize * i + b)) = file.bytes (shoff file.bytes 0 + sectionSize * i + b)) ↔
    ∀ j, j < tableSize file → m (add32 p j) = table file j := by
  unfold tableSize table sectionSize
  constructor
  · intro h j hj
    have := h (j / 40) (j % 40) (by omega) (by omega)
    rwa [Nat.add_assoc, show 40 * (j / 40) + j % 40 = j by omega] at this
  · intro h i b hi hb
    rw [h _ (by omega), Nat.add_assoc]

/-- What the reading leaves in the buffer and outside it. -/
theorem held_iff (h2 : m2 = fill m1 (this + 56) (table file) (tableSize file)) :
    Held this p file m1 ↔ (∀ j, j < tableSize file → m2 (add32 p j) = table file j) ∧
      ∀ a, ¬ Block p (tableSize file) a → m2 a = m1 a := by
  subst h2
  have hlt := tableSize_lt file
  have hin : ∀ i, i < tableSize file →
      fill m1 (this + 56) (table file) (tableSize file) (add32 (this + 56) i) = table file i :=
    fun i hi => fill_inside (by omega) hi
  have hout : ∀ a, ¬ Block (this + 56) (tableSize file) a →
      fill m1 (this + 56) (table file) (tableSize file) a = m1 a :=
    fun a ha => fill_outside fun i hi he => ha ⟨i, hi, he⟩
  constructor
  · rintro ⟨ho, hb, hl⟩
    constructor
    · intro j hj
      by_cases hw : Block (this + 56) (tableSize file) (add32 p j)
      · obtain ⟨i, hi, he⟩ := hw
        rw [he, hin i hi, hl i j hi hj he.symm]
      · rw [hout _ hw, hb j hj hw]
    · intro a ha
      by_cases hw : Block (this + 56) (tableSize file) a
      · obtain ⟨i, hi, rfl⟩ := hw
        rw [hin i hi, ho i hi ha]
      · exact hout a hw
  · rintro ⟨hb, ho⟩
    refine ⟨fun i hi hw => ?_, fun i hi hw => ?_, fun i j hi hj he => ?_⟩
    · rw [← ho _ hw, hin i hi]
    · rw [← hout _ hw, hb i hi]
    · rw [← hin i hi, he, hb j hj]

/-- A reading that changes nothing outside the buffer leaves `section_headers_` as it was. -/
theorem pointer_kept (hapart : ∀ a, Block p (tableSize file) a → ¬ Object this a)
    (ho : ∀ a, ¬ Block p (tableSize file) a → m2 a = m1 a) :
    read32 m2 (Parser.sectionHeaders this) = read32 m1 (Parser.sectionHeaders this) :=
  read32_congr fun x hl hh => ho x fun hx => hapart x hx
    ⟨by unfold Parser.sectionHeaders at hl; omega, by unfold Parser.sectionHeaders at hh; omega⟩

theorem construct_ok : construct kalloc ualloc ufree this filename file m = .ok m3 ↔
    ∃ p m1 m2, prepare kalloc this filename file m = .ok (p, m1) ∧
      readTable this file m1 = .ok m2 ∧ select ualloc ufree this file m2 = .ok m3 := by
  constructor
  · intro h
    obtain ⟨⟨p, m1⟩, h1, h⟩ := bind_ok.1 h
    obtain ⟨m2, h2, h3⟩ := bind_ok.1 h
    exact ⟨p, m1, m2, h1, h2, h3⟩
  · rintro ⟨p, m1, m2, h1, h2, h3⟩
    exact bind_ok.2 ⟨(p, m1), h1, bind_ok.2 ⟨m2, h2, h3⟩⟩

/-- **The section table is loaded faithfully just when memory held it before.** -/
theorem table_loaded (hthis : this + 76 ≤ 4294967296) (hf : HoldsTable file)
    (hk : KernelHeap kalloc this) (hu : UserHeap ualloc ufree (InUse this p file))
    (h1 : prepare kalloc this filename file m = .ok (p, m1))
    (h2 : readTable this file m1 = .ok m2) (h3 : select ualloc ufree this file m2 = .ok m3) :
    Loaded this p file m1 m2 m3 ↔ Held this p file m1 := by
  obtain ⟨hb, hp, hapart⟩ := prepare_ok hthis hf.header hk h1
  have h2' := Except.ok.inj (h2.symm.trans (readTable_ok hf.accepted hb))
  rw [held_iff h2']
  have hkeep : (∀ a, ¬ Block p (tableSize file) a → m2 a = m1 a) →
      ∀ a, (this ≤ a ∧ a < this + 60) ∨ Block p (tableSize file) a → m3 a = m2 a := by
    intro ho a ha
    have hidx : shstringIndex m2 (Parser.header this) = shstringIndex file.bytes 0 := by
      rw [← (header_fields hb).2.2.2]
      refine read16_shift fun k hk => ho _ fun hx => hapart _ hx ?_
      unfold Parser.header
      exact ⟨by omega, by omega⟩
    exact select_keeps hu hidx ((pointer_kept hapart ho).trans hp) hapart h3 ha
  constructor
  · rintro ⟨-, ht, ho⟩
    refine ⟨fun j hj => ?_, ho⟩
    rw [← hkeep ho _ (.inr ⟨j, hj, rfl⟩)]
    exact headers_iff.1 ht j hj
  · rintro ⟨ht, ho⟩
    refine ⟨?_, headers_iff.2 fun j hj => ?_, ho⟩
    · rw [← hp, ← pointer_kept hapart ho]
      refine read32_congr fun x hl hh => hkeep ho x (.inl ?_)
      unfold Parser.sectionHeaders at hl hh
      exact ⟨by omega, by omega⟩
    · rw [hkeep ho _ (.inr ⟨j, hj, rfl⟩)]
      exact ht j hj

end

/-! ## A file of one section -/

/-- A file of one section header, all zero but for its name, which is 0x2000 when asked for. -/
def oneSection (named : Bool) : File where
  size := 92
  bytes i := if i = 32 then 52 else if i = 46 then 40 else if i = 48 then 1
    else if i = 53 ∧ named = true then 0x20 else 0

/-- Memory that is zero but for the bytes at 0x2000, which are the section table of the named
file. -/
def tableAt2000 (a : Nat) : UInt8 := if a = 0x2001 then 0x20 else 0

/-- An allocator with room for one block, at `p`. -/
def oneBlock (p n : Nat) (m : Mem) : Except Halt (Nat × Mem) :=
  if n ≤ 0x100 then .ok (p, m) else .error (.panic "end_address + new_size <= max_address")

/-- `ufree` of an allocator that does not reuse its block. -/
def noFree (_ : Nat) (m : Mem) : Except Halt Mem := .ok m

theorem oneBlock_ok {p n q : Nat} {m m' : Mem} (h : oneBlock p n m = .ok (q, m')) :
    n ≤ 0x100 ∧ q = p ∧ m' = m := by
  unfold oneBlock at h
  split at h
  · cases h
    exact ⟨‹_›, rfl, rfl⟩
  · cases h

theorem oneBlock_kernelHeap : KernelHeap (oneBlock 0x2000) 0x1000 where
  word h := by
    obtain ⟨-, rfl, -⟩ := oneBlock_ok h
    decide
  apart h := by
    obtain ⟨hn, rfl, -⟩ := oneBlock_ok h
    rintro ⟨i, hi, rfl⟩ ho
    unfold Object add32 at ho
    omega
  keeps h _ := by rw [(oneBlock_ok h).2.2]

theorem oneSection_header : ∀ named, shoff (oneSection named).bytes 0 = 52 ∧
    shentsize (oneSection named).bytes 0 = 40 ∧ shnum (oneSection named).bytes 0 = 1 ∧
      shstringIndex (oneSection named).bytes 0 = 0 := by
  decide

theorem oneSection_holdsTable (named : Bool) : HoldsTable (oneSection named) := by
  obtain ⟨h1, h2, h3, -⟩ := oneSection_header named
  exact ⟨by decide +revert, h2, by rw [h3], by rw [h1, h3]; decide +revert⟩

theorem oneBlock_userHeap (named : Bool) :
    UserHeap (oneBlock 0x3000) noFree (InUse 0x1000 0x2000 (oneSection named)) where
  apart h := by
    obtain ⟨hn, rfl, -⟩ := oneBlock_ok h
    rintro ⟨i, hi, rfl⟩ ho
    obtain ⟨-, -, h3, h4⟩ := oneSection_header named
    unfold InUse Object Block add32 tableSize sectionSize at ho
    rw [h3, h4] at ho
    rcases ho with ho | ⟨j, hj, ho⟩ | ⟨k, hk, ho⟩ <;> omega
  keeps h _ := by rw [(oneBlock_ok h).2.2]
  free_keeps h _ := by
    cases h
    rfl

/-- The parsers of the two files complete, the pointer of the second one lost. -/
theorem construct_oneSection (named : Bool) : ∃ m1 m2 m3,
    prepare (oneBlock 0x2000) 0x1000 0 (oneSection named) tableAt2000 = .ok (0x2000, m1) ∧
      readTable 0x1000 (oneSection named) m1 = .ok m2 ∧
      select (oneBlock 0x3000) noFree 0x1000 (oneSection named) m2 = .ok m3 ∧
      read32 m3 (Parser.sectionHeaders 0x1000) = if named then 0x2000 else 0 := by
  have hp : (prepare (oneBlock 0x2000) 0x1000 0 (oneSection named) tableAt2000).map Prod.fst =
      .ok 0x2000 := by
    decide +kernel +revert
  have h : (construct (oneBlock 0x2000) (oneBlock 0x3000) noFree 0x1000 0 (oneSection named)
      tableAt2000).map (fun m => read32 m (Parser.sectionHeaders 0x1000)) =
        .ok (if named then 0x2000 else 0) := by
    decide +kernel +revert
  cases hc : construct (oneBlock 0x2000) (oneBlock 0x3000) noFree 0x1000 0 (oneSection named)
      tableAt2000 with
  | error e =>
    rw [hc] at h
    cases h
  | ok m3 =>
    rw [hc] at h
    obtain ⟨p, m1, m2, h1, h2, h3⟩ := construct_ok.1 hc
    rw [h1] at hp
    cases Except.ok.inj hp
    exact ⟨m1, m2, m3, h1, h2, h3, Except.ok.inj h⟩

theorem table_loaded_named : ∃ m1 m2 m3,
    prepare (oneBlock 0x2000) 0x1000 0 (oneSection true) tableAt2000 = .ok (0x2000, m1) ∧
      readTable 0x1000 (oneSection true) m1 = .ok m2 ∧
      select (oneBlock 0x3000) noFree 0x1000 (oneSection true) m2 = .ok m3 ∧
      (Loaded 0x1000 0x2000 (oneSection true) m1 m2 m3 ↔
        Held 0x1000 0x2000 (oneSection true) m1) := by
  obtain ⟨m1, m2, m3, h1, h2, h3, -⟩ := construct_oneSection true
  exact ⟨m1, m2, m3, h1, h2, h3, table_loaded (by decide) (oneSection_holdsTable true) oneBlock_kernelHeap
    (oneBlock_userHeap true) h1 h2 h3⟩

/-- The parser of a file whose first section header is zero, as usual, ends with `section_headers_`
zero. -/
theorem usual_table_lost : ¬ ∀ (kalloc ualloc : Nat → Mem → Except Halt (Nat × Mem))
    (ufree : Nat → Mem → Except Halt Mem) (this filename p : Nat) (file : File)
    (m m1 m2 m3 : Mem), this + 76 ≤ 4294967296 → HoldsTable file → KernelHeap kalloc this →
    UserHeap ualloc ufree (InUse this p file) →
    prepare kalloc this filename file m = .ok (p, m1) → readTable this file m1 = .ok m2 →
    select ualloc ufree this file m2 = .ok m3 → Loaded this p file m1 m2 m3 := by
  intro h
  obtain ⟨m1, m2, m3, h1, h2, h3, hp⟩ := construct_oneSection false
  have := (h _ _ _ _ _ _ _ _ m1 m2 m3 (by decide) (oneSection_holdsTable false)
    oneBlock_kernelHeap (oneBlock_userHeap false) h1 h2 h3).pointer
  rw [hp] at this
  cases this

end ElfFile

end Dmanix
