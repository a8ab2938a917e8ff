import Dmanix.CString
import Dmanix.Lib.Scan

/-!
# The sections an ELF parser works on (`src/process/elf32_parser.cc`)

Both constructors of `Elf32Parser` scan the section table for the symbol table and the string
table; a pointer to a section header is the header's index. `names` gives the string at an offset
of the section-name table.

The constructor from a file stops at the first symbol table and takes the section-name table for
the string table; the constructor from the multiboot table keeps the last symbol table and the last
string table named ".strtab". `same_tables`: they select the same sections exactly when the image
has one symbol table and its section-name table is that string table.
-/

namespace Dmanix

open Scan

/-- `Elf32Parser::SectionHeader` -/
structure SectionHeader where
  name : Nat
  type : Nat
  flags : Nat
  address : Nat
  offset : Nat
  size : Nat
  link : Nat
  info : Nat
  addressAlign : Nat
  entrySize : Nat
  deriving DecidableEq, Repr

/-- The section pointers of an `Elf32Parser`; `none` is `NULL`. -/
structure ElfTables where
  symbolTable : Option Nat
  stringTable : Option Nat
  globalOffsetTable : Option Nat
  relocationTable : Option Nat
  deriving DecidableEq, Repr

namespace ElfTables

/-- `SHT_SYMTAB` -/
def shtSymtab : Nat := 0x2

/-- `SHT_STRTAB` -/
def shtStrtab : Nat := 0x3

/-- The string ".strtab". -/
def strtab : CString := ⟨[46, 115, 116, 114, 116, 97, 98], by decide⟩

/-- The string ".got.plt". -/
def gotPlt : CString := ⟨[46, 103, 111, 116, 46, 112, 108, 116], by decide⟩

/-- The string ".rel.plt". -/
def relPlt : CString := ⟨[46, 114, 101, 108, 46, 112, 108, 116], by decide⟩

/-- Every pointer `NULL`. -/
def empty : ElfTables := ⟨none, none, none, none⟩

section
variable (names : Nat → CString)

/-- The body of the loop of `Elf32Parser(filename)` over the section names. -/
def nameSelect (i : Nat) (sh : SectionHeader) (t : ElfTables) : ElfTables :=
  let str := names sh.name
  if CString.compare str gotPlt then { t with globalOffsetTable := some i }
  else if CString.compare str relPlt then { t with relocationTable := some i }
  else t

/-- The loop of `Elf32Parser(filename)` over the section names, from index `i`. -/
def nameLoop : Nat → List SectionHeader → ElfTables → ElfTables
  | _, [], t => t
  | i, sh :: rest, t => nameLoop (i + 1) rest (nameSelect names i sh t)

/-- The tables `Elf32Parser(filename)` selects, for section headers read correctly. -/
def fromFile (sections : List SectionHeader) (shstringIndex : Nat) : ElfTables :=
  let t := { empty with
    stringTable := some shstringIndex
    symbolTable := sections.findIdx? (·.type = shtSymtab) }
  nameLoop names 0 sections t

/-- The body of the loop of `Elf32Parser(elf_sec)`. -/
def multibootSelect (i : Nat) (sh : SectionHeader) (t : ElfTables) : ElfTables :=
  if sh.type = shtSymtab then { t with symbolTable := some i }
  else if sh.type = shtStrtab then
    if CString.compare (names sh.name) strtab then { t with stringTable := some i } else t
  else t

/-- The loop of `Elf32Parser(elf_sec)`, from index `i`. -/
def multibootLoop : Nat → List SectionHeader → ElfTables → ElfTables
  | _, [], t => t
  | i, sh :: rest, t => multibootLoop (i + 1) rest (multibootSelect names i sh t)

/-- The tables `Elf32Parser(elf_sec)` selects. -/
def fromMultiboot (sections : List SectionHeader) : Except Halt ElfTables := do
  let t := multibootLoop names 0 sections empty
  assert (t.symbolTable.isSome && t.stringTable.isSome)
    "symbol_table_ != NULL && string_table_ != NULL"
  return t

/-! ## What the loops select -/

/-- A section of type `SHT_SYMTAB`. -/
def isSymtab (sh : SectionHeader) : Bool := sh.type = shtSymtab

/-- A section of type `SHT_STRTAB` named ".strtab". -/
def isStrtab (sh : SectionHeader) : Bool :=
  sh.type = shtStrtab && CString.compare (names sh.name) strtab

theorem nameSelect_tables (i : Nat) (sh : SectionHeader) (t : ElfTables) :
    (nameSelect names i sh t).symbolTable = t.symbolTable ∧
      (nameSelect names i sh t).stringTable = t.stringTable := by
  by_cases hg : CString.compare (names sh.name) gotPlt = true
  · rw [nameSelect, if_pos hg]
    exact ⟨rfl, rfl⟩
  · rw [nameSelect, if_neg hg]
    split <;> exact ⟨rfl, rfl⟩

theorem nameLoop_tables : ∀ (sections : List SectionHeader) (i : Nat) (t : ElfTables),
    (nameLoop names i sections t).symbolTable = t.symbolTable ∧
      (nameLoop names i sections t).stringTable = t.stringTable
  | [], _, _ => ⟨rfl, rfl⟩
  | sh :: rest, i, t => by
    obtain ⟨h1, h2⟩ := nameLoop_tables rest (i + 1) (nameSelect names i sh t)
    obtain ⟨e1, e2⟩ := nameSelect_tables names i sh t
    exact ⟨h1.trans e1, h2.trans e2⟩

theorem multibootSelect_symbolTable (i : Nat) (sh : SectionHeader) (t : ElfTables) :
    (multibootSelect names i sh t).symbolTable = if isSymtab sh then some i else t.symbolTable := by
  unfold multibootSelect
  by_cases hs : sh.type = shtSymtab
  · rw [if_pos hs, isSymtab, decide_eq_true hs]
    rfl
  · rw [if_neg hs, isSymtab, decide_eq_false hs]
    split
    · split <;> rfl
    · rfl

theorem multibootSelect_stringTable (i : Nat) (sh : SectionHeader) (t : ElfTables) :
    (multibootSelect names i sh t).stringTable =
      if isStrtab names sh then some i else t.stringTable := by
  unfold multibootSelect isStrtab
  by_cases hs : sh.type = shtSymtab
  · have hne : ¬ sh.type = shtStrtab := by rw [hs]; decide
    rw [if_pos hs, decide_eq_false hne, Bool.false_and]
    rfl
  · rw [if_neg hs]
    by_cases ht : sh.type = shtStrtab
    · rw [if_pos ht, decide_eq_true ht, Bool.true_and]
      split <;> rfl
    · rw [if_neg ht, decide_eq_false ht, Bool.false_and]
      rfl

theorem multibootLoop_tables : ∀ (sections : List SectionHeader) (i : Nat) (t : ElfTables),
    (multibootLoop names i sections t).symbolTable = scanLast isSymtab i sections t.symbolTable ∧
      (multibootLoop names i sections t).stringTable =
        scanLast (isStrtab names) i sections t.stringTable
  | [], _, _ => ⟨rfl, rfl⟩
  | sh :: rest, i, t => by
    obtain ⟨h1, h2⟩ := multibootLoop_tables rest (i + 1) (multibootSelect names i sh t)
    rw [multibootSelect_symbolTable] at h1
    rw [multibootSelect_stringTable] at h2
    exact ⟨h1, h2⟩

theorem fromFile_stringTable (sections : List SectionHeader) (k : Nat) :
    (fromFile names sections k).stringTable = some k :=
  (nameLoop_tables names _ _ _).2

theorem fromFile_symbolTable (sections : List SectionHeader) (k : Nat) :
    (fromFile names sections k).symbolTable = sections.findIdx? isSymtab :=
  (nameLoop_tables names _ _ _).1

/-- The constructor from the multiboot table ends with the tables `i` and `j` just when these are
the last ones of their kind. -/
theorem fromMultiboot_ok {sections : List SectionHeader} {i j : Nat} :
    (∃ t, fromMultiboot names sections = .ok t ∧ t.symbolTable = some i ∧ t.stringTable = some j) ↔
      IsLast isSymtab sections i ∧ IsLast (isStrtab names) sections j := by
  obtain ⟨h1, h2⟩ := multibootLoop_tables names sections 0 empty
  have hi := scanLast_eq_some (p := isSymtab) sections 0 none i
  have hj := scanLast_eq_some (p := isStrtab names) sections 0 none j
  simp only [Nat.zero_add, reduceCtorEq, false_and, or_false, exists_eq_left'] at hi hj
  rw [← hi, ← hj]
  unfold fromMultiboot
  constructor
  · rintro ⟨t, ht, hs, hn⟩
    obtain ⟨u, -, hu⟩ := bind_ok.1 ht
    cases hu
    exact ⟨h1 ▸ hs, h2 ▸ hn⟩
  · rintro ⟨hs, hn⟩
    replace hs := h1.trans hs
    replace hn := h2.trans hn
    refine ⟨multibootLoop names 0 sections empty, ?_, hs, hn⟩
    dsimp only
    rw [hs, hn]
    rfl

/-- A constructor from the multiboot table that completes has found both tables. -/
theorem fromMultiboot_isSome {sections : List SectionHeader} {t : ElfTables}
    (h : fromMultiboot names sections = .ok t) : t.symbolTable.isSome ∧ t.stringTable.isSome := by
  obtain ⟨u, hu, ht⟩ := bind_ok.1 h
  cases ht
  rw [assert_ok, Bool.and_eq_true] at hu
  exact hu

/-- The image has one symbol table, and the section-name table, the section `k`, is the last
string table named ".strtab". -/
def OneTable (sections : List SectionHeader) (k : Nat) : Prop :=
  (∃ i : Nat, ∀ j : Nat, (∃ sh, sections[j]? = some sh ∧ isSymtab sh = true) ↔ j = i) ∧
    IsLast (isStrtab names) sections k

theorem findIdx?_isLast {α : Type} {p : α → Bool} {l : List α} {i : Nat} :
    (l.findIdx? p = some i ∧ IsLast p l i) ↔ ∀ j, (∃ x, l[j]? = some x ∧ p x = true) ↔ j = i := by
  constructor
  · rintro ⟨hf, hx, hlast⟩ j
    obtain ⟨hi, hp, hfirst⟩ := List.findIdx?_eq_some_iff_getElem.1 hf
    constructor
    · rintro ⟨y, hy, hpy⟩
      rcases Nat.lt_trichotomy j i with hj | hj | hj
      · obtain ⟨hl, rfl⟩ := List.getElem?_eq_some_iff.1 hy
        exact absurd hpy (hfirst j hj)
      · exact hj
      · rw [hlast j y hj hy] at hpy
        cases hpy
    · rintro rfl
      exact hx
  · intro h
    obtain ⟨x, hx, hp⟩ := (h i).2 rfl
    obtain ⟨hi, rfl⟩ := List.getElem?_eq_some_iff.1 hx
    refine ⟨List.findIdx?_eq_some_iff_getElem.2 ⟨hi, hp, fun j hj hpj => ?_⟩, ⟨_, hx, hp⟩, ?_⟩
    · have := (h j).1 ⟨_, List.getElem?_eq_getElem (by omega), hpj⟩
      omega
    · intro k y hk hy
      refine Bool.eq_false_iff.2 fun hpy => ?_
      have := (h k).1 ⟨y, hy, hpy⟩
      omega

/-- **The two constructors select the same tables** just when the image has one table of each
kind. -/
theorem same_tables (sections : List SectionHeader) (k : Nat) :
    (∃ t, fromMultiboot names sections = .ok t ∧
      t.symbolTable = (fromFile names sections k).symbolTable ∧
      t.stringTable = (fromFile names sections k).stringTable) ↔ OneTable names sections k := by
  rw [fromFile_symbolTable, fromFile_stringTable]
  constructor
  · rintro ⟨t, ht, hs, hn⟩
    obtain ⟨i, hi⟩ := Option.isSome_iff_exists.1 (fromMultiboot_isSome names ht).1
    obtain ⟨h1, h2⟩ := (fromMultiboot_ok names).1 ⟨t, ht, hi, hn⟩
    exact ⟨⟨i, findIdx?_isLast.1 ⟨hs.symm.trans hi, h1⟩⟩, h2⟩
  · rintro ⟨⟨i, h⟩, hk⟩
    obtain ⟨hf, hlast⟩ := findIdx?_isLast.2 h
    obtain ⟨t, ht, hs, hn⟩ := (fromMultiboot_ok names).2 ⟨hlast, hk⟩
    exact ⟨t, ht, hs.trans hf.symm, hn⟩

end

/-! ## A usual image -/

/-- The string ".symtab". -/
def symtab : CString := ⟨[46, 115, 121, 109, 116, 97, 98], by decide⟩

/-- The string ".shstrtab". -/
def shstrtab : CString := ⟨[46, 115, 104, 115, 116, 114, 116, 97, 98], by decide⟩

/-- The section-name table of a usual image. -/
def usualNames (offset : Nat) : CString :=
  if offset = 1 then symtab else if offset = 9 then strtab else if offset = 17 then shstrtab
  else .empty

/-- The sections of a usual image: none, ".symtab", ".strtab", ".shstrtab". -/
def usualSections : List SectionHeader :=
  [⟨0, 0, 0, 0, 0, 0, 0, 0, 0, 0⟩, ⟨1, shtSymtab, 0, 0, 0xa0, 32, 2, 2, 4, 16⟩,
    ⟨9, shtStrtab, 0, 0, 0xc0, 7, 0, 0, 1, 0⟩, ⟨17, shtStrtab, 0, 0, 0xc7, 27, 0, 0, 1, 0⟩]

/-- A usual image keeps its section names in a table of their own, ".shstrtab": the constructors
disagree about the string table. -/
theorem usual_differ : ¬ ∀ (names : Nat → CString) (sections : List SectionHeader) (k : Nat),
    (∃ sh ∈ sections, isSymtab sh) → (∃ sh ∈ sections, isStrtab names sh) →
    (∃ sh, sections[k]? = some sh ∧ sh.type = shtStrtab) →
    ∃ t, fromMultiboot names sections = .ok t ∧
      t.symbolTable = (fromFile names sections k).symbolTable ∧
      t.stringTable = (fromFile names sections k).stringTable := by
  intro h
  obtain ⟨t, ht, -, hn⟩ := h usualNames usualSections 3 (by decide) (by decide)
    ⟨_, rfl, by decide⟩
  have hm : fromMultiboot usualNames usualSections = .ok ⟨some 1, some 2, none, none⟩ := by decide
  rw [hm] at ht
  cases ht
  rw [fromFile_stringTable] at hn
  cases hn

end ElfTables

end Dmanix
