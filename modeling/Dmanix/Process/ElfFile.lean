import Dmanix.Lib.Bytes
import Dmanix.Process.ElfTables

/-!
# Loading the sections of a file (`src/process/elf32_parser.cc`)

`construct` is the constructor `Elf32Parser(filename)` over byte memory, for a parser at the
address `this`: it reads the header, allocates a buffer for the section table (`prepare`), reads the
table (`readTable`) and looks for the sections it needs (`select`). The allocators are parameters.

The read of the table goes to `&section_headers_`, the member, and not to the buffer the member
points to: it overwrites the member, those behind it and what lies behind the parser.
That the table is loaded faithfully only where memory already held it is `table_loaded` in
`Dmanix.Process.Proof.TableRead`.
-/

namespace Dmanix

open Bytes Word32

/-- An open file: what its node's `length` and `read` give. -/
structure File where
  size : Nat
  bytes : Nat → UInt8

/-- `file->Read(offset, size, buffer)`, the `Read` of `src/fs/initrd.cc` -/
def File.read (f : File) (offset size buffer : Nat) (m : Mem) : Except Halt (Nat × Mem) := do
  if offset > f.size then
    return (0, m)
  else
    let size := if add32 offset size > f.size then f.size - offset else size
    assert (buffer ≠ 0) "dest != NULL"
    return (size, fill m buffer (fun i => f.bytes (offset + i)) size)

namespace ElfFile

/-- `sizeof(Header)` -/
def headerSize : Nat := 52

/-- `sizeof(SectionHeader)` -/
def sectionSize : Nat := 40

/-! ## The members of the parser at `this` -/

namespace Parser

variable (this : Nat)

def filename : Nat := this
def header : Nat := this + 4
def sectionHeaders : Nat := this + 56
def symbolTable : Nat := this + 60
def stringTable : Nat := this + 64
def globalOffsetTable : Nat := this + 68
def relocationTable : Nat := this + 72

end Parser

/-! ## The fields of a header at `h` -/

def shoff (m : Mem) (h : Nat) : Nat := read32 m (h + 32)
def shentsize (m : Mem) (h : Nat) : Nat := read16 m (h + 46)
def shnum (m : Mem) (h : Nat) : Nat := read16 m (h + 48)
def shstringIndex (m : Mem) (h : Nat) : Nat := read16 m (h + 50)

/-! ## The fields of a section header at `sh` -/

def name (m : Mem) (sh : Nat) : Nat := read32 m sh
def type (m : Mem) (sh : Nat) : Nat := read32 m (add32 sh 4)
def offset (m : Mem) (sh : Nat) : Nat := read32 m (add32 sh 16)
def size (m : Mem) (sh : Nat) : Nat := read32 m (add32 sh 20)

/-- `&(section_headers_[i])` -/
def sectionHeader (this : Nat) (m : Mem) (i : Nat) : Nat :=
  add32 (read32 m (Parser.sectionHeaders this)) (sectionSize * i)

/-! ## The constructor -/

/-- The loop of `string::compare` on the string at `a` and the bytes of a constant. -/
def compareBytes (m : Mem) (a : Nat) : List UInt8 → Bool
  | [] => m a = 0
  | b :: bs => if m a = 0 then false else if m a ≠ b then false else compareBytes m (add32 a 1) bs

/-- `string::compare` of the string at `a` with a constant. -/
def compareAt (m : Mem) (a : Nat) (b : CString) : Except Halt Bool := do
  assert (a ≠ 0) "a != NULL"
  return compareBytes m a b.1

section
variable (kalloc ualloc : Nat → Mem → Except Halt (Nat × Mem)) (ufree : Nat → Mem → Except Halt Mem)
  (this filename : Nat) (file : File)

/-- The member initialisers. -/
def initMembers (m : Mem) : Mem :=
  let m := write32 m (Parser.filename this) filename
  let m := write32 m (Parser.sectionHeaders this) 0
  let m := write32 m (Parser.symbolTable this) 0
  let m := write32 m (Parser.stringTable this) 0
  let m := write32 m (Parser.globalOffsetTable this) 0
  write32 m (Parser.relocationTable this) 0

/-- The constructor up to the reading of the section table; also the buffer it allocates. -/
def prepare (m : Mem) : Except Halt (Nat × Mem) := do
  let (result, m) ← file.read 0 headerSize (Parser.header this) (initMembers this filename m)
  assert (result = headerSize) "result == sizeof(Header)"
  let (p, m) ← kalloc (sectionSize * shnum m (Parser.header this)) m
  let m := write32 m (Parser.sectionHeaders this) p
  assert (shentsize m (Parser.header this) = sectionSize) "header_.shentsize == sizeof(SectionHeader)"
  return (p, m)

/-- The reading of the section table. -/
def readTable (m : Mem) : Except Halt Mem := do
  let bytes := shnum m (Parser.header this) * shentsize m (Parser.header this)
  let (result, m) ← file.read (shoff m (Parser.header this)) bytes (Parser.sectionHeaders this) m
  assert (result = bytes) "result == static_cast<uint32_t>(header_.shnum * header_.shentsize)"
  return m

/-- The search for the symbol table, `n` sections from section `i` on. -/
def symtabLoop (i : Nat) (m : Mem) : Nat → Mem
  | 0 => m
  | n + 1 =>
    let sh := sectionHeader this m i
    if type m sh = ElfTables.shtSymtab then write32 m (Parser.symbolTable this) sh
    else symtabLoop (i + 1) m n

/-- The search by name in the string table at `strtab`, `n` sections from section `i` on. -/
def nameLoop (strtab : Nat) : Nat → Mem → Nat → Except Halt Mem
  | _, m, 0 => return m
  | i, m, n + 1 => do
    let sh := sectionHeader this m i
    let str := add32 strtab (name m sh)
    if ← compareAt m str ElfTables.gotPlt then
      nameLoop strtab (i + 1) (write32 m (Parser.globalOffsetTable this) sh) n
    else if ← compareAt m str ElfTables.relPlt then
      nameLoop strtab (i + 1) (write32 m (Parser.relocationTable this) sh) n
    else
      nameLoop strtab (i + 1) m n

/-- The constructor after the reading of the section table. -/
def select (m : Mem) : Except Halt Mem := do
  let m := write32 m (Parser.stringTable this) (sectionHeader this m (shstringIndex m (Parser.header this)))
  let m := symtabLoop this 0 m (shnum m (Parser.header this))
  let (strtab, m) ← ualloc (size m (read32 m (Parser.stringTable this))) m
  let table := read32 m (Parser.stringTable this)
  let (_, m) ← file.read (offset m table) (size m table) strtab m
  let m ← nameLoop this strtab 0 m (shnum m (Parser.header this))
  ufree strtab m

/-- `Elf32Parser(filename)` at the address `this`, when `filename` is the given file. -/
def construct (m : Mem) : Except Halt Mem := do
  let (_, m) ← prepare kalloc this filename file m
  let m ← readTable this file m
  select ualloc ufree this file m

end

end ElfFile

end Dmanix
