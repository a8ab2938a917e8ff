import Dmanix.Memory.Initialize
import Dmanix.Memory.Virtual
import Dmanix.Process.ElfFile

/-!
# Loading a program (`src/process/elf32_parser.cc`)

`WriteAllSections` of a parser at the address `this`, through the current directory. The file is a
file of the initial ramdisk, with its header at `header` (`Read` of `src/fs/initrd.cc`); its node, with
`open` unset, is found by then.

`rounds` bounds the kernel heap's growth in one request, `fresh` is the memory its new pages show.
-/

namespace Dmanix

open Bytes Word32 Machine

namespace ElfLoad

/-- `SHT_NOBITS` -/
def shtNobits : Nat := 0x8

/-- `SHF_ALLOC` -/
def shfAlloc : Nat := 0x2

/-- `header_.shnum` -/
def shnum (this : Nat) (M : Kernel) : Except Halt Nat :=
  M.load16 (ElfFile.Parser.header this + 48)

/-- The word at `member` of `section_headers_[i]`. -/
def field (member this i : Nat) (M : Kernel) : Except Halt Nat := do
  let p ← M.load32 (ElfFile.Parser.sectionHeaders this)
  M.load32 (add32 (add32 p (ElfFile.sectionSize * i)) member)

def type : Nat → Nat → Kernel → Except Halt Nat := field 4
def flags : Nat → Nat → Kernel → Except Halt Nat := field 8
def address : Nat → Nat → Kernel → Except Halt Nat := field 12
def offset : Nat → Nat → Kernel → Except Halt Nat := field 16
def size : Nat → Nat → Kernel → Except Halt Nat := field 20

/-- `file->Read(offset, size, buffer)` -/
def read (header offset size buffer : Nat) (M : Kernel) : Except Halt (Nat × Kernel) := do
  let headerSize ← M.load32 header
  if offset > headerSize then
    return (0, M)
  else do
    let size := if add32 offset size > headerSize then headerSize - offset else size
    let src ← M.load32 (header + 4)
    let M ← M.copy8 buffer (add32 src offset) size
    return (size, M)

section
variable (rounds : Nat) (fresh : Mem) (this header : Nat)

/-- The body of the loop of `WriteAllSections`, after `AllocateRange`. -/
def fillSection (i : Nat) (M : Kernel) : Except Halt Kernel := do
  if (← type this i M) = shtNobits then do
    M.set8 (← address this i M) 0 (← size this i M)
  else do
    let (result, M) ← read header (← offset this i M) (← size this i M) (← address this i M) M
    assert (result = (← size this i M)) "result == section_headers_[i].size"
    return M

/-- The body of the loop of `WriteAllSections`. -/
def writeSection (i : Nat) (M : Kernel) : Except Halt Kernel := do
  if (← flags this i M) &&& shfAlloc = 0 then
    return M
  else do
    let M ← allocateRange (Kernel.kallocPa rounds fresh) Kernel.pageRounds (← address this i M)
      (← size this i M) M
    fillSection this header i M

/-- The loop of `WriteAllSections` from section `i` on, granted `n` tests. -/
def sectionLoop : Nat → Nat → Kernel → Except Halt Kernel
  | 0, _, _ => .error .hang
  | n + 1, i, M => do
    if i < (← shnum this M) then do
      let M ← writeSection rounds fresh this header i M
      sectionLoop n (i + 1) M
    else
      return M

/-- `WriteAllSections()`; `shnum` has 16 bits. -/
def writeAllSections (M : Kernel) : Except Halt Kernel :=
  sectionLoop rounds fresh this header 0x10001 0 M

end

end ElfLoad

end Dmanix
