import Dmanix.Memory.Paging
import Dmanix.Lib.Outcome
import Mathlib.Logic.Function.Basic

/-!
# Directories (`src/memory/paging.cc`)

The operations on directories that allocate: `GetPage` where it makes a table, the two `Clone`s,
`AllocateRange`, the page loop of `MoveStack` (`src/process/task.cc`) and `~Directory`.

A `Machine` is the paging state with the state of the kernel allocator, whose functions are
parameters here: `kalloc_pa` gives an address and its physical address, `kfree` takes one back. Two
ghosts, which no function reads, list the directories and the tables that were constructed and not yet
destroyed.
-/

namespace Dmanix

open Word32 Bytes Outcome

structure Machine (σ : Type) where
  paging : Paging
  allocator : σ
  liveDirectories : List Nat
  liveTables : List Nat

/-- `*dir = v` -/
def Paging.setDirectory (P : Paging) (dir : Nat) (v : Directory) : Paging :=
  { P with directories := Function.update P.directories dir v }

/-- `tables[i] = table; physical[i] = entry;` in the directory at `dir` -/
def Paging.setTable (P : Paging) (dir i table entry : Nat) : Paging :=
  P.setDirectory dir { P.directories dir with
    tables := Function.update (P.directories dir).tables i table
    physical := Function.update (P.directories dir).physical i entry }

/-- `FRAME_TO_ADDR` -/
def frameToAddr (f : Nat) : Nat := f * 0x1000

/-- `copy_page_physical` (`src/process/process.s`): the 4096 bytes at `src` to `dest` -/
def copyPagePhysical (src dest : Nat) (m : Mem) : Mem := fun a =>
  if dest ≤ a ∧ a < dest + 0x1000 then m (src + (a - dest)) else m a

namespace Machine

variable {σ : Type}

/-- `sizeof(Table)` -/
def sizeofTable : Nat := 4096

/-- `sizeof(Directory)` -/
def sizeofDirectory : Nat := 8196

/-- `ARRAY_SIZE(tables)` and `ARRAY_SIZE(pages)` -/
def arraySize : Nat := 1024

def withPaging (M : Machine σ) (P : Paging) : Machine σ := { M with paging := P }

/-- `new (p) Table()` -/
def newTable (p : Nat) (M : Machine σ) : Machine σ :=
  { M with
    paging := { M.paging with tables := Function.update M.paging.tables p fun _ => Page.zero }
    liveTables := p :: M.liveTables }

/-- `new (p) Directory()` -/
def newDirectory (p : Nat) (M : Machine σ) : Machine σ :=
  { M with
    paging := M.paging.setDirectory p ⟨fun _ => 0, fun _ => 0, add32 p 4096⟩
    liveDirectories := p :: M.liveDirectories }

/-- The empty directory of `Directory::Clone`, at `dir` and at the physical address `phys`. -/
def newClone (dir phys : Nat) (M : Machine σ) : Machine σ :=
  let M := M.newDirectory dir
  -- Get offset of physical table
  let offset := sub32 (add32 dir 4096) dir
  M.withPaging (M.paging.setDirectory dir
    { M.paging.directories dir with physicalAddress := add32 phys offset })

/-- `GetPhysicalAddress(address)` -/
def getPhysicalAddress (address : Nat) (M : Machine σ) : Except Halt Nat := do
  let page ← M.paging.getPage M.paging.currentDirectory address false
  return add32 (frameToAddr (M.paging.page page).frame) (address &&& 0x0FFF)

/-- The physical address the processor finds for `address` under the directory at `dir`, through the
entries of `physical`; a table is read at its physical address. -/
def translate (P : Paging) (dir address : Nat) : Option Nat :=
  let entry := (P.directories dir).physical (address / 0x1000 / 1024)
  if entry &&& 1 = 0 then none
  else
    let page := P.tables (pageBits entry) (address / 0x1000 % 1024)
    if page.present then some (add32 (frameToAddr page.frame) (address &&& 0x0FFF)) else none

/-! ## Slots -/

/-- Slot `i` of the directory at `d`. -/
def slot (M : Machine σ) (d i : Nat) : Nat := (M.paging.directories d).tables i

/-- Slot `i` of `kernel_directory`. -/
def kernelSlot (M : Machine σ) (i : Nat) : Nat := M.slot M.paging.kernelDirectory i

/-- Slot `i` of the current directory. -/
def currentSlot (M : Machine σ) (i : Nat) : Nat := M.slot M.paging.currentDirectory i

/-- The entry of page number `n` in the current directory. -/
def currentPage (M : Machine σ) (n : Nat) : PagePtr := ⟨M.currentSlot (n / 1024), n % 1024⟩

/-- Page `n` of the current directory has a frame. -/
def HasFrame (M : Machine σ) (n : Nat) : Prop :=
  M.currentSlot (n / 1024) ≠ 0 ∧ (M.paging.page (M.currentPage n)).frame ≠ 0

/-- A directory names the table at `t`. -/
def Named (M : Machine σ) (t : Nat) : Prop :=
  t ≠ 0 ∧ ∃ d ∈ M.liveDirectories, ∃ i < arraySize, M.slot d i = t

/-- `kernel_directory` names the table at `t`. -/
def KernelNamed (M : Machine σ) (t : Nat) : Prop := ∃ i < arraySize, M.kernelSlot i = t

/-- `n` bytes at `p` and `m` bytes at `q` have none in common. -/
def Apart (p n q m : Nat) : Prop := p + n ≤ q ∨ q + m ≤ p

/-- In the `n` bytes at `p` lies no directory and no table. -/
structure Vacant (M : Machine σ) (n p : Nat) : Prop where
  notNull : p ≠ 0
  directories : ∀ d ∈ M.liveDirectories, Apart p n d sizeofDirectory
  tables : ∀ t, M.Named t → Apart p n t sizeofTable

/-! ## The operations -/

section
variable (kallocPa : Nat → Machine σ → Except Halt (Nat × Nat × Machine σ))
  (kfree : Nat → Machine σ → Except Halt (Machine σ))

/-- `GetPage(address, true)` on the directory at `dir`, "if (tables[table_index] == NULL && make)" -/
def makeTable (dir tableIndex : Nat) (M : Machine σ) : Except Halt (Machine σ) :=
  if (M.paging.directories dir).tables tableIndex = 0 then do
    let (tableMem, tmp, M) ← kallocPa sizeofTable M
    let M := M.newTable tableMem
    return M.withPaging (M.paging.setTable dir tableIndex tableMem (tmp ||| 0x7))
  else return M

/-- `GetPage(address, true)` on the directory at `dir` -/
def getPage (dir address : Nat) (M : Machine σ) : Except Halt (PagePtr × Machine σ) := do
  let M ← makeTable kallocPa dir (address / 0x1000 / 1024) M
  let page ← M.paging.getPage dir address false
  return (page, M)

/-- The body of the loop of `Table::Clone`. -/
def cloneEntry (src dst i : Nat) (M : Machine σ) : Except Halt (Machine σ) :=
  let page := M.paging.page ⟨src, i⟩
  if page.frame = 0 then return M
  else do
    let P ← M.paging.allocFrame ⟨dst, i⟩ false false
    let P := P.setPage ⟨dst, i⟩ { page with frame := (P.page ⟨dst, i⟩).frame }
    -- Copy the data across. See process.s.
    let phys := copyPagePhysical (frameToAddr page.frame)
      (frameToAddr (P.page ⟨dst, i⟩).frame) P.phys
    return M.withPaging { P with phys := phys }

/-- `Table::Clone(physical)` of the table at `src`: the new table and its physical address -/
def tableClone (src : Nat) (M : Machine σ) : Except Halt (Nat × Nat × Machine σ) := do
  let (tableMem, physical, M) ← kallocPa sizeofTable M
  let M ← upTo (cloneEntry src tableMem) arraySize (M.newTable tableMem)
  return (tableMem, physical, M)

/-- The body of the loop of `Directory::Clone`, from the directory at `src` to the one at `dir`. -/
def cloneTable (src dir i : Nat) (M : Machine σ) : Except Halt (Machine σ) :=
  let table := (M.paging.directories src).tables i
  if table = 0 then return M
  else if (M.paging.directories M.paging.kernelDirectory).tables i = table then
    -- In the kernel - use the same pointer
    return M.withPaging (M.paging.setTable dir i table ((M.paging.directories src).physical i))
  else do
    -- Copy the table
    let (copy, phys, M) ← tableClone kallocPa table M
    return M.withPaging (M.paging.setTable dir i copy (phys ||| 0x7))

/-- `Directory::Clone()` of the directory at `src` -/
def clone (src : Nat) (M : Machine σ) : Except Halt (Nat × Machine σ) := do
  let (dir, phys, M) ← kallocPa sizeofDirectory M
  let M ← upTo (cloneTable kallocPa src dir) arraySize (M.newClone dir phys)
  return (dir, M)

/-- `AllocFrame(dir->GetPage(address, true), false, is_writeable)` -/
def allocPage (dir : Nat) (isWriteable : Bool) (address : Nat) (M : Machine σ) :
    Except Halt (Machine σ) := do
  let (page, M) ← getPage kallocPa dir address M
  let P ← M.paging.allocFrame page false isWriteable
  return M.withPaging P

/-- `AllocateRange(address, size)`, its loop granted `rounds` -/
def allocateRange (rounds address size : Nat) (M : Machine σ) : Except Halt (Machine σ) :=
  let last := pageBits (add32 address size)
  loop .hang (fun i _ => i ≤ last) (add32 · 0x1000)
    (fun i M => allocPage kallocPa M.paging.currentDirectory true i M) rounds (pageBits address) M

/-- `MoveStack(new_stack, size)`, its page loop granted `rounds` -/
def moveStack (rounds newStack size : Nat) (M : Machine σ) : Except Halt (Machine σ) :=
  loop .hang (fun i _ => i ≥ sub32 newStack size) (sub32 · 0x1000)
    (fun i M => allocPage kallocPa M.paging.currentDirectory true i M) rounds newStack M

/-- The tables `~Directory` destroys and frees, in order. -/
def destroyed (dir : Nat) (M : Machine σ) : List Nat :=
  ((List.range arraySize).map (M.paging.directories dir).tables).filter (· ≠ 0)

/-- `table->~Table(); kfree(table);` -/
def freeTable (M : Machine σ) (table : Nat) : Except Halt (Machine σ) := do
  let M ← kfree table M
  return { M with liveTables := M.liveTables.erase table }

/-- `dir->~Directory(); kfree(dir);` -/
def destroy (dir : Nat) (M : Machine σ) : Except Halt (Machine σ) := do
  let M ← (M.destroyed dir).foldlM (freeTable kfree) M
  let M ← kfree dir M
  return { M with liveDirectories := M.liveDirectories.erase dir }

end

end Machine

end Dmanix
