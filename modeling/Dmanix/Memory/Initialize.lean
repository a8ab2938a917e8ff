import Dmanix.Memory.Kalloc

/-!
# Starting the memory (`memory::Initialize`, `src/memory/paging.cc`)

The stages in the source's order: the frame bit set and `kernel_directory`, the tables of the two
heaps' address ranges, the identity mapping, the heaps' first pages, the heaps, and the first clone.
The interrupt handler and the screen are left out.
-/

namespace Dmanix

open Word32 Bytes Outcome Machine

namespace Kernel

def kheapStart : Nat := 0xC0000000
def kheapInitialSize : Nat := 0x00100000  -- 1Mb Kernel heap
def kheapEnd : Nat := 0xCFFFF000

def uheapStart : Nat := 0xD0000000
def uheapInitialSize : Nat := 0x00400000  -- 4Mb User heap
def uheapEnd : Nat := 0xDFFFF000

/-- `sizeof(bitset)` -/
def sizeofBitset : Nat := 8

/-- `sizeof(Heap)` -/
def sizeofHeap : Nat := 32

/-- `current_directory = dir;` -/
def switchPageDirectory (dir : Nat) (M : Kernel) : Kernel :=
  M.withPaging { M.paging with currentDirectory := dir }

/-- The globals as the kernel image has them, with its end in `base_address`. -/
def image (baseAddress : Nat) : Kernel where
  paging := {
    frames := .create 0
    tables := fun _ _ => .zero
    directories := fun _ => ⟨fun _ => 0, fun _ => 0, 0⟩
    kernelDirectory := 0
    currentDirectory := 0
    phys := fun _ => 0 }
  allocator := ⟨baseAddress, fun _ => none, fun _ => 0, []⟩
  liveDirectories := []
  liveTables := []

section
variable (rounds : Nat) (fresh : Mem)

/-- `frames = new (kalloc(sizeof(bitset))) bitset(num_frames)` -/
def newFrames (numFrames : Nat) (M : Kernel) : Except Halt Kernel := do
  let (_, _, M) ← kalloc rounds fresh sizeofBitset M
  let (_, _, M) ← kalloc rounds fresh (numFrames / 32 * 4) M
  return M.withPaging { M.paging with frames := .create numFrames }

/-- `kernel_directory = new (kalloc_pa(sizeof(Directory))) Directory()` -/
def newKernelDirectory (M : Kernel) : Except Halt Kernel := do
  let (dir, _, M) ← allocInternal rounds fresh .kheap sizeofDirectory true false M
  let M := M.newDirectory dir
  return M.withPaging { M.paging with kernelDirectory := dir }

/-- The rounds granted to a loop over pages: one more than there are pages. -/
def pageRounds : Nat := 0x100001

/-- `for (i = first; i < last; i += PAGE_SIZE) kernel_directory->GetPage(i, true);` -/
def mapPages (first last : Nat) (M : Kernel) : Except Halt Kernel :=
  loop .hang (fun i _ => i < last) (add32 · 0x1000)
    (fun i M => do
      let (_, M) ← getPage (kallocPa rounds fresh) M.paging.kernelDirectory i M
      return M) pageRounds first M

/-- `AllocFrame(kernel_directory->GetPage(i, true), false, is_writeable)` -/
def allocKernelPage (isWriteable : Bool) (i : Nat) (M : Kernel) : Except Halt Kernel :=
  allocPage (kallocPa rounds fresh) M.paging.kernelDirectory isWriteable i M

/-- "We need to identity map (phys addr = virt addr) from 0x0 to the end of used memory": the
bound moves as `GetPage` makes tables. -/
def identityMap (M : Kernel) : Except Halt Kernel :=
  loop .hang (fun i M => i < add32 M.allocator.baseAddress 0x1000) (add32 · 0x1000)
    (allocKernelPage rounds fresh false) pageRounds 0 M

/-- "Allocate the pages we mapped" -/
def allocPages (isWriteable : Bool) (first last : Nat) (M : Kernel) : Except Halt Kernel :=
  loop .hang (fun i _ => i < last) (add32 · 0x1000) (allocKernelPage rounds fresh isWriteable)
    pageRounds first M

/-- `Heap::Create(start, end_addr, max, false, false)`, as the heap `name` -/
def createHeap (name : HeapName) (start endAddr max : Nat) (M : Kernel) : Except Halt Kernel := do
  let (_, _, M) ← kalloc rounds fresh sizeofHeap M
  let s ← halted (Heap.create start endAddr max false false M.allocator.mem M.paging)
  return M.putHeap name s

/-- `memory::Initialize` up to the heaps. -/
def bootstrap (memEnd : Nat) (M : Kernel) : Except Halt Kernel := do
  let memEnd := memEnd * 1024 % 4294967296
  -- Align mem_end to PAGE_SIZE
  let memEnd := memEnd - memEnd % 0x1000
  let M ← newFrames rounds fresh (memEnd / 0x1000) M
  let M ← newKernelDirectory rounds fresh M
  let M ← mapPages rounds fresh kheapStart kheapEnd M
  let M ← mapPages rounds fresh uheapStart uheapEnd M
  let M ← identityMap rounds fresh M
  let M ← allocPages rounds fresh false kheapStart (kheapStart + kheapInitialSize) M
  allocPages rounds fresh true uheapStart (uheapStart + uheapInitialSize) M

/-- `memory::Initialize`, the heaps and the first clone. -/
def createHeaps (M : Kernel) : Except Halt Kernel := do
  let M := switchPageDirectory M.paging.kernelDirectory M
  -- Create the kernel heap
  let M ← createHeap rounds fresh .kheap kheapStart (kheapStart + kheapInitialSize) kheapEnd M
  let M ← createHeap rounds fresh .uheap uheapStart (uheapStart + uheapInitialSize) uheapEnd M
  let (dir, M) ← clone (kallocPa rounds fresh) M.paging.kernelDirectory M
  return switchPageDirectory dir M

/-- `memory::Initialize(mem_end)` -/
def memoryInitialize (memEnd : Nat) (M : Kernel) : Except Halt Kernel := do
  let M ← bootstrap rounds fresh memEnd M
  createHeaps rounds fresh M

end

end Kernel

end Dmanix
