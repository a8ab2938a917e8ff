import Dmanix.Memory.Directory
import Dmanix.Memory.Heap

/-!
# The kernel's allocator (`src/memory/kalloc.cc`)

Until the kernel heap exists, `kalloc` and its kin take memory from `base_address` on; the ghost
`regions`, which no function reads, lists what they gave, the last one first. Afterwards they call
the heap's `Alloc` on the kernel's memory and page entries.

`rounds` bounds the heap's growth in one call, `fresh` is the memory new heap pages show.
-/

namespace Dmanix

open Word32 Bytes

/-- The two heaps. -/
inductive HeapName where
  | kheap
  | uheap
  deriving DecidableEq, Repr

/-- Memory given before the kernel heap exists. -/
structure Region where
  addr : Nat
  size : Nat
  pageAlign : Bool
  deriving DecidableEq, Repr

/-- The globals of `kalloc.cc` and `heap.cc`, and the memory the heaps lie in. -/
structure Kalloc where
  baseAddress : Nat
  heap : HeapName → Option Heap
  mem : Mem
  regions : List Region

/-- The kernel's memory. -/
abbrev Kernel := Machine Kalloc

/-- Why a heap function stopped. -/
def halted {α : Type} (x : Except Fault α) : Except Halt α := x.mapError Fault.halt

namespace Kernel

/-- The heap object `h` with the kernel's memory and page entries. -/
def heapState (M : Kernel) (h : Heap) : HeapState where
  toHeap := h
  mem := M.allocator.mem
  paging := M.paging
  stored := []
  touched := []

/-- The kernel after a function of the heap `name`. -/
def putHeap (M : Kernel) (name : HeapName) (s : HeapState) : Kernel :=
  { M with
    paging := s.paging
    allocator := { M.allocator with
      heap := fun n => if n = name then some s.toHeap else M.allocator.heap n
      mem := s.mem } }

/-- `alloc_internal` without a heap -/
def bump (size : Nat) (pageAlign : Bool) (M : Kernel) : Nat × Kernel :=
  let base := M.allocator.baseAddress
  let addr := if pageAlign && pageBits base ≠ 0 then add32 (pageBits base) 0x1000 else base
  (addr, { M with
    allocator := { M.allocator with
      baseAddress := add32 addr size
      regions := ⟨addr, size, pageAlign⟩ :: M.allocator.regions } })

section
variable (rounds : Nat) (fresh : Mem)

/-- `alloc_internal(heap, size, page_align, phys)`: the address, and `*phys` where `phys` is not
`NULL`. -/
def allocInternal (name : HeapName) (size : Nat) (pageAlign phys : Bool) (M : Kernel) :
    Except Halt (Nat × Nat × Kernel) :=
  match M.allocator.heap name with
  | some h => do
    let (addr, s) ← halted ((M.heapState h).allocN rounds size pageAlign fresh)
    let M := M.putHeap name s
    let physical ← if phys then M.getPhysicalAddress addr else pure 0
    return (addr, physical, M)
  | none =>
    let (addr, M) := M.bump size pageAlign
    return (addr, addr, M)

/-- `kalloc(size)` -/
def kalloc (size : Nat) : Kernel → Except Halt (Nat × Nat × Kernel) :=
  allocInternal rounds fresh .kheap size false false

/-- `kalloc_pa(size, &phys)` -/
def kallocPa (size : Nat) : Kernel → Except Halt (Nat × Nat × Kernel) :=
  allocInternal rounds fresh .kheap size true true

end

/-- `free_internal(heap, p)` -/
def freeInternal (name : HeapName) (p : Nat) (M : Kernel) : Except Halt Kernel :=
  match M.allocator.heap name with
  | some h =>
    -- Owns(p)
    if h.startAddress < p ∧ p < h.endAddress then do
      let s ← halted ((M.heapState h).free p)
      return M.putHeap name s
    else return M
  | none => return M

/-- `kfree(p)` -/
def kfree (p : Nat) : Kernel → Except Halt Kernel := freeInternal .kheap p

end Kernel

end Dmanix
