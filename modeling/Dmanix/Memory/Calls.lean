import Dmanix.Memory.Initialize
import Dmanix.Memory.Limits
import Mathlib.Data.Finset.Card

/-!
# The kernel's calls

After `memory::Initialize` directories are cloned, extended and switched to, and both heaps serve their
callers. `Callers` is the kernel with what these hold; a caller frees only what it holds.

New tables and directories lie in memory the kernel heap gives (`kalloc_pa`). `Kernel.CallOk` is the
condition on a call under which the heap's tags and these objects stay apart: every request the call
makes of a heap computes the tags it means to (`AllocOk`, `FreeOk`), in the state before the call and as
the heap serves them one after the other (`Heap.Serves`), and a stack is not moved into the kernel's own
memory.
-/

namespace Dmanix

open Word32 Bytes Machine

namespace Kernel

/-- Where `Heap::Create` has a heap start, behind its index. -/
def heapFirst : HeapName → Nat
  | .kheap => kheapStart + 0x81000
  | .uheap => uheapStart + 0x81000

/-- `max_address` -/
def heapMax : HeapName → Nat
  | .kheap => kheapEnd
  | .uheap => uheapEnd

/-! ## Calls -/

/-- The calls that clone or extend a directory, and those in which the heaps expand and contract;
a task switch makes another directory the current one. -/
inductive KernelCall where
  | clone (src : Nat)
  | allocateRange (address size : Nat)
  | moveStack (newStack size : Nat)
  | alloc (name : HeapName) (size : Nat) (pageAlign : Bool)
  | free (name : HeapName) (p : Nat)
  | switch (dir : Nat)

/-- A call. -/
def perform (rounds : Nat) (fresh : Mem) : KernelCall → Kernel → Except Halt Kernel
  | .clone src, M => do
    let (_, M) ← clone (kallocPa rounds fresh) src M
    return M
  | .allocateRange address size, M => allocateRange (kallocPa rounds fresh) rounds address size M
  | .moveStack newStack size, M => moveStack (kallocPa rounds fresh) rounds newStack size M
  | .alloc name size pageAlign, M => do
    let (_, _, M) ← allocInternal rounds fresh name size pageAlign false M
    return M
  | .free name p, M => freeInternal name p M
  | .switch dir, M => .ok (switchPageDirectory dir M)

/-- Directories that are cloned or switched to were created; `kernel_directory` is never current. -/
def Allowed (M : Kernel) : KernelCall → Prop
  | .clone src => src ∈ M.liveDirectories
  | .switch dir => dir ∈ M.liveDirectories ∧ dir ≠ M.paging.kernelDirectory
  | .moveStack newStack _ => newStack < 4294967296
  | _ => True

/-- A call with the rounds and the memory it is performed under. -/
structure Performed where
  rounds : Nat
  fresh : Mem
  call : KernelCall

def Step (M : Kernel) (p : Performed) (M' : Kernel) : Prop :=
  Allowed M p.call ∧ perform p.rounds p.fresh p.call M = .ok M'

end Kernel

/-! ## Requests of a heap -/

/-- What a heap is asked for. -/
inductive HeapRequest where
  | alloc (size : Nat) (pageAlign : Bool)
  | free (p : Nat)

/-- The heap object `h` in the memory `mem`, over the pages `P`. -/
def Heap.state (h : Heap) (mem : Mem) (P : Paging) : HeapState where
  toHeap := h
  mem := mem
  paging := P
  stored := []
  touched := []

/-- The heap `h` in the memory `mem` computes the tags it means to in each of the requests, made one
after the other. Page entries may change in between. -/
def Heap.Serves : List HeapRequest → Heap → Mem → Prop
  | [], _, _ => True
  | .alloc size pageAlign :: rest, h, mem => ∀ P, (h.state mem P).AllocOk size pageAlign ∧
      ∀ rounds fresh p s, (h.state mem P).allocN rounds size pageAlign fresh = .ok (p, s) →
        Heap.Serves rest s.toHeap s.mem
  | .free p :: rest, h, mem => ∀ P, (h.state mem P).FreeOk p ∧
      ∀ s, (h.state mem P).free p = .ok s → Heap.Serves rest s.toHeap s.mem

namespace Kernel

/-- The slots from `first` on in which the directory at `src` has a table that is not the kernel's. -/
def privateSlots (M : Kernel) (src first : Nat) : Finset Nat :=
  {i ∈ Finset.range arraySize | first ≤ i ∧ M.slot src i ≠ 0 ∧ M.slot src i ≠ M.kernelSlot i}

/-- The slots of the pages from `lo` to `hi`. -/
def slotsOf (lo hi : Nat) : Finset Nat :=
  {i ∈ Finset.range arraySize | lo / 0x400000 ≤ i ∧ i ≤ hi / 0x400000}

/-- The slots of `S` in which the current directory has no table. -/
def missingSlots (M : Kernel) (S : Finset Nat) : Finset Nat := {i ∈ S | M.currentSlot i = 0}

/-- Requests of `kalloc_pa` for `n` tables. -/
@[irreducible] def tableRequests (n : Nat) : List HeapRequest :=
  List.replicate n (.alloc sizeofTable true)

@[simp] theorem tableRequests_zero : tableRequests 0 = [] := by
  unfold tableRequests
  rfl

@[simp] theorem tableRequests_succ (n : Nat) :
    tableRequests (n + 1) = .alloc sizeofTable true :: tableRequests n := by
  unfold tableRequests
  exact List.replicate_succ

/-- What a call asks of the heap `name`. -/
def requests (M : Kernel) : KernelCall → HeapName → List HeapRequest
  | .clone src, .kheap => .alloc sizeofDirectory true :: tableRequests (M.privateSlots src 0).card
  | .allocateRange address size, .kheap =>
    tableRequests
      (M.missingSlots (slotsOf (pageBits address) (pageBits (add32 address size)))).card
  | .moveStack newStack size, .kheap =>
    tableRequests (M.missingSlots (slotsOf (sub32 newStack size) newStack)).card
  | .alloc n size pageAlign, name => if n = name then [.alloc size pageAlign] else []
  | .free n p, name => if n = name then [.free p] else []
  | _, _ => []

/-- The heap `name` computes the tags it means to in the requests `rs`. -/
def Serves (M : Kernel) (name : HeapName) (rs : List HeapRequest) : Prop :=
  ∀ g, M.allocator.heap name = some g → g.Serves rs M.allocator.mem

/-- The kernel's own memory: the image with what was given before the kernel heap, and the heaps. -/
def KernelMemory (M : Kernel) (a : Nat) : Prop :=
  0x1000 ≤ a ∧ a < M.allocator.baseAddress ∨ kheapStart ≤ a ∧ a < kheapEnd ∨
    ∃ g, M.allocator.heap .uheap = some g ∧ uheapStart ≤ a ∧ a < g.endAddress

/-- What the kernel writes of it while it extends a directory: the memory given before the kernel heap,
and that heap but for the blocks its callers hold. -/
def Bookkeeping (M : Kernel) (held : HeapName → List (Nat × Nat)) (a : Nat) : Prop :=
  (∃ r ∈ M.allocator.regions, r.addr ≤ a ∧ a < r.addr + r.size) ∨
    kheapStart ≤ a ∧ a < kheapEnd ∧ ∀ b ∈ held .kheap, ¬ (b.1 ≤ a ∧ a < b.1 + b.2)

def stackStart : Nat := 0xE0000000
def stackSize : Nat := 0x2000

/-- An address of the stack that `process::Initialize` moves to. -/
def InStack (a : Nat) : Prop := stackStart - stackSize ≤ a ∧ a < stackStart

/-- The condition on a call (module doc). -/
structure CallOk (M : Kernel) (c : KernelCall) : Prop where
  serves : ∀ name, M.Serves name (M.requests c name)
  stack : ∀ newStack size, c = .moveStack newStack size →
    ∀ a, newStack ≤ a + size → a < newStack + 4 → ¬ M.KernelMemory a

end Kernel

/-! ## Callers -/

/-- The kernel with what the callers of each heap hold: pointers with the sizes asked for. -/
structure Callers where
  kernel : Kernel
  held : HeapName → List (Nat × Nat)

namespace Callers

open Kernel

/-- One call; calls that stop are no steps. -/
inductive Step : Callers → Performed → Callers → Prop
  | alloc {c : Callers} {rounds size p physical : Nat} {fresh : Mem} {name : HeapName}
      {pageAlign : Bool} {M : Kernel} :
      allocInternal rounds fresh name size pageAlign false c.kernel = .ok (p, physical, M) →
      Step c ⟨rounds, fresh, .alloc name size pageAlign⟩
        ⟨M, Function.update c.held name ((p, size) :: c.held name)⟩
  | free {c : Callers} {rounds size p : Nat} {fresh : Mem} {name : HeapName} {M : Kernel} :
      (p, size) ∈ c.held name → freeInternal name p c.kernel = .ok M →
      Step c ⟨rounds, fresh, .free name p⟩
        ⟨M, Function.update c.held name ((c.held name).erase (p, size))⟩
  | other {c : Callers} {p : Performed} {M : Kernel} : (∀ n k b, p.call ≠ .alloc n k b) →
      (∀ n q, p.call ≠ .free n q) → Kernel.Step c.kernel p M → Step c p ⟨M, c.held⟩

/-- The guard of runs. -/
def CallOk (c : Callers) (p : Performed) : Prop := c.kernel.CallOk p.call

end Callers

end Dmanix
