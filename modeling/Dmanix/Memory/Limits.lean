import Dmanix.Memory.Heap

/-!
# Where the heap's arithmetic holds

`Alloc` and `Free` compute tags from sizes and addresses without checking that a piece has room
for its own tags, that a sum fits the 22-bit size field, or that the hole they extend is the last
block. `AllocOk` and `FreeOk` are the conditions on the state before a call under which the code's
arithmetic is right:

* a page-aligned block leaves a gap that is a hole of its own, and a rest that is none or a hole
  (`SplitOk`);
* growth extends a hole that ends at `end_address`, to less than 2^22 bytes;
* the word below `start_address` is not taken for the footer of a hole;
* merged holes have less than 2^22 bytes, and one that ends at `end_address` starts below the
  smallest heap, which is what the heap shrinks to.
-/

namespace Dmanix

open Word32

/-! ## Alloc -/

/-- The bytes `FindSmallestHole` sets aside before the payload of a hole at `h`: up to the next
page boundary after the header, a whole page when the payload is on one. -/
def gapOffset (pageAlign : Bool) (h : Nat) : Nat :=
  if pageAlign then 4096 - (h + 4) % 4096 else 0

/-- The gap `Alloc` leaves before a page-aligned block cut from a hole at `h`, its header and
footer included, so that the payload starts on the next page. -/
def gapSize (pageAlign : Bool) (h : Nat) : Nat :=
  if pageAlign then 4092 - h % 4096 else 0

/-- The hole of `n` bytes at `h` can be cut for `newSize` bytes: the gap is none or has room for
its tags, and behind a gap nothing is left or room for a hole. -/
def SplitOk (pageAlign : Bool) (h n newSize : Nat) : Prop :=
  pageAlign = true → h % 4096 ≤ 4084 ∧
    (n = gapSize true h + newSize ∨ gapSize true h + newSize + 8 ≤ n)

instance (pageAlign : Bool) (h n newSize : Nat) : Decidable (SplitOk pageAlign h n newSize) := by
  unfold SplitOk; infer_instance

/-- The bytes `Alloc` grows a page-aligned heap by for a block of `newSize` bytes. -/
def growth (newSize : Nat) : Nat := (newSize / 4096 + 1) * 4096

namespace HeapState

/-- The space at the end of the heap that growth adds to: the highest hole with its size, or no
bytes at `end_address`. -/
def lastSpace (s : HeapState) : Nat × Nat :=
  match s.lastHole with
  | some h => (h, (s.header h).size)
  | none => (s.endAddress, 0)

/-- The bytes growth adds before the last space can hold `newSize` bytes: once, or twice. -/
def needed (s : HeapState) (newSize : Nat) (pageAlign : Bool) : Nat :=
  if newSize + gapOffset pageAlign s.lastSpace.1 ≤ s.lastSpace.2 + growth newSize
  then growth newSize else 2 * growth newSize

/-- The heap can grow for `newSize` bytes: its last space ends at `end_address`, and stays below
2^22 bytes and inside the address space. -/
def GrowOk (s : HeapState) (newSize : Nat) (pageAlign : Bool) : Prop :=
  s.lastSpace.1 + s.lastSpace.2 = s.endAddress ∧
    s.lastSpace.2 + s.needed newSize pageAlign < 4194304 ∧
    s.endAddress + s.needed newSize pageAlign < 4294967296

instance (s : HeapState) (newSize : Nat) (pageAlign : Bool) :
    Decidable (s.GrowOk newSize pageAlign) := by
  unfold GrowOk; infer_instance

/-- `Alloc(size, page_align)` computes the tags it means to: of the hole it finds, or of the last
space after growth. -/
def AllocOk (s : HeapState) (size : Nat) (pageAlign : Bool) : Prop :=
  match s.findSmallestHole (size + 8) pageAlign with
  | some i => SplitOk pageAlign (s.index.array i) (s.header (s.index.array i)).size (size + 8)
  | none => s.GrowOk (size + 8) pageAlign ∧
      SplitOk pageAlign s.lastSpace.1 (s.lastSpace.2 + s.needed (size + 8) pageAlign) (size + 8)

instance (s : HeapState) (size : Nat) (pageAlign : Bool) :
    Decidable (s.AllocOk size pageAlign) := by
  unfold AllocOk; split <;> infer_instance

/-! ## Free -/

/-- The test of "Coalesce left" for the block at `header`: the hole whose footer is below it. -/
def holeBefore (s : HeapState) (header : Nat) : Option Nat :=
  let leftHeader := sub32 header (s.footer (sub32 header 4)).size
  if (s.footer (sub32 header 4)).magic = 0x1FF ∧ (s.header leftHeader).isHole = true
  then some leftHeader else none

/-- The test of "Coalesce right". -/
def holeAt (s : HeapState) (header : Nat) : Bool :=
  (s.header header).magic = 0x1FF && (s.header header).isHole

/-- The hole `Free(p)` makes, with the holes next to the block: its address and size. -/
def merged (s : HeapState) (p : Nat) : Nat × Nat :=
  let header := p - 4
  let size := (s.header header).size
  let right := if s.holeAt (header + size) then (s.header (header + size)).size else 0
  match (s.storeHeaderHole header true).holeBefore header with
  | some left => (left, (s.header left).size + size + right)
  | none => (header, size + right)

/-- `Free(p)` computes the tags it means to. -/
structure FreeOk (s : HeapState) (p : Nat) : Prop where
  first : p - 4 = s.startAddress → (s.storeHeaderHole (p - 4) true).holeBefore (p - 4) = none
  fits : (s.merged p).2 < 4194304
  shrinks : (s.merged p).1 + (s.merged p).2 = s.endAddress →
    (s.merged p).1 + 8 ≤ s.startAddress + 0x70000 ∧ s.startAddress + 0x70000 ≤ s.endAddress

instance (s : HeapState) (p : Nat) : Decidable (s.FreeOk p) :=
  decidable_of_iff
    ((p - 4 = s.startAddress → (s.storeHeaderHole (p - 4) true).holeBefore (p - 4) = none) ∧
      (s.merged p).2 < 4194304 ∧
      ((s.merged p).1 + (s.merged p).2 = s.endAddress →
        (s.merged p).1 + 8 ≤ s.startAddress + 0x70000 ∧ s.startAddress + 0x70000 ≤ s.endAddress))
    ⟨fun ⟨h1, h2, h3⟩ => ⟨h1, h2, h3⟩, fun ⟨h1, h2, h3⟩ => ⟨h1, h2, h3⟩⟩

end HeapState

end Dmanix
