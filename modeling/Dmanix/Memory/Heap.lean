import Dmanix.OrderedArray
import Dmanix.Memory.Paging

/-!
# The heap (`src/memory/heap.cc`)

`HeapState` is a `Heap` object with the memory it works on: `mem`, the bytes of the kernel's
virtual address space, and `paging`, where the heap's pages get and lose their frames. Addresses
and sizes are 32-bit words (`add32`, `sub32`); headers and footers are words at any byte address,
read and written field by field.

Two fields are ghosts, which no function reads: `stored` lists the values assigned to a size field
(32 bits, before the field cuts them to 22), `touched` the tags written and the tags `Free` reads,
each with the heap's limits at that moment.

A page new to the heap shows what its frame held before: `fresh` is the memory found there.
`allocN rounds` is `Alloc` allowed to grow the heap `rounds` times before it recurses.
-/

namespace Dmanix

open Word32 Bytes

/-! ## Tags -/

/-- `Heap::Header` -/
structure Header where
  magic : Nat
  isHole : Bool
  size : Nat
  deriving DecidableEq, Repr

/-- `Heap::Footer` -/
structure Footer where
  magic : Nat
  size : Nat
  padding : Nat
  deriving DecidableEq, Repr

/-- The bit fields of a header: 9, 1 and 22 bits. -/
def Header.ofWord (w : Nat) : Header := ⟨w % 512, w / 512 % 2 == 1, w / 1024 % 4194304⟩

def Header.word (h : Header) : Nat :=
  h.magic % 512 + 512 * h.isHole.toNat + 1024 * (h.size % 4194304)

/-- The bit fields of a footer: 9, 22 and 1 bits. -/
def Footer.ofWord (w : Nat) : Footer := ⟨w % 512, w / 512 % 4194304, w / 2147483648 % 2⟩

def Footer.word (f : Footer) : Nat :=
  f.magic % 512 + 512 * (f.size % 4194304) + 2147483648 * (f.padding % 2)

/-- The header at an address. -/
def header (m : Mem) (a : Nat) : Header := .ofWord (read32 m a)

/-- The footer at an address. -/
def footer (m : Mem) (a : Nat) : Footer := .ofWord (read32 m a)

def setHeader (m : Mem) (a : Nat) (h : Header) : Mem := write32 m a h.word

def setFooter (m : Mem) (a : Nat) (f : Footer) : Mem := write32 m a f.word

/-! ## The heap object -/

/-- The members of `Heap`; the index holds header addresses. -/
structure Heap where
  index : OrderedArray Nat
  startAddress : Nat
  endAddress : Nat
  maxAddress : Nat
  supervisor : Bool
  readonly : Bool

/-- A tag access, with the heap's limits at that moment. -/
structure Touch where
  addr : Nat
  lo : Nat
  hi : Nat
  deriving DecidableEq, Repr

/-- A heap with its memory, and the ghosts (module doc). -/
structure HeapState extends Heap where
  mem : Mem
  paging : Paging
  stored : List Nat
  touched : List Touch

/-- How a heap function stopped, and the state it left. -/
structure Fault where
  halt : Halt
  state : HeapState

/-- `HeaderLessThan(a, b)` -/
def headerLessThan (m : Mem) (a b : Nat) : Bool := (header m a).size < (header m b).size

/-- `(int32_t) n` -/
def int32 (n : Nat) : Int := if n < 2147483648 then n else (n : Int) - 4294967296

namespace HeapState

def header (s : HeapState) (a : Nat) : Header := Dmanix.header s.mem a

def footer (s : HeapState) (a : Nat) : Footer := Dmanix.footer s.mem a

/-- A failure of a part that does not change the heap. -/
def lift {α : Type} (s : HeapState) (x : Except Halt α) : Except Fault α :=
  x.mapError fun h => ⟨h, s⟩

/-- `ASSERT(b)` -/
def assert (s : HeapState) (b : Bool) (msg : String) : Except Fault Unit :=
  s.lift (Dmanix.assert b msg)

/-- Records an access to the tag at `a`. -/
def touch (s : HeapState) (a : Nat) : HeapState :=
  { s with touched := ⟨a, s.startAddress, s.endAddress⟩ :: s.touched }

def touchAll (s : HeapState) (as : List Nat) : HeapState := as.foldl touch s

/-- Writes the three fields of a header. -/
def storeHeader (s : HeapState) (a : Nat) (h : Header) : HeapState :=
  { s.touch a with mem := setHeader s.mem a h, stored := h.size :: s.stored }

/-- `header->size = size` -/
def storeHeaderSize (s : HeapState) (a size : Nat) : HeapState :=
  { s.touch a with
    mem := setHeader s.mem a { s.header a with size := size }, stored := size :: s.stored }

/-- `header->is_hole = b` -/
def storeHeaderHole (s : HeapState) (a : Nat) (b : Bool) : HeapState :=
  { s.touch a with mem := setHeader s.mem a { s.header a with isHole := b } }

/-- `footer->magic = HEAP_MAGIC` -/
def storeFooterMagic (s : HeapState) (a : Nat) : HeapState :=
  { s.touch a with mem := setFooter s.mem a { s.footer a with magic := 0x1FF } }

/-- `footer->size = size` -/
def storeFooterSize (s : HeapState) (a size : Nat) : HeapState :=
  { s.touch a with
    mem := setFooter s.mem a { s.footer a with size := size }, stored := size :: s.stored }

/-- `footer->magic = HEAP_MAGIC; footer->size = header->size;` -/
def sealFooter (s : HeapState) (footer header : Nat) : HeapState :=
  let s := s.storeFooterMagic footer
  s.storeFooterSize footer (s.header header).size

/-! ## The index -/

/-- The headers `Insert(h)` compares: each item up to the first not smaller, with `h`. -/
def compared (s : HeapState) (h : Nat) : List Nat :=
  let n := (s.index.items.takeWhile fun x => headerLessThan s.mem x h).length
  (s.index.items.take (n + 1)).flatMap fun x => [x, h]

/-- `index.Insert(h)` -/
def indexInsert (s : HeapState) (h : Nat) : Except Fault HeapState := do
  let s := s.touchAll (s.compared h)
  let index ← s.lift (s.index.insert (headerLessThan s.mem) h)
  return { s with index := index }

/-- `index.Remove(i)` -/
def indexRemove (s : HeapState) (i : Nat) : Except Fault HeapState := do
  let index ← s.lift (s.index.remove i)
  return { s with index := index }

/-- The loop test of `FindSmallestHole`: the hole at `h` can hold `size` bytes. -/
def fits (s : HeapState) (size : Nat) (pageAlign : Bool) (h : Nat) : Bool :=
  if pageAlign then
    let location := h
    let offset : Nat :=
      if pageBits (add32 location 4) ≠ 0 then 0x1000 - add32 location 4 % 0x1000 else 0
    let holeSize : Int := (s.header h).size - offset
    holeSize ≥ int32 size
  else (s.header h).size ≥ size

/-- `FindSmallestHole(size, page_align)`; `none` is -1. -/
def findSmallestHole (s : HeapState) (size : Nat) (pageAlign : Bool) : Option Nat :=
  s.index.items.findIdx? (s.fits size pageAlign)

/-- The loop of `Alloc` over the index that finds the header with the highest address. -/
def lastHole (s : HeapState) : Option Nat :=
  s.index.items.foldl (fun best tmp => if tmp > best.getD 0 then some tmp else best) none

/-! ## Growing and shrinking -/

/-- The loop of `Expand`, from offset `i`. -/
def expandPages (start newSize : Nat) (supervisor readonly : Bool) :
    Nat → Nat → Paging → Except Halt Paging
  | 0, _, _ => .error .hang
  | n + 1, i, P =>
    if i < newSize then do
      let page ← P.getPage P.kernelDirectory (add32 start i) true
      let P ← P.allocFrame page supervisor readonly
      expandPages start newSize supervisor readonly n (add32 i 0x1000) P
    else .ok P

/-- The page rounding of `Expand`: up, and one page more for a multiple of the page size. -/
def expandSize (newSize : Nat) : Nat :=
  if pageBits newSize ≠ 0 then add32 (pageBits newSize) 0x1000 else newSize

/-- `Expand(new_size)` -/
def expand (s : HeapState) (newSize : Nat) (fresh : Mem) : Except Fault HeapState := do
  s.assert (newSize > sub32 s.endAddress s.startAddress) "new_size > end_address - start_address"
  let newSize := expandSize newSize
  s.assert (add32 s.startAddress newSize ≤ s.maxAddress) "start_address + new_size <= max_address"
  let oldSize := sub32 s.endAddress s.startAddress
  let paging ← s.lift
    (expandPages s.startAddress newSize s.supervisor s.readonly 0x100001 oldSize s.paging)
  let newEnd := add32 s.startAddress newSize
  return { s with
    paging := paging
    endAddress := newEnd
    mem := fun a => if s.endAddress ≤ a ∧ a < newEnd then fresh a else s.mem a }

/-- The loop of `Contract`, from offset `i` down. -/
def contractPages (start newSize : Nat) : Nat → Nat → Paging → Except Halt Paging
  | 0, _, _ => .error .hang
  | n + 1, i, P =>
    if newSize < i then do
      let page ← P.getPage P.kernelDirectory (add32 start i) false
      let P ← P.freeFrame page
      contractPages start newSize n (sub32 i 0x1000) P
    else .ok P

/-- The size `Contract` shrinks the heap to: the bit tests as written, then `HEAP_MIN_SIZE`. -/
def contractSize (newSize : Nat) : Nat :=
  let newSize := if newSize &&& 0x1000 ≠ 0 then add32 (newSize &&& 0x1000) 0x1000 else newSize
  if newSize < 0x70000 then 0x70000 else newSize

/-- The heap with other page entries and another end. -/
def moveEnd (s : HeapState) (paging : Paging) (endAddress : Nat) : HeapState :=
  { s with paging := paging, endAddress := endAddress }

/-- `Contract(new_size)` -/
def contract (s : HeapState) (newSize : Nat) : Except Fault (Nat × HeapState) := do
  s.assert (newSize < sub32 s.endAddress s.startAddress) "new_size < end_address - start_address"
  let newSize := contractSize newSize
  let oldSize := sub32 s.endAddress s.startAddress
  let paging ← s.lift
    (contractPages s.startAddress newSize 0x100001 (sub32 oldSize 0x1000) s.paging)
  return (newSize, s.moveEnd paging (add32 s.startAddress newSize))

/-! ## Alloc -/

/-- `Alloc` after `Expand`: the `added` bytes become part of the highest hole, or a hole. -/
def addSpace (s : HeapState) (oldEndAddress added : Nat) : Except Fault HeapState :=
  match s.lastHole with
  | none =>
    -- If we didn't find ANY headers, we need to add one.
    let s := s.storeHeader oldEndAddress ⟨0x1FF, true, added⟩
    let s := s.sealFooter (sub32 (add32 oldEndAddress (s.header oldEndAddress).size) 4) oldEndAddress
    s.indexInsert oldEndAddress
  | some header =>
    -- Adjust the last header
    let s := s.storeHeaderSize header (add32 (s.header header).size added)
    -- Rewrite the footer
    let footer := sub32 (add32 header (s.header header).size) 4
    let s := s.storeFooterSize footer (s.header header).size
    .ok (s.storeFooterMagic footer)

/-- `Alloc` when no hole was found, up to the recursion. -/
def grow (s : HeapState) (newSize : Nat) (fresh : Mem) : Except Fault HeapState := do
  let oldLength := sub32 s.endAddress s.startAddress
  let oldEndAddress := s.endAddress
  let s ← s.expand (add32 oldLength newSize) fresh
  let newLength := sub32 s.endAddress s.startAddress
  s.addSpace oldEndAddress (sub32 newLength oldLength)

/-- `Alloc`, "If we need to page align, make a new hole": the position and size of the hole left
for the block. -/
def openGap (s : HeapState) (iterator origPos origSize : Nat) (pageAlign : Bool) :
    Except Fault (HeapState × Nat × Nat) :=
  if pageAlign && pageBits origPos ≠ 0 then
    let delta := sub32 0x1000 (origPos % 0x1000)
    let newLocation := sub32 (add32 origPos delta) 4
    let s := s.storeHeader origPos ⟨0x1FF, true, sub32 delta 4⟩
    let s := s.sealFooter (sub32 newLocation 4) origPos
    .ok (s, newLocation, sub32 origSize (s.header origPos).size)
  else do
    let s ← s.indexRemove iterator
    return (s, origPos, origSize)

/-- `Alloc` from the block header on. -/
def placeBlock (s : HeapState) (origPos origSize size newSize : Nat) :
    Except Fault (Nat × HeapState) := do
  let s := s.storeHeader origPos ⟨0x1FF, false, newSize⟩
  let s := s.sealFooter (add32 (add32 origPos 4) size) origPos
  -- Do we need a new hole after the block?
  if sub32 origSize newSize > 0 then
    let hole := add32 (add32 (add32 origPos 4) size) 4
    let s := s.storeHeader hole ⟨0x1FF, true, sub32 origSize newSize⟩
    let holeFooter := sub32 (add32 hole (sub32 origSize newSize)) 4
    let s := if holeFooter < s.endAddress then s.sealFooter holeFooter hole else s
    let s ← s.indexInsert hole
    return (add32 origPos 4, s)
  else return (add32 origPos 4, s)

/-- `Alloc` once `FindSmallestHole` returned `iterator`. -/
def carve (s : HeapState) (iterator size newSize : Nat) (pageAlign : Bool) :
    Except Fault (Nat × HeapState) := do
  let origPos ← s.lift (s.index.lookup iterator)
  let origSize := (s.header origPos).size
  -- Should we split the hole?
  let absorb := sub32 origSize newSize < 8
  -- Just increase the requested size
  let size := if absorb then add32 size (sub32 origSize newSize) else size
  let newSize := if absorb then origSize else newSize
  let (s, origPos, origSize) ← s.openGap iterator origPos origSize pageAlign
  s.placeBlock origPos origSize size newSize

/-- `Alloc(size, page_align)` with at most `rounds` calls of `Expand`. -/
def allocN (rounds : Nat) (s : HeapState) (size : Nat) (pageAlign : Bool) (fresh : Mem) :
    Except Fault (Nat × HeapState) := do
  s.assert (size ≤ 0x400000) "size <= 1 << 22"
  let newSize := add32 size 8
  match s.findSmallestHole newSize pageAlign with
  | some iterator => s.carve iterator size newSize pageAlign
  | none =>
    -- Didn't find a hole
    match rounds with
    | 0 => s.lift (.error .hang)
    | rounds + 1 => do
      let s ← s.grow newSize fresh
      allocN rounds s size pageAlign fresh

/-! ## Free -/

/-- `Free`, "Coalesce left": the header of the merged hole, and `do_add`. -/
def coalesceLeft (s : HeapState) (header footer : Nat) : HeapState × Nat × Bool :=
  let leftFooter := sub32 header 4
  let s := s.touch leftFooter
  let leftHeader := sub32 header (s.footer leftFooter).size
  if (s.footer leftFooter).magic = 0x1FF then
    let s := s.touch leftHeader
    if (s.header leftHeader).isHole then
      let s := s.touch header
      let cacheSize := (s.header header).size
      let s := s.storeHeaderSize leftHeader (add32 (s.header leftHeader).size cacheSize)
      let s := s.storeFooterSize footer (s.header leftHeader).size
      (s, leftHeader, false)
    else (s, header, true)
  else (s, header, true)

/-- `Free`, "Coalesce right", the tags: the right hole's bytes go to the hole at `header`; with the
right hole's footer. -/
def mergeRight (s : HeapState) (header rightHeader : Nat) : HeapState × Nat :=
  let s := s.storeHeaderSize header
    (add32 (s.header header).size (s.header rightHeader).size)
  let s := s.touch rightHeader
  let rightFooter := sub32 (add32 rightHeader (s.header rightHeader).size) 4
  (s.storeFooterSize rightFooter (s.header header).size, rightFooter)

/-- `Free`, "Coalesce right": the footer of the merged hole. -/
def coalesceRight (s : HeapState) (header footer : Nat) : Except Fault (HeapState × Nat) :=
  let rightHeader := add32 footer 4
  let s := s.touch rightHeader
  if (s.header rightHeader).magic = 0x1FF && (s.header rightHeader).isHole then do
    let right := s.mergeRight header rightHeader
    let iterator := right.1.index.items.findIdx (· == rightHeader)
    right.1.assert (iterator < right.1.index.size) "iterator < index.get_size()"
    let s ← right.1.indexRemove iterator
    return (s, right.2)
  else return (s, footer)

/-- `Free` up to "Can we contract?": the state, the merged hole's header and footer, the right
neighbour's header as located, and `do_add`. -/
def coalesce (s : HeapState) (p : Nat) : Except Fault (HeapState × Nat × Nat × Nat × Bool) := do
  let header := sub32 p 4
  let s := s.touch header
  s.assert ((s.header header).magic = 0x1FF) "header->magic == HEAP_MAGIC"
  let footer := sub32 (add32 header (s.header header).size) 4
  let s := s.touch footer
  s.assert ((s.footer footer).magic = 0x1FF) "footer->magic == HEAP_MAGIC"
  s.assert ((s.footer footer).size = (s.header header).size) "footer->size == header->size"
  let s := s.storeHeaderHole header true
  let rightHeader := add32 footer 4
  let left := s.coalesceLeft header footer
  let (s, footer) ← left.1.coalesceRight left.2.1 footer
  return (s, left.2.1, footer, rightHeader, left.2.2)

/-- `Free`, "Can we contract?", for a hole that ends at `end_address`. -/
def shrink (s : HeapState) (header rightHeader : Nat) : Except Fault HeapState := do
  let oldLength := sub32 s.endAddress s.startAddress
  let (newLength, s) ← s.contract (sub32 header s.startAddress)
  let s := s.touch header
  let removed := sub32 oldLength newLength
  if sub32 (s.header header).size removed > 0 then
    let s := s.storeHeaderSize header (sub32 (s.header header).size removed)
    let footer := sub32 (add32 header (s.header header).size) 4
    return s.sealFooter footer header
  else
    let iterator := s.index.items.findIdx (· == rightHeader)
    if iterator < s.index.size then s.indexRemove iterator else return s

/-- `Free(p)` -/
def free (s : HeapState) (p : Nat) : Except Fault HeapState := do
  if p = 0 then return s
  let (s, header, footer, rightHeader, doAdd) ← s.coalesce p
  let s ← if add32 footer 4 = s.endAddress then s.shrink header rightHeader else pure s
  if doAdd then s.indexInsert header else return s

/-! ## Walking the heap -/

/-- `VisitAllHeaders(callback)` from `headerAddr`, within `fuel` headers: what the callback gave
for each header, and where the walk ended. -/
def visitAllHeaders {β : Type} (s : HeapState) (callback : Nat → Except Halt β) :
    Nat → Nat → Except Halt (List β × Nat)
  | 0, _ => .error .hang
  | fuel + 1, headerAddr =>
    if headerAddr < s.endAddress then do
      let b ← callback headerAddr
      let (bs, last) ← visitAllHeaders s callback fuel (add32 headerAddr (s.header headerAddr).size)
      return (b :: bs, last)
    else .ok ([], headerAddr)

/-- `VerifyHeader(header)` -/
def verifyHeader (s : HeapState) (h : Nat) : Except Halt Unit := do
  Dmanix.assert ((s.header h).magic = 0x1FF) "header->magic == HEAP_MAGIC"
  let f := sub32 (add32 h (s.header h).size) 4
  Dmanix.assert ((s.footer f).magic = 0x1FF) "f->magic == HEAP_MAGIC"
  Dmanix.assert ((s.footer f).size = (s.header h).size) "f->size == header->size"

/-- `DumpHeader(header)`: the payload address, `is_hole` and the size it prints. -/
def dumpHeader (s : HeapState) (h : Nat) : Except Halt (Nat × Bool × Nat) := do
  s.verifyHeader h
  return (add32 h 4, (s.header h).isHole, sub32 (s.header h).size 8)

/-- `Verify()` -/
def verify (s : HeapState) (fuel : Nat) : Except Halt (List Unit × Nat) :=
  s.visitAllHeaders s.verifyHeader fuel s.startAddress

/-- `Dump()` -/
def dump (s : HeapState) (fuel : Nat) : Except Halt (List (Nat × Bool × Nat) × Nat) :=
  s.visitAllHeaders s.dumpHeader fuel s.startAddress

end HeapState

/-! ## Creation -/

/-- The start address after the index array: past its end, rounded up, and one page more for a
multiple of the page size. -/
def Heap.firstAddress (start : Nat) : Nat :=
  let start := add32 start (4 * 0x20000)
  if pageBits start ≠ 0 then add32 (pageBits start) 0x1000 else start

/-- `Heap::Create(start, end_addr, max, supervisor, readonly)` on memory `mem` -/
def Heap.create (start endAddr max : Nat) (supervisor readonly : Bool) (mem : Mem)
    (paging : Paging) : Except Fault HeapState := do
  let s : HeapState := {
    index := .create 0 0x20000, startAddress := 0, endAddress := endAddr, maxAddress := max
    supervisor := supervisor, readonly := readonly, mem := mem, paging := paging
    stored := [], touched := [] }
  s.assert (start % 0x1000 = 0) "start % PAGE_ALIGN == 0"
  s.assert (endAddr % 0x1000 = 0) "end_addr % PAGE_ALIGN == 0"
  -- Allow for index array.
  let start := Heap.firstAddress start
  let s := { s with startAddress := start }
  let s := s.storeHeader start ⟨0x1FF, true, sub32 endAddr start⟩
  let s := s.sealFooter (sub32 (add32 start (s.header start).size) 4) start
  s.indexInsert start

end Dmanix
