import Dmanix.Memory.Limits
import Dmanix.Lib.Run

/-!
# The heap and its clients

A run of a heap: clients call `Alloc`, call `Free` with a pointer they hold, and write to the bytes
they hold. `Clients` is the heap with what is held, the pointers with the sizes asked for; calls that
stop are no steps. `CallOk` is the condition on a call under which its arithmetic is right (`AllocOk`,
`FreeOk`), `Heap.CreateOk` the one on a new heap.

`Safe` is what clients rely on: what they hold lies in the heap, apart from each other and from every
hole and tag.
-/

namespace Dmanix

/-- A new heap's one hole has room for its tags, fits the size field and ends below 4 GiB. -/
def Heap.CreateOk (start endAddr : Nat) : Prop :=
  start + 0x81008 ≤ endAddr ∧ endAddr < start + 0x481000 ∧ endAddr < 4294967296

instance (start endAddr : Nat) : Decidable (Heap.CreateOk start endAddr) := by
  unfold Heap.CreateOk
  infer_instance

/-- A heap and what is held of it. -/
structure Clients where
  heap : HeapState
  live : List (Nat × Nat)

namespace Clients

/-- A call, with the growth it is granted and the memory of new pages; or other bytes in what is
held. -/
inductive Call where
  | alloc (size : Nat) (pageAlign : Bool) (rounds : Nat) (fresh : Bytes.Mem)
  | free (p : Nat)
  | write (mem : Bytes.Mem)

/-- Some client holds the byte at `x`. -/
def Holds (c : Clients) (x : Nat) : Prop := ∃ a ∈ c.live, a.1 ≤ x ∧ x < a.1 + a.2

/-- One step. -/
inductive Step : Clients → Call → Clients → Prop
  | alloc {c : Clients} {size rounds p : Nat} {pageAlign : Bool} {fresh : Bytes.Mem}
      {s : HeapState} : c.heap.allocN rounds size pageAlign fresh = .ok (p, s) →
      Step c (.alloc size pageAlign rounds fresh) ⟨s, (p, size) :: c.live⟩
  | free {c : Clients} {p size : Nat} {s : HeapState} : (p, size) ∈ c.live →
      c.heap.free p = .ok s → Step c (.free p) ⟨s, c.live.erase (p, size)⟩
  | write {c : Clients} {mem : Bytes.Mem} : (∀ x, ¬ c.Holds x → mem x = c.heap.mem x) →
      Step c (.write mem) ⟨{ c.heap with mem := mem }, c.live⟩

/-- The call computes the tags it means to. -/
def CallOk (c : Clients) : Call → Prop
  | .alloc size pageAlign _ _ => c.heap.AllocOk size pageAlign
  | .free p => c.heap.FreeOk p
  | .write _ => True

end Clients

/-! ## The headers of a heap -/

/-- `VisitAllHeaders` visits the headers `hs` and ends at `end_address`. -/
def HeapState.Walk (s : HeapState) (hs : List Nat) : Prop :=
  ∃ fuel, s.visitAllHeaders (fun h => .ok h) fuel s.startAddress = .ok (hs, s.endAddress)

/-- The header at `h` and the footer it leads to agree, with room for both. -/
structure HeapState.Verified (s : HeapState) (h : Nat) : Prop where
  magic : (s.header h).magic = 0x1FF
  least : 8 ≤ (s.header h).size
  footMagic : (s.footer (h + (s.header h).size - 4)).magic = 0x1FF
  footSize : (s.footer (h + (s.header h).size - 4)).size = (s.header h).size

/-! ## Safety -/

namespace Clients

/-- `n` bytes at `a` and `k` bytes at `b` do not overlap. -/
def Apart (a n b k : Nat) : Prop := a + n ≤ b ∨ b + k ≤ a

/-- What is held is apart from the tags of the block at `h`, and from all of it if it is a hole. -/
structure Clear (c : Clients) (h : Nat) : Prop where
  header : ∀ a ∈ c.live, Apart a.1 a.2 h 4
  footer : ∀ a ∈ c.live, Apart a.1 a.2 (h + (c.heap.header h).size - 4) 4
  hole : (c.heap.header h).isHole = true → ∀ a ∈ c.live, Apart a.1 a.2 h (c.heap.header h).size

/-- **Safety for clients** (module doc), for the blocks of the heap and for the holes of the index. -/
structure Safe (c : Clients) : Prop where
  inside : ∀ a ∈ c.live, c.heap.startAddress ≤ a.1 ∧ a.1 + a.2 ≤ c.heap.endAddress
  disjoint : c.live.Pairwise fun a b => Apart a.1 a.2 b.1 b.2
  blocks : ∃ hs, c.heap.Walk hs ∧ ∀ h ∈ hs, c.Clear h
  index : ∀ h ∈ c.heap.index.items, ∀ a ∈ c.live, Apart a.1 a.2 h (c.heap.header h).size

/-- What is held before and after has the same bytes. -/
def Keeps (c d : Clients) : Prop :=
  ∀ a ∈ c.live, a ∈ d.live → ∀ x, a.1 ≤ x → x < a.1 + a.2 → d.heap.mem x = c.heap.mem x

end Clients

end Dmanix
