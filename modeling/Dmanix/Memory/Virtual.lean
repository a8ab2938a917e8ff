import Dmanix.Memory.Directory

/-!
# Bytes at virtual addresses (`src/memory/memory.cc`)

Kernel code reads and writes bytes through the current directory; `phys` holds them. In ring 0, with
the write protection of CR0 off, a page that is present can be written. What `mem` of `Kalloc` and the
tables and directories of `Paging` hold are objects of their own and no bytes here.
-/

namespace Dmanix

namespace Machine

open Word32 Bytes Outcome

variable {σ : Type}

/-- The physical address of the byte at `address`; where there is no page, `PageFault` panics. -/
def resolve (address : Nat) (M : Machine σ) : Except Halt Nat :=
  let table := (M.paging.directories M.paging.currentDirectory).tables (address / 0x1000 / 1024)
  let page := M.paging.page ⟨table, address / 0x1000 % 1024⟩
  if table ≠ 0 ∧ page.present = true then .ok (frameToAddr page.frame + address % 0x1000)
  else .error (.panic "Page fault")

/-- The byte at `address` -/
def load8 (address : Nat) (M : Machine σ) : Except Halt UInt8 := do
  let p ← M.resolve address
  return M.paging.phys p

/-- The byte at `address` becomes `b`. -/
def store8 (address : Nat) (b : UInt8) (M : Machine σ) : Except Halt (Machine σ) := do
  let p ← M.resolve address
  return M.withPaging { M.paging with phys := Function.update M.paging.phys p b }

/-- The half word at `address` -/
def load16 (address : Nat) (M : Machine σ) : Except Halt Nat := do
  let b0 ← M.load8 address
  let b1 ← M.load8 (add32 address 1)
  return b0.toNat + 256 * b1.toNat

/-- The word at `address` -/
def load32 (address : Nat) (M : Machine σ) : Except Halt Nat := do
  let lo ← M.load16 address
  let hi ← M.load16 (add32 address 2)
  return lo + 65536 * hi

/-- `set8(dest, c, n)` -/
def set8 (dest : Nat) (c : UInt8) (n : Nat) (M : Machine σ) : Except Halt (Machine σ) := do
  assert (dest ≠ 0) "dest != NULL"
  upTo (fun i M => M.store8 (add32 dest i) c) n M

/-- `copy8(dest, src, n)` -/
def copy8 (dest src n : Nat) (M : Machine σ) : Except Halt (Machine σ) := do
  assert (dest ≠ 0) "dest != NULL"
  assert (src ≠ 0) "src != NULL"
  upTo (fun i M => do
    let b ← M.load8 (add32 src i)
    M.store8 (add32 dest i) b) n M

end Machine

end Dmanix
