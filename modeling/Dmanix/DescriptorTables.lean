import Dmanix.Base.Assert
import Mathlib.Data.Nat.Bitwise
import Mathlib.Tactic.NormNum

/-!
# The descriptor tables (`src/dt.cc`)

`setGDTGate` scatters a base and a limit over the fields of a descriptor; `GDTEntry.base` and
`GDTEntry.last` put them together as the processor does (`setGDTGate_base`, `setGDTGate_last`).

The limit of a segment is its last offset. `WriteTSS` passes the address behind the TSS: its
descriptor covers the TSS, and nothing else, only where the TSS is linked at the last byte of a
mebibyte (`writeTSS_covers`). The loading of the tables, `gdt_flush` and `tss_flush`, is left out,
and so are the interrupt gates.
-/

namespace Dmanix

inductive Segment where
  | null
  | code
  | data
  | userCode
  | userData
  | tss
  deriving DecidableEq, Repr

structure GDTEntry where
  limitLow : UInt16
  baseLow : UInt16
  baseMiddle : UInt8
  accessFlags : UInt8
  granularity : UInt8
  baseHigh : UInt8
  deriving DecidableEq, Repr

/-- The task state; zero as `set8` leaves it. -/
structure TSSEntry where
  prevTss : UInt32 := 0
  esp0 : UInt32 := 0
  ss0 : UInt32 := 0
  esp1 : UInt32 := 0
  ss1 : UInt32 := 0
  esp2 : UInt32 := 0
  ss2 : UInt32 := 0
  cr3 : UInt32 := 0
  eip : UInt32 := 0
  eflags : UInt32 := 0
  eax : UInt32 := 0
  ecx : UInt32 := 0
  edx : UInt32 := 0
  ebx : UInt32 := 0
  esp : UInt32 := 0
  ebp : UInt32 := 0
  esi : UInt32 := 0
  edi : UInt32 := 0
  es : UInt32 := 0
  cs : UInt32 := 0
  ss : UInt32 := 0
  ds : UInt32 := 0
  fs : UInt32 := 0
  gs : UInt32 := 0
  ldt : UInt32 := 0
  trap : UInt16 := 0
  iomapBase : UInt16 := 0
  deriving DecidableEq, Repr

/-- `gdt_entries` and `tss_entry` -/
structure DescriptorTables where
  gdtEntries : Segment → GDTEntry
  tssEntry : TSSEntry

namespace DescriptorTables

/-- `sizeof(TSSEntry)`: 25 words and two half words, packed. -/
def tssSize : UInt32 := 25 * 4 + 2 * 2

/-- `SetGDTGate(segment, base, limit, access, granularity)` -/
def setGDTGate (segment : Segment) (base limit : UInt32) (access granularity : UInt8)
    (d : DescriptorTables) : DescriptorTables :=
  { d with gdtEntries := fun s => if s = segment then
      { baseLow := (base &&& 0xFFFF).toUInt16
        baseMiddle := (base >>> 16 &&& 0xFF).toUInt8
        baseHigh := (base >>> 24 &&& 0xFF).toUInt8
        limitLow := (limit &&& 0xFFFF).toUInt16
        granularity := (limit >>> 16 &&& 0xF).toUInt8 ||| (granularity &&& 0xF0)
        accessFlags := access }
    else d.gdtEntries s }

/-- `WriteTSS(ss0, esp0)`, where `tss_entry` is linked at `address` -/
def writeTSS (address : UInt32) (ss0 : UInt16) (esp0 : UInt32) (d : DescriptorTables) :
    Except Halt DescriptorTables := do
  let base := address
  let limit := base + tssSize
  let d := setGDTGate .tss base limit 0xE9 0x00 d
  assert (address ≠ 0) "dest != NULL"
  return { d with tssEntry :=
    { ss0 := ss0.toUInt32
      esp0
      cs := 0x08 ||| 0x03
      ss := 0x10 ||| 0x3
      ds := 0x10 ||| 0x3
      es := 0x10 ||| 0x3
      fs := 0x10 ||| 0x3
      gs := 0x10 ||| 0x3 } }

/-- `InitGDT()` up to the loading of the tables -/
def initGDT (address : UInt32) (d : DescriptorTables) : Except Halt DescriptorTables :=
  let d := setGDTGate .null 0 0 0 0 d
  let d := setGDTGate .code 0 0xFFFFFFFF 0x9A 0xCF d
  let d := setGDTGate .data 0 0xFFFFFFFF 0x92 0xCF d
  let d := setGDTGate .userCode 0 0xFFFFFFFF 0xFA 0xCF d
  let d := setGDTGate .userData 0 0xFFFFFFFF 0xF2 0xCF d
  writeTSS address 0x10 0x0 d

end DescriptorTables

/-! ## What the processor reads in a descriptor -/

namespace GDTEntry

def base (e : GDTEntry) : Nat :=
  e.baseLow.toNat + 65536 * e.baseMiddle.toNat + 16777216 * e.baseHigh.toNat

/-- The limit, of 20 bits. -/
def limit (e : GDTEntry) : Nat := e.limitLow.toNat + 65536 * (e.granularity.toNat % 16)

/-- The last offset: the granularity bit makes the limit count pages. -/
def last (e : GDTEntry) : Nat :=
  if e.granularity.toNat / 128 = 1 then 4096 * e.limit + 4095 else e.limit

/-- The segment consists of the `size` bytes from `address` on. -/
def Covers (e : GDTEntry) (address size : Nat) : Prop :=
  e.base = address ∧ ∀ offset, offset ≤ e.last ↔ offset < size

theorem covers_iff {e : GDTEntry} {address size : Nat} :
    e.Covers address size ↔ e.base = address ∧ e.last + 1 = size := by
  refine and_congr_right fun _ => ⟨fun h => ?_, fun h offset => by omega⟩
  have h1 := (h e.last).1 (Nat.le_refl _)
  have h2 := (h (size - 1)).2 (by omega)
  omega

end GDTEntry

namespace DescriptorTables

section
variable (segment : Segment) (base limit : UInt32) (access granularity : UInt8)
  (d : DescriptorTables)

theorem setGDTGate_self : (setGDTGate segment base limit access granularity d).gdtEntries segment =
    { baseLow := (base &&& 0xFFFF).toUInt16
      baseMiddle := (base >>> 16 &&& 0xFF).toUInt8
      baseHigh := (base >>> 24 &&& 0xFF).toUInt8
      limitLow := (limit &&& 0xFFFF).toUInt16
      granularity := (limit >>> 16 &&& 0xF).toUInt8 ||| (granularity &&& 0xF0)
      accessFlags := access } :=
  if_pos rfl

theorem low16 (w : UInt32) : (w &&& 0xFFFF).toUInt16.toNat = w.toNat % 65536 := by
  have := Nat.and_two_pow_sub_one_eq_mod w.toNat 16
  norm_num only at this
  rw [UInt32.toNat_toUInt16, UInt32.toNat_and, show (0xFFFF : UInt32).toNat = 65535 from rfl, this]
  omega

theorem byte8 (w : UInt32) : (w &&& 0xFF).toUInt8.toNat = w.toNat % 256 := by
  have := Nat.and_two_pow_sub_one_eq_mod w.toNat 8
  norm_num only at this
  rw [UInt32.toNat_toUInt8, UInt32.toNat_and, show (0xFF : UInt32).toNat = 255 from rfl, this]
  omega

theorem shift16 (w : UInt32) : (w >>> 16).toNat = w.toNat / 65536 := by
  rw [UInt32.toNat_shiftRight, Nat.shiftRight_eq_div_pow]
  rfl

theorem shift24 (w : UInt32) : (w >>> 24).toNat = w.toNat / 16777216 := by
  rw [UInt32.toNat_shiftRight, Nat.shiftRight_eq_div_pow]
  rfl

theorem setGDTGate_base :
    ((setGDTGate segment base limit access granularity d).gdtEntries segment).base = base.toNat := by
  have := base.toNat_lt
  rw [setGDTGate_self, GDTEntry.base]
  dsimp only
  rw [low16, byte8, byte8, shift16, shift24]
  omega

/-- The granularity byte: four bits of the limit below four flags. -/
theorem granularity_bits : ((limit >>> 16 &&& 0xF).toUInt8 ||| (granularity &&& 0xF0)).toNat % 16 =
      limit.toNat / 65536 % 16 ∧
    ((limit >>> 16 &&& 0xF).toUInt8 ||| (granularity &&& 0xF0)).toNat / 128 =
      granularity.toNat / 128 := by
  have hl : (limit >>> 16 &&& 0xF).toUInt8.toNat = limit.toNat / 65536 % 16 := by
    have := Nat.and_two_pow_sub_one_eq_mod (limit >>> 16).toNat 4
    norm_num only at this
    rw [UInt32.toNat_toUInt8, UInt32.toNat_and, show (0xF : UInt32).toNat = 15 from rfl, this,
      shift16]
    omega
  have hg := granularity.toNat_lt
  have h15 := Nat.and_two_pow_sub_one_eq_mod (granularity.toNat / 128) 1
  have hm := fun a b => @Nat.or_mod_two_pow a b 4
  have hd := fun a b => @Nat.or_div_two_pow a b 7
  have hm' := fun a b => @Nat.and_mod_two_pow a b 4
  have hd' := fun a b => @Nat.and_div_two_pow a b 7
  norm_num only at h15 hm hd hm' hd'
  rw [UInt8.toNat_or, UInt8.toNat_and, show (0xF0 : UInt8).toNat = 240 from rfl, hm, hd, hl, hm', hd']
  norm_num only [Nat.and_zero, Nat.or_zero, h15]
  rw [Nat.div_eq_of_lt (by omega : limit.toNat / 65536 % 16 < 128), Nat.zero_or]
  omega

theorem setGDTGate_last :
    ((setGDTGate segment base limit access granularity d).gdtEntries segment).last =
      if granularity.toNat / 128 = 1 then 4096 * (limit.toNat % 1048576) + 4095
      else limit.toNat % 1048576 := by
  obtain ⟨hm, hd⟩ := granularity_bits limit granularity
  have hlimit : ((setGDTGate segment base limit access granularity d).gdtEntries segment).limit =
      limit.toNat % 1048576 := by
    rw [setGDTGate_self, GDTEntry.limit]
    dsimp only
    rw [low16, hm]
    omega
  rw [GDTEntry.last, hlimit, setGDTGate_self]
  dsimp only
  rw [hd]

end

/-- **The TSS descriptor covers the TSS** exactly where the TSS is linked at the last byte of a
mebibyte: the limit passed is an address. -/
theorem writeTSS_covers (address : UInt32) (ss0 : UInt16) (esp0 : UInt32) (d : DescriptorTables) :
    (∃ d', writeTSS address ss0 esp0 d = .ok d' ∧
      (d'.gdtEntries .tss).Covers address.toNat tssSize.toNat) ↔
    address.toNat % 1048576 = 1048575 := by
  have hlt := address.toNat_lt
  have hsize : tssSize.toNat = 104 := rfl
  have hlimit : (address + tssSize).toNat % 1048576 = (address.toNat + 104) % 1048576 := by
    rw [UInt32.toNat_add, hsize]
    omega
  have hcov : ((setGDTGate .tss address (address + tssSize) 0xE9 0x00 d).gdtEntries .tss).Covers
      address.toNat tssSize.toNat ↔ address.toNat % 1048576 = 1048575 := by
    rw [GDTEntry.covers_iff, setGDTGate_base, setGDTGate_last, if_neg (by decide), hlimit, hsize]
    omega
  unfold writeTSS
  by_cases h0 : address = 0
  · subst h0
    constructor
    · rintro ⟨d', h, -⟩
      cases h
    · intro h
      cases h
  · rw [← hcov, decide_eq_true h0]
    constructor
    · rintro ⟨d', h, hc⟩
      cases h
      exact hc
    · exact fun hc => ⟨_, rfl, hc⟩

/-- No descriptor at all. -/
def blank : DescriptorTables := ⟨fun _ => ⟨0, 0, 0, 0, 0, 0⟩, {}⟩

/-- A TSS at 1 MiB gets a limit of 104 bytes, one offset too many. -/
theorem tss_one_beyond : ¬ ∃ d', writeTSS 0x100000 0x10 0 blank = .ok d' ∧
    (d'.gdtEntries .tss).Covers 0x100000 tssSize.toNat := by
  rintro ⟨d', h, -, hlast⟩
  cases h
  exact absurd ((hlast 104).1 (by decide)) (by decide)

end DescriptorTables

end Dmanix
