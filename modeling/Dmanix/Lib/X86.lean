import Dmanix.Lib.Bytes
import Mathlib.Data.BitVec

/-!
# IA-32 in protected mode

The processor as kernel assembly sees it: the general registers, the segment selectors, `eflags`,
the control registers and physical memory. Segments are flat. A linear address `x` is the physical
address `x` while paging is off and `tr cr3 x` while it is on (`phys`); `view` is memory by linear
address. An instruction that would fault gives `none`: a privileged one outside ring 0, an access
across the end of the address space.

`exec` is one instruction, `Runs` a run of the code, in which a routine that is not part of the
code is one step that a relation `ext` describes; a run lists the routines it entered, in order.
`interrupt` is what the processor does to enter a gate. Not modelled: faults, the descriptor checks
of a segment load, virtual 8086 mode, hardware task switches.
-/

namespace X86

open Bytes

abbrev Word := BitVec 32
abbrev Selector := BitVec 16

inductive Reg where
  | eax | ecx | edx | ebx | esp | ebp | esi | edi
  deriving DecidableEq, Repr

inductive Seg where
  | cs | ss | ds | es | fs | gs
  deriving DecidableEq, Repr

/-- The processor; `mem` is the memory, or what stands for it. -/
structure Core (μ : Type) where
  regs : Reg → Word
  segs : Seg → Selector
  eflags : Word
  cr0 : Word
  cr3 : Word
  eip : Word
  mem : μ

abbrev Cpu := Core Mem

/-- The tables the processor looks things up in: the page tables, and for a selector the privilege
level of its descriptor. -/
structure Tables where
  tr : Word → Nat → Nat
  dpl : Selector → Nat

/-! ## Flags -/

/-- `eflags` with the bit `i` equal to `b`. -/
def setFlag (i : Nat) (b : Bool) (e : Word) : Word :=
  if e.getLsbD i = b then e else e ^^^ BitVec.twoPow 32 i

@[simp] theorem getLsbD_setFlag {i j : Nat} {b : Bool} {e : Word} (hi : i < 32) :
    (setFlag i b e).getLsbD j = if j = i then b else e.getLsbD j := by
  unfold setFlag
  split
  · next h =>
    split
    · next hj => rw [hj, h]
    · rfl
  · next h =>
    rw [BitVec.getLsbD_xor, BitVec.getLsbD_twoPow]
    by_cases hj : j = i
    · subst hj
      simp only [hi, decide_true, Bool.and_true, if_true]
      cases hb : b <;> simp_all
    · simp [hj, Ne.symm hj]

def carry : Nat := 0
def parity : Nat := 2
def adjust : Nat := 4
def zero : Nat := 6
def sign : Nat := 7
def trap : Nat := 8
def interruptEnable : Nat := 9
def overflow : Nat := 11
def nested : Nat := 14
def resume : Nat := 16
def virtual8086 : Nat := 17

/-- An even number of ones in the low byte. -/
def evenParity (r : Word) : Bool := (List.range 8).foldl (fun p i => p ^^ r.getLsbD i) true

/-- The flags that depend on a result only. -/
def resultFlags (r : Word) (e : Word) : Word :=
  setFlag parity (evenParity r) (setFlag sign r.msb (setFlag zero (r == 0) e))

/-- The two-operand instructions. -/
inductive Alu where
  | add | sub | and | or | cmp
  deriving DecidableEq, Repr

def Alu.result : Alu → Word → Word → Word
  | .add, x, y => x + y
  | .sub, x, y => x - y
  | .and, x, y => x &&& y
  | .or, x, y => x ||| y
  | .cmp, x, y => x - y

/-- The adjust flag after `and` and `or` is undefined; it stays as it was. -/
def Alu.flags (op : Alu) (x y e : Word) : Word :=
  let r := op.result x y
  let e := resultFlags r e
  match op with
  | .add => setFlag carry (decide (2 ^ 32 ≤ x.toNat + y.toNat))
      (setFlag overflow (x.msb == y.msb && r.msb != x.msb)
        (setFlag adjust (decide (16 ≤ x.toNat % 16 + y.toNat % 16)) e))
  | .sub | .cmp => setFlag carry (decide (x < y))
      (setFlag overflow (x.msb != y.msb && r.msb != x.msb)
        (setFlag adjust (decide (x.toNat % 16 < y.toNat % 16)) e))
  | .and | .or => setFlag carry false (setFlag overflow false e)

/-- An arithmetic instruction changes the six status flags only. -/
theorem Alu.getLsbD_flags (op : Alu) (x y e : Word) {i : Nat}
    (hi : i ∉ [carry, parity, adjust, zero, sign, overflow]) :
    (op.flags x y e).getLsbD i = e.getLsbD i := by
  simp only [List.mem_cons, List.not_mem_nil, or_false, not_or] at hi
  obtain ⟨h0, h2, h4, h6, h7, h11⟩ := hi
  cases op <;>
    simp [Alu.flags, resultFlags, carry, parity, adjust, zero, sign, overflow] at * <;> simp [*]

/-- `dec` leaves the carry flag alone. -/
def decFlags (x e : Word) : Word :=
  setFlag overflow (x == BitVec.twoPow 32 31)
    (setFlag adjust (decide (x.toNat % 16 < 1)) (resultFlags (x - 1) e))

inductive Cond where
  | nz | b | a
  deriving DecidableEq, Repr

def Cond.holds (e : Word) : Cond → Bool
  | .nz => !e.getLsbD zero
  | .b => e.getLsbD carry
  | .a => !e.getLsbD carry && !e.getLsbD zero

/-! ## Registers and memory -/

namespace Core

section
variable {μ ν : Type}

@[simps]
def setReg (r : Reg) (v : Word) (c : Core μ) : Core μ :=
  { c with regs := fun q => if q = r then v else c.regs q }

@[simps]
def setSeg (s : Seg) (v : Selector) (c : Core μ) : Core μ :=
  { c with segs := fun q => if q = s then v else c.segs q }

@[simps]
def setEip (v : Word) (c : Core μ) : Core μ := { c with eip := v }

@[simps]
def setFlags (e : Word) (c : Core μ) : Core μ := { c with eflags := e }

@[simps]
def withMem (m : ν) (c : Core μ) : Core ν := { c with mem := m }

/-- The current privilege level. -/
def cpl (c : Core μ) : Nat := (c.segs .cs).toNat % 4

/-- Paging is on with bit 31 of `cr0`. -/
def paging (c : Core μ) : Bool := c.cr0.getLsbD 31

def kernelOnly (c : Core μ) : Option (Core μ) := if c.cpl = 0 then some c else none

variable (T : Tables)

/-- The physical address of a linear one. -/
def phys (c : Core μ) (x : Nat) : Nat := if c.paging then T.tr c.cr3 x else x

/-- The selectors of data segments that the ring `n` may not use are cleared. -/
def dropSegs (n : Nat) (c : Core μ) : Core μ :=
  { c with segs := fun s => if s ≠ .cs ∧ s ≠ .ss ∧ T.dpl (c.segs s) < n then 0 else c.segs s }

theorem phys_off {c : Core μ} (h : c.paging = false) (x : Nat) : c.phys T x = x := by
  unfold phys
  simp [h]

theorem dropSegs_segs {n : Nat} {c : Core μ} {q : Seg} (h : n ≤ T.dpl (c.segs q)) :
    (c.dropSegs T n).segs q = c.segs q :=
  if_neg fun hq => Nat.not_lt.2 h hq.2.2

/-- No other linear address reaches the bytes of `[lo, hi)`. -/
def Private (c : Core μ) (lo hi : Nat) : Prop :=
  ∀ x y, lo ≤ x → x < hi → c.phys T y = c.phys T x → y = x

end

variable (T : Tables)

/-- Memory by linear address. -/
def view (c : Cpu) : Mem := fun x => c.mem (c.phys T x)

/-- A four-byte access at `a` stays inside the address space. -/
def fits (a : Word) : Bool := decide (a.toNat + 4 ≤ 4294967296)

def load (c : Cpu) (a : Word) : Option Word :=
  if fits a then some (.ofNat 32 (read32 (c.view T) a.toNat)) else none

def storeByte (a : Nat) (b : UInt8) (c : Cpu) : Cpu :=
  { c with mem := Function.update c.mem (c.phys T a) b }

/-- The bytes of `v` at `a`, each where its own address is. -/
def stored (a v : Word) (c : Cpu) : Cpu :=
  (List.range 4).foldl (fun c i => c.storeByte T (a.toNat + i) (.ofNat (v.toNat / 256 ^ i))) c

def store (a v : Word) (c : Cpu) : Option Cpu := if fits a then some (c.stored T a v) else none

def pushed (v : Word) (c : Cpu) : Cpu :=
  (c.stored T (c.regs .esp - 4) v).setReg .esp (c.regs .esp - 4)

def push (v : Word) (c : Cpu) : Option Cpu :=
  if fits (c.regs .esp - 4) then some (c.pushed T v) else none

def pushAll : List Word → Cpu → Option Cpu
  | [], c => some c
  | v :: vs, c => do pushAll vs (← c.push T v)

/-- The word on top of the stack, and the processor with it taken off. -/
def pop (c : Cpu) : Option (Word × Cpu) := do
  let v ← c.load T (c.regs .esp)
  return (v, c.setReg .esp (c.regs .esp + 4))

def popTo (r : Reg) (c : Cpu) : Option Cpu := do
  let (v, c) ← c.pop T
  return c.setReg r v

end Core

/-! ## Instructions -/

inductive Src where
  | reg (r : Reg)
  | imm (v : Word)
  | mem (base : Reg) (disp : Word)
  deriving DecidableEq, Repr

inductive Instr where
  | mov (d : Reg) (s : Src)
  | store (base : Reg) (disp : Word) (s : Reg)
  | storeAbs (a : Word) (s : Reg)
  /-- `mov d, v` for the low half of `d` -/
  | movHalf (d : Reg) (v : Selector)
  /-- `mov d, s` for the low half of `d` -/
  | getSeg (d : Reg) (s : Seg)
  /-- `mov s, r` for the low half of `r` -/
  | setSeg (s : Seg) (r : Reg)
  | getCr0 (d : Reg)
  | setCr0 (s : Reg)
  | getCr3 (d : Reg)
  | setCr3 (s : Reg)
  | alu (op : Alu) (d : Reg) (s : Src)
  | dec (d : Reg)
  | push (s : Src)
  | pop (d : Reg)
  | pusha
  | popa
  | pushf
  | popf
  | cli
  | sti
  | hlt
  | jmp (s : Src)
  | jcc (cond : Cond) (a : Word)
  | call (s : Src)
  | ret
  | iret
  deriving DecidableEq, Repr

variable (T : Tables)

def Src.value (c : Cpu) : Src → Option Word
  | .reg r => some (c.regs r)
  | .imm v => some v
  | .mem base disp => c.load T (c.regs base + disp)

/-- A selector in the low half of a register. -/
def lowHalf (v : Word) : Selector := v.setWidth 16

def withLow (v : Word) (s : Selector) : Word := v.extractLsb' 16 16 ++ s

@[simp] theorem lowHalf_withLow (v : Word) (s : Selector) : lowHalf (withLow v s) = s := by
  unfold lowHalf withLow
  rw [BitVec.setWidth_append_eq_right]

@[simp] theorem lowHalf_setWidth (s : Selector) : lowHalf (s.setWidth 32) = s := by
  unfold lowHalf
  rw [BitVec.setWidth_setWidth_of_le s (by decide), BitVec.setWidth_eq]

/-- `iret`, in ring 0: to the same ring, or out to the ring of the selector on the stack, whose
stack is on the stack too. A nested task or an image of virtual 8086 mode is not modelled. -/
def iret (c : Cpu) : Option Cpu := do
  let c ← c.kernelOnly
  if c.eflags.getLsbD nested then none
  let (eip, d) ← c.pop T
  let (cs, d) ← d.pop T
  let (eflags, d) ← d.pop T
  if eflags.getLsbD virtual8086 then none
  let back := ((d.setEip eip).setSeg .cs (lowHalf cs)).setFlags eflags
  if back.cpl = 0 then
    return back
  else
    let (esp, e) ← d.pop T
    let (ss, _) ← e.pop T
    return ((back.setReg .esp esp).setSeg .ss (lowHalf ss)).dropSegs T back.cpl

/-- The order of `pusha`. -/
def pushaRegs : List Reg := [.eax, .ecx, .edx, .ebx, .esp, .ebp, .esi, .edi]

/-- One instruction; `c.eip` is the address behind it. IOPL is 0: `cli` and `sti` are the kernel's
alone. -/
def exec : Instr → Cpu → Option Cpu
  | .mov d s, c => do return c.setReg d (← s.value T c)
  | .store base disp s, c => c.store T (c.regs base + disp) (c.regs s)
  | .storeAbs a s, c => c.store T a (c.regs s)
  | .movHalf d v, c => some (c.setReg d (withLow (c.regs d) v))
  | .getSeg d s, c => some (c.setReg d (withLow (c.regs d) (c.segs s)))
  -- The code segment only changes with a jump.
  | .setSeg s r, c => if s = .cs then none else some (c.setSeg s (lowHalf (c.regs r)))
  | .getCr0 d, c => do return (← c.kernelOnly).setReg d c.cr0
  | .setCr0 s, c => do return { ← c.kernelOnly with cr0 := c.regs s }
  | .getCr3 d, c => do return (← c.kernelOnly).setReg d c.cr3
  | .setCr3 s, c => do return { ← c.kernelOnly with cr3 := c.regs s }
  | .alu op d s, c => do
    let y ← s.value T c
    let x := c.regs d
    let c := c.setFlags (op.flags x y c.eflags)
    return if op = .cmp then c else c.setReg d (op.result x y)
  | .dec d, c => some ((c.setFlags (decFlags (c.regs d) c.eflags)).setReg d (c.regs d - 1))
  | .push s, c => do c.push T (← s.value T c)
  | .pop d, c => c.popTo T d
  | .pusha, c => c.pushAll T (pushaRegs.map c.regs)
  | .popa, c => do
    let c ← c.popTo T .edi
    let c ← c.popTo T .esi
    let c ← c.popTo T .ebp
    let (_, c) ← c.pop T
    let c ← c.popTo T .ebx
    let c ← c.popTo T .edx
    let c ← c.popTo T .ecx
    c.popTo T .eax
  -- The image has the resume and the virtual 8086 bits clear.
  | .pushf, c => c.push T (c.eflags &&& 0x00FCFFFF#32)
  -- In ring 0; the reserved bits are the same in every image.
  | .popf, c => do
    let (v, c) ← (← c.kernelOnly).pop T
    return c.setFlags (v &&& 0xFFE6FFFF#32)
  | .cli, c => do return (← c.kernelOnly).setFlags (setFlag interruptEnable false c.eflags)
  | .sti, c => do return (← c.kernelOnly).setFlags (setFlag interruptEnable true c.eflags)
  | .hlt, c => c.kernelOnly
  | .jmp s, c => do return c.setEip (← s.value T c)
  | .jcc cond a, c => some (if cond.holds c.eflags then c.setEip a else c)
  | .call s, c => do
    let a ← s.value T c
    return (← c.push T c.eip).setEip a
  | .ret, c => do
    let (a, c) ← c.pop T
    return c.setEip a
  | .iret, c => iret T c

/-! ## Interrupts -/

/-- A 32-bit interrupt gate. -/
structure Gate where
  offset : Word
  selector : Selector
  present : Bool
  dpl : Nat
  deriving DecidableEq, Repr

/-- The processor on the stack it uses in the ring `n`: the one of the task state, `ss0:esp0`,
when it comes from an outer ring. -/
def onRing (n : Nat) (ss0 : Selector) (esp0 : Word) (c : Cpu) : Cpu :=
  if n < c.cpl then (c.setReg .esp esp0).setSeg .ss ss0 else c

/-- What the processor pushes, the last word first. -/
def saved (n : Nat) (error : Option Word) (c : Cpu) : List Word :=
  error.toList ++ [c.eip, (c.segs .cs).setWidth 32, c.eflags] ++
    if n < c.cpl then [c.regs .esp, (c.segs .ss).setWidth 32] else []

/-- The flags in the handler of an interrupt gate. -/
def gateFlags (e : Word) : Word :=
  setFlag interruptEnable false (setFlag trap false (setFlag nested false
    (setFlag resume false (setFlag virtual8086 false e))))

/-- The jump through the gate to the ring `n`, from code with the flags `e`. -/
def Gate.jump {μ : Type} (g : Gate) (n : Nat) (e : Word) (c : Core μ) : Core μ :=
  ((c.setEip g.offset).setSeg .cs (g.selector &&& 0xFFFC ||| .ofNat 16 n)).setFlags (gateFlags e)

theorem Gate.jump_cpl {μ : Type} {g : Gate} {n : Nat} (hn : n < 4) (e : Word) (c : Core μ) :
    (g.jump n e c).cpl = n := by
  have hand := Nat.and_mod_two_pow (a := g.selector.toNat) (b := 0xFFFC) (n := 2)
  have hor := Nat.or_mod_two_pow (a := g.selector.toNat &&& 0xFFFC) (b := n) (n := 2)
  show (g.selector &&& 0xFFFC ||| BitVec.ofNat 16 n).toNat % 4 = n
  rw [BitVec.toNat_or, BitVec.toNat_and, BitVec.toNat_ofNat,
    Nat.mod_eq_of_lt (show n < 2 ^ 16 by omega)]
  refine hor.trans ?_
  rw [hand]
  simp [Nat.mod_eq_of_lt hn]

/-- The processor enters the gate, with an error code for some of the exceptions. -/
def interrupt (g : Gate) (ss0 : Selector) (esp0 : Word) (error : Option Word) (c : Cpu) :
    Option Cpu :=
  let n := T.dpl g.selector
  if g.present = false ∨ c.cpl < n then none else do
    let d ← (onRing n ss0 esp0 c).pushAll T (saved n error c).reverse
    return g.jump n c.eflags d

/-- A software interrupt, `int n`: the gate must be open to the ring. -/
def softInterrupt (g : Gate) (ss0 : Selector) (esp0 : Word) (c : Cpu) : Option Cpu :=
  if c.cpl ≤ g.dpl then interrupt T g ss0 esp0 none c else none

/-! ## Runs -/

/-- Code by physical address: an instruction, and the address behind it. -/
abbrev Code := Nat → Option (Instr × Word)

/-- The instruction at `eip`. -/
def fetch {μ : Type} (code : Code) (c : Core μ) : Option (Instr × Word) := code (c.phys T c.eip.toNat)

/-- A run, with the routines outside the code that it entered, in order. -/
inductive Runs (code : Code) (ext : Cpu → Cpu → Prop) : Cpu → List Word → Cpu → Prop
  | refl (c : Cpu) : Runs code ext c [] c
  | step {c d e : Cpu} {fs : List Word} {i : Instr} {next : Word} :
      fetch T code c = some (i, next) → exec T i (c.setEip next) = some d →
      Runs code ext d fs e → Runs code ext c fs e
  | routine {c d e : Cpu} {fs : List Word} :
      fetch T code c = none → ext c d → Runs code ext d fs e →
      Runs code ext c (c.eip :: fs) e

end X86
