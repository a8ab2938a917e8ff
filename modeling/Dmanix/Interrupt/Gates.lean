import Dmanix.Interrupt.Stubs
import Dmanix.DescriptorTables

/-!
# The interrupt table (`src/dt.cc`)

`InitIDT` clears the table and sets a gate for the vectors 0 to 31, 128 and, behind the exceptions,
the sixteen IRQs. `SetIDTGate` ors `0x60` into the flags, so every one of these gates is open to ring 3. The
addresses of the stubs are the linker's, `isr n` and `irq i`.

`initIDT_serves`: an interrupt at such a vector, from any ring, reaches the C routine with the
number of the vector; at every other vector the processor finds no gate (`initIDT_gate`).
-/

namespace Dmanix.Isr

open X86

structure IDTEntry where
  baseLow : UInt16
  sel : UInt16
  always0 : UInt8
  flags : UInt8
  baseHigh : UInt16
  deriving DecidableEq, Repr

/-- `idt_entries`, by vector -/
abbrev IDT := Nat → IDTEntry

/-- `SetIDTGate(interrupt, base, sel, flags)` -/
def setIDTGate (interrupt : Nat) (base : UInt32) (sel : UInt16) (flags : UInt8) (t : IDT) : IDT :=
  Function.update t interrupt
    { baseLow := (base &&& 0xFFFF).toUInt16
      baseHigh := (base >>> 16 &&& 0xFFFF).toUInt16
      sel
      always0 := 0
      flags := flags ||| 0x60 }

/-- An entry that `set8` has cleared. -/
def IDTEntry.zero : IDTEntry := ⟨0, 0, 0, 0, 0⟩

/-- `SetPICGates()` -/
def setPICGates (irq : Nat → UInt32) (t : IDT) : IDT :=
  (List.range 16).foldl (fun t i => setIDTGate (32 + i) (irq i) 0x08 0x8E t) t

/-- `InitIDT()` without the programming of the PICs, where the table is linked at `address` -/
def initIDT (address : Nat) (isr irq : Nat → UInt32) : Except Halt IDT := do
  assert (address ≠ 0) "dest != NULL"
  let t : IDT := fun _ => .zero
  let t := (List.range 32).foldl (fun t n => setIDTGate n (isr n) 0x08 0x8E t) t
  let t := setIDTGate 128 (isr 128) 0x08 0x8E t
  return setPICGates irq t

/-! ## What the processor reads in an entry -/

/-- The 32-bit interrupt gate in an entry, if it is one. -/
def IDTEntry.gate (e : IDTEntry) : Option Gate :=
  if e.flags.toNat % 32 = 0x0E then
    some
      { offset := .ofNat 32 (e.baseLow.toNat + 65536 * e.baseHigh.toNat)
        selector := e.sel.toBitVec
        present := e.flags.toNat / 128 = 1
        dpl := e.flags.toNat / 32 % 4 }
  else none

open DescriptorTables in
theorem setIDTGate_gate (n : Nat) (base : UInt32) (t : IDT) :
    (setIDTGate n base 0x08 0x8E t n).gate = some ⟨base.toBitVec, 0x08, true, 3⟩ := by
  have hlt := base.toNat_lt
  have hlow := low16 base
  have hhigh : (base >>> 16 &&& 0xFFFF).toUInt16.toNat = base.toNat / 65536 := by
    rw [low16, shift16]
    omega
  have hoff : BitVec.ofNat 32 (base.toNat % 65536 + 65536 * (base.toNat / 65536)) =
      base.toBitVec := by
    rw [Nat.mod_add_div]
    exact BitVec.eq_of_toNat_eq (by rw [BitVec.toNat_ofNat, Nat.mod_eq_of_lt hlt]; rfl)
  unfold setIDTGate
  rw [Function.update_self]
  unfold IDTEntry.gate
  dsimp only
  rw [hlow, hhigh, hoff, show (0x8E ||| 0x60 : UInt8).toNat = 0xEE from rfl]
  rfl

theorem setIDTGate_apart {n v : Nat} (h : v ≠ n) (base : UInt32) (t : IDT) :
    setIDTGate n base 0x08 0x8E t v = t v :=
  Function.update_of_ne h _ t

theorem setIDTGates {f g : Nat → Nat} (hfg : ∀ n, g (f n) = n) (base : Nat → UInt32) (v : Nat) :
    ∀ (ns : List Nat) (t : IDT),
      (ns.foldl (fun t n => setIDTGate (f n) (base n) 0x08 0x8E t) t v).gate =
        if v ∈ ns.map f then some ⟨(base (g v)).toBitVec, 0x08, true, 3⟩ else (t v).gate
  | [], _ => rfl
  | n :: ns, t => by
    rw [List.foldl_cons, setIDTGates hfg base v ns, List.map_cons]
    by_cases hv : v = f n
    · have hb : base (g v) = base n := by rw [hv, hfg]
      rw [if_pos (List.mem_cons.2 (.inl hv)), hb, hv]
      split
      · rfl
      · exact setIDTGate_gate (f n) (base n) t
    · rw [setIDTGate_apart hv]
      simp only [List.mem_cons, hv, false_or]

/-! ## The vectors -/

/-- The stub of a vector: in `interrupt.s`, and from 32 on in `irq.s`. -/
def stubOf (v : Nat) : Option Stub :=
  if v ∈ [8, 10, 11, 12, 13, 14] then some (.isrErrCode (.ofNat 32 v))
  else if v < 32 ∨ v = 128 then some (.isrNoErrCode (.ofNat 32 v))
  else if v < 48 then some (.irq (.ofNat 32 (v - 32)) (.ofNat 32 v))
  else none

/-- The address of the stub of a vector. -/
def entryOf (isr irq : Nat → UInt32) (v : Nat) : UInt32 :=
  if 32 ≤ v ∧ v < 48 then irq (v - 32) else isr v

/-- The C routine behind the stub of a vector. -/
def handlerOf (isrHandler irqHandler : Word) (v : Nat) : Word :=
  if 32 ≤ v ∧ v < 48 then irqHandler else isrHandler

theorem stubOf_intNo {v : Nat} {s : Stub} (h : stubOf v = some s) : s.intNo = .ofNat 32 v := by
  unfold stubOf at h
  split at h
  · cases h
    rfl
  · split at h
    · cases h
      rfl
    · split at h
      · cases h
        rfl
      · cases h

theorem stubOf_isSome (v : Nat) : (stubOf v).isSome ↔ v < 48 ∨ v = 128 := by
  unfold stubOf
  split
  · next h =>
    simp only [List.mem_cons, List.not_mem_nil, or_false] at h
    simp
    omega
  · split
    · simp
      omega
    · split
      · simp
        omega
      · simp
        omega

/-- **The table that `InitIDT` makes**: a gate to the stub where there is one, and nothing else. -/
theorem initIDT_gate {address : Nat} {isr irq : Nat → UInt32} {t : IDT}
    (h : initIDT address isr irq = .ok t) (v : Nat) :
    (t v).gate = (stubOf v).map fun _ => ⟨(entryOf isr irq v).toBitVec, 0x08, true, 3⟩ := by
  unfold initIDT at h
  obtain ⟨_, -, h⟩ := bind_ok.1 h
  cases h
  have hisome := stubOf_isSome v
  rw [setPICGates, setIDTGates (g := fun v => v - 32) (fun i => by omega) irq v]
  by_cases hirq : 32 ≤ v ∧ v < 48
  · obtain ⟨s, hs⟩ := Option.isSome_iff_exists.1 (hisome.2 (.inl hirq.2))
    rw [if_pos (List.mem_map.2 ⟨v - 32, List.mem_range.2 (by omega), by omega⟩), hs, entryOf,
      if_pos hirq]
    rfl
  · rw [if_neg (by simp only [List.mem_map, List.mem_range]; omega), entryOf, if_neg hirq]
    by_cases h128 : v = 128
    · subst h128
      rw [setIDTGate_gate]
      rfl
    · have hisr := setIDTGates (f := fun n => n) (g := fun n => n) (fun n => rfl) isr v
        (List.range 32) fun _ => .zero
      rw [setIDTGate_apart h128, hisr]
      by_cases hlt : v < 32
      · obtain ⟨s, hs⟩ := Option.isSome_iff_exists.1 (hisome.2 (.inl (by omega)))
        rw [if_pos (by simpa using hlt), hs]
        rfl
      · have hnone : stubOf v = none := by
          rw [← Option.not_isSome_iff_eq_none, hisome]
          omega
        rw [if_neg (by simpa using hlt), hnone]
        rfl

/-! ## With the segments of `InitGDT` -/

/-- The index of a segment's descriptor. -/
def index : Segment → Nat
  | .null => 0
  | .code => 1
  | .data => 2
  | .userCode => 3
  | .userData => 4
  | .tss => 5

/-- The processor finds the descriptors of `d`. -/
def Loaded (T : Tables) (d : DescriptorTables) : Prop :=
  ∀ s rpl, rpl < 4 →
    T.dpl (.ofNat 16 (8 * index s + rpl)) = (d.gdtEntries s).accessFlags.toNat / 32 % 4

/-- `SetKernelStack(stack)` -/
def setKernelStack (stack : UInt32) (d : DescriptorTables) : DescriptorTables :=
  { d with tssEntry := { d.tssEntry with esp0 := stack } }

open DescriptorTables in
theorem initGDT_dpl {T : Tables} {address : UInt32} {d d' : DescriptorTables}
    (h : initGDT address d = .ok d') (hT : Loaded T d') :
    T.dpl 0x08 = 0 ∧ T.dpl 0x23 = 3 ∧ d'.tssEntry.ss0 = 0x10 := by
  unfold initGDT writeTSS at h
  obtain ⟨_, -, h⟩ := bind_ok.1 h
  cases h
  have h1 := hT .code 0 (by decide)
  have h2 := hT .userData 3 (by decide)
  exact ⟨h1.trans (by simp [setGDTGate]), h2.trans (by simp [setGDTGate]), rfl⟩

section
variable {T : Tables} {code : Code} (ext : Cpu → Cpu → Prop) {lo hi : Nat} {c : Cpu} {v : Nat}
  {s : Stub} {isr irq : Nat → UInt32} {t : IDT} {d d' : DescriptorTables}
  {address : UInt32} {table : Nat} {stack : UInt32} {common isrHandler irqHandler : Word}
  {error : Option Word}

/-- **Every vector with a stub is served**, from the kernel and from user code, on the stack that
`SetKernelStack` has set for user code; user code may raise it itself. -/
theorem initIDT_serves (hd : DescriptorTables.initGDT address d = .ok d') (hT : Loaded T d')
    (ht : initIDT table isr irq = .ok t) (hs : stubOf v = some s)
    (hl : Linked (seen T code c) s (entryOf isr irq v).toBitVec common
      (handlerOf isrHandler irqHandler v))
    (herr : error.isSome = s.hasErrCode) (hvm : c.eflags.getLsbD virtual8086 = false)
    (hds : c.cpl = 0 ∨ c.segs .ds = 0x23)
    (h : Sim T lo hi c.mem ((onRing 0 0x10 stack.toBitVec c).withMem [])) (hr : lo + 72 ≤ hi) :
    ∃ g, (t v).gate = some g ∧ s.intNo = .ofNat 32 v ∧
      (∀ c, softInterrupt T g 0x10 stack.toBitVec c = interrupt T g 0x10 stack.toBitVec none c) ∧
      Serves ext T code lo hi s g (handlerOf isrHandler irqHandler v)
        (.ofNat 16 (setKernelStack stack d').tssEntry.ss0.toNat)
        (setKernelStack stack d').tssEntry.esp0.toBitVec error c := by
  obtain ⟨h8, h23, hss⟩ := initGDT_dpl hd hT
  have hss' : BitVec.ofNat 16 (setKernelStack stack d').tssEntry.ss0.toNat = 0x10 := by
    rw [show (setKernelStack stack d').tssEntry.ss0 = 0x10 from hss]
    rfl
  have hcpl : ∀ c : Cpu, c.cpl ≤ 3 := fun c => by
    unfold Core.cpl
    omega
  refine ⟨⟨(entryOf isr irq v).toBitVec, 0x08, true, 3⟩, by rw [initIDT_gate ht, hs]; rfl,
    stubOf_intNo hs, fun c => if_pos (hcpl c), ?_⟩
  rw [hss']
  refine transparent ext hl rfl h8 herr hvm ?_ h hr
  rcases hds with hk | hu
  · rw [hk]
    exact Nat.zero_le _
  · rw [hu, h23]
    exact hcpl c

/-- **A software interrupt to an exception with an error code.** The gate lets user code raise it,
the processor pushes no error code and the stub none either, so the struct is shifted by a word: the
routine reads the interrupted `eip` as the error code, `cs` as `eip` and `eflags` as `cs`. -/
theorem softInterrupt_shifted (hd : DescriptorTables.initGDT address d = .ok d') (hT : Loaded T d')
    (ht : initIDT table isr irq = .ok t) (hv : v ∈ [8, 10, 11, 12, 13, 14])
    (hl : Linked (seen T code c) (.isrErrCode (.ofNat 32 v)) (isr v).toBitVec common isrHandler)
    (h : Sim T lo hi c.mem ((onRing 0 0x10 stack.toBitVec c).withMem [])) (hr : lo + 72 ≤ hi) :
    ∃ g f e ret ws, (t v).gate = some g ∧
      softInterrupt T g 0x10 stack.toBitVec c = some f ∧ Runs T code ext f [] e ∧
      e.eip = isrHandler ∧ Sim T lo hi e.mem (e.withMem (ret :: ws)) ∧ ws[9]? = some (.ofNat 32 v) ∧
      ws.drop 10 = [c.eip, (c.segs .cs).setWidth 32, c.eflags] ++
        if 0 < c.cpl then [c.regs .esp, (c.segs .ss).setWidth 32] else [] := by
  obtain ⟨h8, -, -⟩ := initGDT_dpl hd hT
  have hs : stubOf v = some (.isrErrCode (.ofNat 32 v)) := if_pos hv
  have hent : entryOf isr irq v = isr v := if_neg fun hn => by
    simp only [List.mem_cons, List.not_mem_nil, or_false] at hv
    omega
  obtain ⟨m, u, m', w, ret, sp, hint, hi', -, hc, hrun, hw, -, -⟩ := Linked.enters ext
    (g := ⟨(isr v).toBitVec, 0x08, true, 3⟩) none hl rfl h8 h hr
  have hcpl : c.cpl ≤ 3 := by
    unfold Core.cpl
    omega
  have hmem : w.mem = ret :: (savedWords (u.setReg .esp sp) ++ .ofNat 32 v :: saved 0 none c) := by
    rw [hc.mem, hi'.mem]
    rfl
  refine ⟨⟨(isr v).toBitVec, 0x08, true, 3⟩, u.withMem m, w.withMem m', ret,
    savedWords (u.setReg .esp sp) ++ .ofNat 32 v :: saved 0 none c, ?_, (if_pos hcpl).trans hint,
    hrun, hc.eip, ?_, rfl, rfl⟩
  · rw [initIDT_gate ht, hs, hent]
    rfl
  · rw [← hmem]
    exact hw

end

/-- Descriptors with the privilege levels of the GDT, paging without effect. -/
def flat : Tables := ⟨fun _ x => x, fun s => if 3 ≤ s.toNat / 8 then 3 else 0⟩

open DescriptorTables in
theorem flat_loaded : ∃ d, initGDT 0x6000 blank = .ok d ∧ Loaded flat d := by
  refine ⟨_, rfl, fun s rpl hr => ?_⟩
  have hrpl : rpl = 0 ∨ rpl = 1 ∨ rpl = 2 ∨ rpl = 3 := by omega
  cases s <;> rcases hrpl with rfl | rfl | rfl | rfl <;> decide

theorem userCode_kernelStack :
    Sim flat 0x8F00 0x9000 userCode.mem ((onRing 0 0x10 (0x9000 : UInt32).toBitVec userCode).withMem []) :=
  userCode_stack flat

/-- The system call gate, with the stubs at `0x1000`. -/
theorem initIDT_serves_syscall : ∃ t g,
    initIDT 0x5000 (fun _ => 0x1000) (fun _ => 0x3000) = .ok t ∧ (t 128).gate = some g ∧
      Serves returnsAtOnce flat
        (placed 0x1000 ((Stub.isrNoErrCode 128).text 0x1004 ++ commonStub 0x2000)) 0x8F00 0x9000
        (.isrNoErrCode 128) g 0x2000 0x10 0x9000 none userCode := by
  obtain ⟨d, hd, hT⟩ := flat_loaded
  have hl : Linked (seen flat (placed 0x1000 ((Stub.isrNoErrCode 128).text 0x1004 ++
      commonStub 0x2000)) userCode) (.isrNoErrCode 128)
      (entryOf (fun _ => 0x1000) (fun _ => 0x3000) 128).toBitVec 0x1004
      (handlerOf 0x2000 0x2100 128) := by
    rw [seen_off (by decide)]
    exact .placed rfl
  have hss : (d.tssEntry.ss0) = 0x10 := (initGDT_dpl hd hT).2.2
  obtain ⟨t, ht⟩ : ∃ t, initIDT 0x5000 (fun _ => 0x1000) (fun _ => 0x3000) = .ok t := ⟨_, rfl⟩
  obtain ⟨g, hg, -, -, hs⟩ := initIDT_serves returnsAtOnce hd hT ht
    (rfl : stubOf 128 = some (.isrNoErrCode 128)) hl
    (rfl : (none : Option Word).isSome = (Stub.isrNoErrCode 128).hasErrCode) (by decide) (.inr rfl)
    userCode_kernelStack (by decide)
  refine ⟨t, g, ht, hg, ?_⟩
  rw [show (setKernelStack 0x9000 d).tssEntry.ss0 = 0x10 from hss] at hs
  exact hs

/-- User code raises a page fault. -/
theorem softInterrupt_shifted_user : ∃ t g f,
    initIDT 0x5000 (fun _ => 0x1000) (fun _ => 0x3000) = .ok t ∧ (t 14).gate = some g ∧
      softInterrupt flat g 0x10 0x9000 userCode = some f := by
  obtain ⟨d, hd, hT⟩ := flat_loaded
  have hl : Linked (seen flat (placed 0x1000 ((Stub.isrErrCode (.ofNat 32 14)).text 0x1003 ++
      commonStub 0x2000)) userCode) (.isrErrCode (.ofNat 32 14)) (0x1000 : UInt32).toBitVec 0x1003
      0x2000 := by
    rw [seen_off (by decide)]
    exact .placed rfl
  obtain ⟨t, ht⟩ : ∃ t, initIDT 0x5000 (fun _ => 0x1000) (fun _ => 0x3000) = .ok t := ⟨_, rfl⟩
  obtain ⟨g, f, e, ret, ws, hg, hf, -⟩ := softInterrupt_shifted returnsAtOnce hd hT ht
    (by decide : 14 ∈ [8, 10, 11, 12, 13, 14]) hl userCode_kernelStack (by decide)
  exact ⟨t, g, f, ht, hg, hf⟩

end Dmanix.Isr
