import Dmanix.Lib.X86Stack

/-!
# The interrupt stubs (`src/interrupt/interrupt.s`, `src/interrupt/irq.s`)

Each vector has a stub of its own, which pushes an error code where the processor has not pushed
one, and the number of the vector; all jump to `isr_common_stub` or `irq_common_stub`, which differ
in the routine they call. The words on the stack at that call are `struct Registers`.
-/

namespace Dmanix.Isr

open X86 Bytes

/-- `struct Registers` (`src/interrupt/isr.h`) -/
structure Registers where
  ds : Word
  edi : Word
  esi : Word
  ebp : Word
  esp : Word
  ebx : Word
  edx : Word
  ecx : Word
  eax : Word
  intNo : Word
  errCode : Word
  eip : Word
  cs : Word
  eflags : Word
  useresp : Word
  ss : Word
  deriving DecidableEq, Repr

/-- The members that the stubs push, as they lie in memory; the processor's follow. -/
def Registers.pushed (r : Registers) : List Word :=
  [r.ds, r.edi, r.esi, r.ebp, r.esp, r.ebx, r.edx, r.ecx, r.eax, r.intNo]

/-- The members that describe the interrupted code. The last two are there when it ran in another
ring. -/
def Registers.interrupted (r : Registers) (outer : Bool) : List Word :=
  [r.eip, r.cs, r.eflags] ++ if outer then [r.useresp, r.ss] else []

def Registers.words (r : Registers) (outer : Bool) : List Word :=
  r.pushed ++ r.errCode :: r.interrupted outer

/-- `isr_common_stub` up to its call -/
def saveState : List Instr :=
  [.pusha,
   .getSeg .eax .ds,
   .push (.reg .eax),
   .movHalf .eax 0x10,
   .setSeg .ds .eax,
   .setSeg .es .eax,
   .setSeg .fs .eax,
   .setSeg .gs .eax]

/-- `isr_common_stub` from its call to its `iret` -/
def restoreState : List Instr :=
  [.pop .ebx,
   .setSeg .ds .ebx,
   .setSeg .es .ebx,
   .setSeg .fs .ebx,
   .setSeg .gs .ebx,
   .popa,
   .alu .add .esp (.imm 8),
   .sti]

/-- `isr_common_stub` with `isr_handler`, `irq_common_stub` with `irq_handler` -/
def commonStub (handler : Word) : List Instr :=
  saveState ++ .call (.imm handler) :: (restoreState ++ [.iret])

/-- The macros that make the stubs; the first argument of `IRQ` only names the stub. -/
inductive Stub where
  | isrNoErrCode (n : Word)
  | isrErrCode (n : Word)
  | irq (i n : Word)
  deriving DecidableEq, Repr

/-- The stub of a vector, where the common stub lies at `common`. -/
def Stub.text (common : Word) : Stub → List Instr
  | .isrNoErrCode n => [.cli, .push (.imm 0), .push (.imm n), .jmp (.imm common)]
  | .isrErrCode n => [.cli, .push (.imm n), .jmp (.imm common)]
  | .irq _ n => [.cli, .push (.imm 0), .push (.imm n), .jmp (.imm common)]

/-- The number that the stub hands on. -/
def Stub.intNo : Stub → Word
  | .isrNoErrCode n | .isrErrCode n | .irq _ n => n

/-- The stub leaves the error code to the processor. -/
def Stub.hasErrCode : Stub → Bool
  | .isrErrCode _ => true
  | _ => false

/-! ## Into the handler -/

section
variable {T : Tables} {code : Code} (ext : Cpu → Cpu → Prop) {lo hi : Nat} {m : Mem} {s : Listed}

/-- The words that `isr_common_stub` pushes. -/
def savedWords (s : Listed) : List Word :=
  [withLow (s.regs .eax) (s.segs .ds), s.regs .edi, s.regs .esi, s.regs .ebp, s.regs .esp,
    s.regs .ebx, s.regs .edx, s.regs .ecx, s.regs .eax]

/-- The processor at the call: its state is on the stack, its data segments are the kernel's. -/
structure Saved (s t : Listed) : Prop where
  mem : t.mem = savedWords s ++ s.mem
  segs : t.segs = fun q => if q = .cs ∨ q = .ss then s.segs q else 0x10
  eflags : t.eflags = s.eflags
  cr0 : t.cr0 = s.cr0
  cr3 : t.cr3 = s.cr3

theorem saveState_eq (s : Listed) : ∃ t, onStackAll saveState s = some t ∧ Saved s t := by
  refine ⟨_, rfl, rfl, ?_, rfl, rfl, rfl⟩
  funext q
  cases q with
  | cs | ss => rfl
  | ds | es | fs | gs => exact lowHalf_withLow _ _

/-- The processor at the jump to the common stub. -/
structure Entered (v : Stub) (s t : Listed) : Prop where
  mem : t.mem = v.intNo :: (if v.hasErrCode then [] else [0]) ++ s.mem
  regs : ∀ q, q ≠ .esp → t.regs q = s.regs q
  segs : t.segs = s.segs
  eflags : t.eflags = setFlag interruptEnable false s.eflags
  cr0 : t.cr0 = s.cr0
  cr3 : t.cr3 = s.cr3

theorem Stub.enter (v : Stub) (common : Word) (hk : s.cpl = 0) :
    ∃ is t, v.text common = is ++ [.jmp (.imm common)] ∧ pushesAll is ≤ 2 ∧
      onStackAll is s = some t ∧ Entered v s t := by
  have hcli : onStack .cli s = some (s.setFlags (setFlag interruptEnable false s.eflags)) := by
    simp only [onStack, Core.kernelOnly, if_pos hk]
    rfl
  have hrun : ∀ ws : List Instr, onStackAll (.cli :: ws) s =
      onStackAll ws (s.setFlags (setFlag interruptEnable false s.eflags)) := fun ws => by
    simp only [onStackAll, hcli, Option.bind_eq_bind, Option.bind_some]
  cases v with
  | isrErrCode n =>
    refine ⟨[.cli, .push (.imm n)], _, rfl, by simp [pushesAll, Instr.pushes], hrun _, rfl, ?_, rfl,
      rfl, rfl, rfl⟩
    exact fun q hq => if_neg hq
  | isrNoErrCode n =>
    refine ⟨[.cli, .push (.imm 0), .push (.imm n)], _, rfl, by simp [pushesAll, Instr.pushes],
      hrun _, rfl, ?_, rfl, rfl, rfl, rfl⟩
    exact fun q hq => (if_neg hq).trans (if_neg hq)
  | irq i n =>
    refine ⟨[.cli, .push (.imm 0), .push (.imm n)], _, rfl, by simp [pushesAll, Instr.pushes],
      hrun _, rfl, ?_, rfl, rfl, rfl, rfl⟩
    exact fun q hq => (if_neg hq).trans (if_neg hq)

/-- The stub of `v` lies at `entry`, its common stub at `common`; `handler` is not assembly. -/
structure Linked (code : Code) (v : Stub) (entry common handler : Word) : Prop where
  stub : ∃ b, Listing code entry (v.text common) b
  common : ∃ b, Listing code common (commonStub handler) b
  routine : code handler.toNat = none

/-- The processor at the first instruction of the handler, which is to return to `ret`. -/
structure Called (v : Stub) (handler ret sp : Word) (s t : Listed) : Prop where
  eip : t.eip = handler
  mem : t.mem = ret :: savedWords (s.setReg .esp sp) ++ v.intNo ::
    (if v.hasErrCode then [] else [0]) ++ s.mem
  sp : sp.toNat = (t.regs .esp).toNat + 40
  segs : t.segs = fun q => if q = .cs ∨ q = .ss then s.segs q else 0x10
  eflags : t.eflags = setFlag interruptEnable false s.eflags
  cr0 : t.cr0 = s.cr0
  cr3 : t.cr3 = s.cr3

/-- **From the gate to the handler.** -/
theorem Linked.call {v : Stub} {entry common handler : Word}
    (hl : Linked (seen T code s) v entry common handler) (h : Sim T lo hi m s) (he : s.eip = entry)
    (hk : s.cpl = 0) (hr : lo + 48 ≤ (s.regs .esp).toNat) :
    ∃ ret sp t, Called v handler ret sp s t ∧
      Gets T code ext lo hi hi ((s.withMem m).view T) (s.withMem m) [] t ∧
      ∃ b, Listing (seen T code s) ret (restoreState ++ [.iret]) b := by
  obtain ⟨_, hstub⟩ := hl.stub
  obtain ⟨last, hcommon⟩ := hl.common
  obtain ⟨is, s1, hv, hp, hs1, e1⟩ := v.enter common hk
  rw [hv] at hstub
  obtain ⟨d, hline, hjmp⟩ := Listing.append hstub
  obtain ⟨d2, hsave, hrest⟩ := Listing.append hcommon
  cases hjmp with
  | @cons _ behind _ _ _ hj _ =>
  cases hrest with
  | @cons _ ret _ _ _ hc hrest =>
  obtain ⟨s3, hs3, e3⟩ := saveState_eq ((s1.setEip d).setEip common)
  have hlen : s1.mem.length ≤ s.mem.length + 2 := by
    rw [e1.mem]
    simp only [List.length_append, List.length_cons]
    split <;> simp <;> omega
  have hlen3 : s3.mem.length = 9 + s1.mem.length := by
    rw [e3.mem, List.length_append]
    rfl
  have hsp := h.sp
  have hsp1 : (s1.regs .esp).toNat + 4 * s1.mem.length = hi := by
    have hb : Gets T code ext lo hi hi _ _ _ _ :=
      h.block hline he hs1 (.inr (Nat.le_refl _)) (by omega)
    obtain ⟨_, _, S1, _⟩ := hb
    exact S1.sp
  have hseen1 : seen T code (s1.setEip d) = seen T code s := seen_congr e1.cr0 e1.cr3
  have hseen2 : seen T code ((s1.setEip d).setEip common) = seen T code s := hseen1
  have hseen3 : seen T code (s3.setEip d2) = seen T code s :=
    seen_congr (e3.cr0.trans e1.cr0) (e3.cr3.trans e1.cr3)
  have hget : Gets T code ext lo hi hi ((s.withMem m).view T) (s.withMem m) []
      (((s3.setEip d2).pushList ret).setEip handler) := by
    refine Gets.trans (f := []) (h.block hline he hs1 (.inr (Nat.le_refl _)) (by omega)) fun m1 S1 => ?_
    have hj' : seen T code (s1.setEip d) d.toNat = some (.jmp (.imm common), behind) := by
      rw [hseen1]
      exact hj
    refine Gets.trans (f := []) (S1.jmp hj') fun m2 S2 => ?_
    refine Gets.trans (f := []) (S2.block (b := d2) (hseen2 ▸ hsave) rfl hs3
      (.inr (Nat.le_refl _)) ?_) fun m3 S3 => ?_
    · show lo + 4 * 9 ≤ (s1.regs .esp).toNat
      omega
    have hc' : seen T code (s3.setEip d2) d2.toNat = some (.call (.imm handler), ret) := by
      rw [hseen3]
      exact hc
    refine S3.call hc' (Nat.le_refl _) ?_
    have hsp3 : (s3.regs .esp).toNat + 4 * s3.mem.length = hi := S3.sp
    show lo + 4 ≤ (s3.regs .esp).toNat
    omega
  refine ⟨ret, s1.regs .esp, ((s3.setEip d2).pushList ret).setEip handler, ?_, hget, last, hrest⟩
  have hwords : savedWords ((s1.setEip d).setEip common) = savedWords (s.setReg .esp (s1.regs .esp)) := by
    have hseg : s1.segs = s.segs := e1.segs
    simp [savedWords, e1.regs, hseg]
  refine ⟨rfl, ?_, ?_, ?_, e3.eflags.trans e1.eflags, e3.cr0.trans e1.cr0, e3.cr3.trans e1.cr3⟩
  · show ret :: s3.mem = _
    rw [e3.mem, hwords]
    show ret :: (_ ++ s1.mem) = _
    rw [e1.mem]
    simp
  · obtain ⟨_, _, S, _⟩ := hget
    have hspt : (((s3.setEip d2).pushList ret).regs .esp).toNat + 4 * (s3.mem.length + 1) = hi := S.sp
    show (s1.regs .esp).toNat = (((s3.setEip d2).pushList ret).regs .esp).toNat + 40
    omega
  · show s3.segs = _
    simp only [e3.segs, Core.setEip_segs, e1.segs]

/-- The processor before the `iret`: the registers that `r` holds, and `ws` on the stack. -/
structure Restored (r : Registers) (ws : List Word) (s t : Listed) : Prop where
  mem : t.mem = ws
  edi : t.regs .edi = r.edi
  esi : t.regs .esi = r.esi
  ebp : t.regs .ebp = r.ebp
  ebx : t.regs .ebx = r.ebx
  edx : t.regs .edx = r.edx
  ecx : t.regs .ecx = r.ecx
  eax : t.regs .eax = r.eax
  cs : t.segs .cs = s.segs .cs
  ss : t.segs .ss = s.segs .ss
  data : t.segs .ds = lowHalf r.ds ∧ t.segs .es = lowHalf r.ds ∧ t.segs .fs = lowHalf r.ds ∧
    t.segs .gs = lowHalf r.ds
  nested : t.eflags.getLsbD nested = s.eflags.getLsbD nested
  cr0 : t.cr0 = s.cr0
  cr3 : t.cr3 = s.cr3

theorem restoreState_eq {r : Registers} {ws : List Word} (hk : s.cpl = 0)
    (hm : s.mem = r.pushed ++ r.errCode :: ws) :
    ∃ t, onStackAll restoreState s = some t ∧ Restored r ws s t := by
  obtain ⟨regs, segs, eflags, cr0, cr3, eip, mem⟩ := s
  subst hm
  obtain ⟨t, ht, hr⟩ : ∃ t, onStackAll restoreState.dropLast
      ⟨regs, segs, eflags, cr0, cr3, eip, r.pushed ++ r.errCode :: ws⟩ = some t ∧
      Restored r ws ⟨regs, segs, eflags, cr0, cr3, eip, r.pushed ++ r.errCode :: ws⟩ t := by
    refine ⟨_, rfl, rfl, rfl, rfl, rfl, rfl, rfl, rfl, rfl, rfl, rfl, ⟨rfl, rfl, rfl, rfl⟩, ?_, rfl, rfl⟩
    exact Alu.getLsbD_flags .add _ _ eflags (by decide)
  have hsti : onStack .sti t = some (t.setFlags (setFlag interruptEnable true t.eflags)) := by
    have hk' : t.cpl = 0 := by
      unfold Core.cpl
      rw [hr.cs]
      exact hk
    simp only [onStack, Core.kernelOnly, if_pos hk']
    rfl
  refine ⟨t.setFlags (setFlag interruptEnable true t.eflags), ?_, ?_⟩
  · rw [show restoreState = restoreState.dropLast ++ [.sti] from rfl, onStackAll_append, ht]
    simp only [Option.bind_some, onStackAll, hsti, Option.bind_eq_bind]
  · exact { hr with nested := (getLsbD_setFlag (by decide)).trans hr.nested }

/-- The processor goes on where `r` says, with the registers that `r` holds. -/
structure Resumed (T : Tables) (r : Registers) (d c : Cpu) : Prop where
  eip : c.eip = r.eip
  cs : c.segs .cs = lowHalf r.cs
  eflags : c.eflags = r.eflags
  edi : c.regs .edi = r.edi
  esi : c.regs .esi = r.esi
  ebp : c.regs .ebp = r.ebp
  ebx : c.regs .ebx = r.ebx
  edx : c.regs .edx = r.edx
  ecx : c.regs .ecx = r.ecx
  eax : c.regs .eax = r.eax
  data : c.segs .ds = lowHalf r.ds ∧ c.segs .es = lowHalf r.ds ∧ c.segs .fs = lowHalf r.ds ∧
    c.segs .gs = lowHalf r.ds
  cr0 : c.cr0 = d.cr0
  cr3 : c.cr3 = d.cr3
  view : c.view T = d.view T

section
variable {r : Registers} {d : Cpu} {ws : List Word} {b : Word}
  (hl : Listing (seen T code d) d.eip (restoreState ++ [.iret]) b) (hk : d.cpl = 0)
  (hn : d.eflags.getLsbD nested = false) (hv : r.eflags.getLsbD virtual8086 = false)
include hl hk

theorem restored (h : Sim T lo hi d.mem (d.withMem (r.pushed ++ r.errCode :: ws))) :
    ∃ t next m, Restored r ws (d.withMem (r.pushed ++ r.errCode :: ws)) t ∧
      Runs T code ext d [] (t.withMem m) ∧ Sim T lo hi m t ∧
      seen T code t t.eip.toNat = some (.iret, next) ∧ (t.withMem m).view T = d.view T := by
  obtain ⟨e, hline, hlast⟩ := Listing.append hl
  cases hlast with
  | @cons _ next _ _ _ he _ =>
  obtain ⟨t, ht, hr⟩ := restoreState_eq (s := d.withMem (r.pushed ++ r.errCode :: ws)) hk rfl
  have hroom : lo + 4 * pushesAll restoreState ≤ (d.regs .esp).toNat := by
    have := h.low
    simpa [pushesAll, restoreState, Instr.pushes] using this
  have hseen : seen T code (d.withMem (r.pushed ++ r.errCode :: ws)) = seen T code d :=
    seen_congr rfl rfl
  have hb : Gets T code ext lo hi lo _ _ _ _ := h.block (hseen ▸ hline) (Eq.refl d.eip) ht
    (.inl (by simp [pushesAll, restoreState, Instr.pushes])) hroom
  obtain ⟨m, hrun, hs, ho⟩ := hb
  refine ⟨t.setEip e, next, m, { hr with }, hrun, hs, ?_, funext fun x => ho x (by omega)⟩
  rw [← he]
  exact congrFun (seen_congr hr.cr0 hr.cr3) _

include hn hv

theorem resume_same (h : Sim T lo hi d.mem (d.withMem (r.words false)))
    (hc : (lowHalf r.cs).toNat % 4 = 0) :
    ∃ c, Runs T code ext d [] c ∧ Resumed T r d c ∧ (c.regs .esp).toNat = hi ∧
      c.segs .ss = d.segs .ss := by
  obtain ⟨t, next, m, hr, hrun, hs, hf, hview⟩ := restored ext hl hk h
  have hs' := (hs.change (t := t.setEip next) rfl rfl rfl rfl).1
  have hk' : (t.setEip next).cpl = 0 := by
    show (t.segs .cs).toNat % 4 = 0
    rw [hr.cs]
    exact hk
  have hx := hs'.iret hk' (hr.nested.trans hn) hv (hr.mem : t.mem = [r.eip, r.cs, r.eflags]) hc
  refine ⟨_, hrun.trans (f := []) (.step hf hx (.refl _)), ?_, ?_, ?_⟩
  · exact ⟨rfl, rfl, rfl, hr.edi, hr.esi, hr.ebp, hr.ebx, hr.edx, hr.ecx, hr.eax, hr.data, hr.cr0,
      hr.cr3, hview⟩
  · have hd := (hs'.drop (k := 3) (by rw [show (t.setEip next).mem = _ from hr.mem]; rfl)).sp
    rw [show ((t.setEip next).dropList 3).mem = [] by
      rw [show ((t.setEip next).dropList 3).mem = t.mem.drop 3 from rfl, hr.mem]
      rfl] at hd
    exact hd
  · exact hr.ss

theorem resume_outer (h : Sim T lo hi d.mem (d.withMem (r.words true)))
    (hc : (lowHalf r.cs).toNat % 4 ≠ 0) (hd : (lowHalf r.cs).toNat % 4 ≤ T.dpl (lowHalf r.ds)) :
    ∃ c, Runs T code ext d [] c ∧ Resumed T r d c ∧ c.regs .esp = r.useresp ∧
      c.segs .ss = lowHalf r.ss := by
  obtain ⟨t, next, m, hr, hrun, hs, hf, hview⟩ := restored ext hl hk h
  have hs' := (hs.change (t := t.setEip next) rfl rfl rfl rfl).1
  have hk' : (t.setEip next).cpl = 0 := by
    show (t.segs .cs).toNat % 4 = 0
    rw [hr.cs]
    exact hk
  have hx := hs'.iretOuter hk' (hr.nested.trans hn) hv
    (hr.mem : t.mem = [r.eip, r.cs, r.eflags, r.useresp, r.ss]) hc
  refine ⟨_, hrun.trans (f := []) (.step hf hx (.refl _)), ?_, rfl, rfl⟩
  have hseg : ∀ q, q ≠ .cs → q ≠ .ss → t.segs q = lowHalf r.ds →
      (((((resumed r.eip r.cs r.eflags (t.setEip next)).setReg .esp r.useresp).setSeg .ss
        (lowHalf r.ss)).dropSegs T (resumed r.eip r.cs r.eflags (t.setEip next)).cpl)).segs q =
        lowHalf r.ds := fun q h1 h2 hq => by
    have hq' : ((((resumed r.eip r.cs r.eflags (t.setEip next)).setReg .esp r.useresp).setSeg .ss
        (lowHalf r.ss))).segs q = lowHalf r.ds := by
      simp [resumed, Core.dropList, h1, h2, hq]
    rw [Core.dropSegs_segs _ (by rw [hq']; exact hd), hq']
  obtain ⟨h1, h2, h3, h4⟩ := hr.data
  exact ⟨rfl, rfl, rfl, hr.edi, hr.esi, hr.ebp, hr.ebx, hr.edx, hr.ecx, hr.eax,
    ⟨hseg .ds (by decide) (by decide) h1, hseg .es (by decide) (by decide) h2,
      hseg .fs (by decide) (by decide) h3, hseg .gs (by decide) (by decide) h4⟩, hr.cr0, hr.cr3, hview⟩

end

end

/-! ## An interrupt -/

/-- The `struct Registers` that the stub of `v` makes of the interrupted processor; `sp` is what
`pusha` pushes for the stack pointer. -/
def Registers.of (v : Stub) (error : Option Word) (sp : Word) (c : Cpu) : Registers where
  ds := withLow (c.regs .eax) (c.segs .ds)
  edi := c.regs .edi
  esi := c.regs .esi
  ebp := c.regs .ebp
  esp := sp
  ebx := c.regs .ebx
  edx := c.regs .edx
  ecx := c.regs .ecx
  eax := c.regs .eax
  intNo := v.intNo
  errCode := error.getD 0
  eip := c.eip
  cs := (c.segs .cs).setWidth 32
  eflags := c.eflags
  useresp := c.regs .esp
  ss := (c.segs .ss).setWidth 32

section
variable (T : Tables) (lo hi : Nat)

/-- The interrupted code ran in another ring. -/
def outer (c : Cpu) : Bool := decide (0 < c.cpl)

/-- The C routine is entered with its argument `r` on the stack, below `hi`, in ring 0, with the
kernel's data segments and interrupts disabled, and not as a nested task. -/
structure Handling (r : Registers) (out : Bool) (handler ret : Word) (e : Cpu) : Prop where
  eip : e.eip = handler
  stack : Sim T lo hi e.mem (e.withMem (ret :: r.words out))
  kernel : e.cpl = 0
  data : e.segs .ds = 0x10 ∧ e.segs .es = 0x10 ∧ e.segs .fs = 0x10 ∧ e.segs .gs = 0x10
  disabled : e.eflags.getLsbD interruptEnable = false
  nested : e.eflags.getLsbD nested = false

/-- The C routine, entered at `e`, has returned, and has left `r` in its argument. -/
structure Returned (r : Registers) (out : Bool) (ret : Word) (e f : Cpu) : Prop where
  eip : f.eip = ret
  esp : f.regs .esp = e.regs .esp + 4
  words : Stacked (f.view T) (f.regs .esp).toNat (r.words out)
  segs : f.segs = e.segs
  cr0 : f.cr0 = e.cr0
  cr3 : f.cr3 = e.cr3
  nested : f.eflags.getLsbD nested = false

end

section
variable {T : Tables} {code : Code} (ext : Cpu → Cpu → Prop) {lo hi : Nat}

theorem Returned.sim {r r' : Registers} {out : Bool} {handler ret : Word} {e f : Cpu}
    (h : Handling T lo hi r out handler ret e) (hr : Returned T r' out ret e f) :
    Sim T lo hi f.mem (f.withMem (r'.words out)) := by
  have hlen : (r'.words out).length = (r.words out).length := by cases out <;> rfl
  have hsp : (e.regs .esp).toNat + 4 * ((r.words out).length + 1) = hi := h.stack.sp
  have hlow : lo ≤ (e.regs .esp).toNat := h.stack.low
  have htop := h.stack.top
  have he : (f.regs .esp).toNat = (e.regs .esp).toNat + 4 := by
    rw [hr.esp, BitVec.toNat_add]
    show ((e.regs .esp).toNat + 4) % 4294967296 = _
    omega
  refine ⟨?_, ?_, htop, ?_, hr.words⟩
  · show (f.regs .esp).toNat + 4 * (r'.words out).length = hi
    omega
  · show lo ≤ (f.regs .esp).toNat
    omega
  · have hp : ∀ x, f.phys T x = e.phys T x := fun x => by
      unfold Core.phys Core.paging
      rw [hr.cr0, hr.cr3]
    intro x y h1 h2 hxy
    exact h.stack.apart x y h1 h2 (((hp y).symm.trans hxy).trans (hp x))

/-- What the processor and the stubs push is the struct of the interrupted processor. -/
theorem Called.words {v : Stub} {g : Gate} {ss0 : Selector} {error : Option Word} {c : Cpu}
    {handler ret sp : Word} {s t : Listed} (hv : error.isSome = v.hasErrCode)
    (h : Called v handler ret sp s t) (hs : Interrupted g 0 ss0 error c s) :
    t.mem = ret :: (Registers.of v error sp c).words (outer c) := by
  have herr : (if v.hasErrCode then [] else [0]) ++ error.toList = [error.getD 0] := by
    rw [← hv]
    cases error <;> rfl
  have hseg : s.segs .ds = c.segs .ds := hs.segs .ds (by decide) (by decide)
  rw [h.mem, hs.mem]
  simp only [savedWords, saved, Registers.words, Registers.pushed, Registers.interrupted,
    Registers.of, outer, Core.setReg_regs, Core.setReg_segs, hseg, hs.regs, ne_eq, reduceCtorEq,
    not_false_eq_true, if_false, if_true, decide_eq_true_eq, List.cons_append, List.nil_append,
    List.append_assoc]
  rw [← List.append_assoc _ error.toList, herr]
  rfl

/-- **From the interrupted code to the handler**, through the gate and the stubs. -/
theorem Linked.enters {v : Stub} {g : Gate} {common handler : Word} {ss0 : Selector} {esp0 : Word}
    (error : Option Word) {c : Cpu} (hl : Linked (seen T code c) v g.offset common handler)
    (hg : g.present = true) (h0 : T.dpl g.selector = 0)
    (h : Sim T lo hi c.mem ((onRing 0 ss0 esp0 c).withMem [])) (hr : lo + 72 ≤ hi) :
    ∃ m s m' t ret sp, interrupt T g ss0 esp0 error c = some (s.withMem m) ∧
      Interrupted g 0 ss0 error c s ∧ s.cpl = 0 ∧ Called v handler ret sp s t ∧
      Runs T code ext (s.withMem m) [] (t.withMem m') ∧ Sim T lo hi m' t ∧
      Off lo hi (c.view T) ((t.withMem m').view T) ∧
      ∃ b, Listing (seen T code s) ret (restoreState ++ [.iret]) b := by
  have hlen : (saved 0 error c).length ≤ 6 := by
    unfold saved
    cases error <;> split <;> simp
  have hroom : lo + 4 * (saved (T.dpl g.selector) error c).length ≤ hi := by
    rw [h0]
    omega
  obtain ⟨m, s, hint, hs, ho, hi'⟩ := Sim.interrupt (by rw [h0]; exact h) hg (by omega) hroom
  rw [h0] at hi'
  have hk : s.cpl = 0 := by
    have := Gate.jump_cpl (g := g) (n := 0) (by decide) c.eflags c
    unfold Core.cpl at *
    rw [hi'.cs]
    exact this
  have hsp := hs.sp
  rw [hi'.mem] at hsp
  have hseen : seen T code s = seen T code c := seen_congr hi'.cr0 hi'.cr3
  obtain ⟨ret, sp, t, hc, ⟨m', hrun, ht, ho'⟩, b, hrest⟩ :=
    (hseen ▸ hl : Linked (seen T code s) v g.offset common handler).call ext hs hi'.eip hk
      (by omega)
  exact ⟨m, s, m', t, ret, sp, hint, hi', hk, hc, hrun, ht, ho.trans ho', b, hrest⟩

/-- An interrupt of `c` through the gate `g` is served by the C routine `handler`, which gets the
interrupted processor as its argument. When the routine returns, what was interrupted goes on, with
`eax` as the routine has left it in the argument and the other registers as they were; only `es`,
`fs` and `gs` are loaded from `ds`. -/
def Serves (T : Tables) (code : Code) (lo hi : Nat) (v : Stub) (g : Gate) (handler : Word)
    (ss0 : Selector) (esp0 : Word) (error : Option Word) (c : Cpu) : Prop :=
  ∃ d e ret sp, interrupt T g ss0 esp0 error c = some d ∧ Runs T code ext d [] e ∧
    Handling T lo hi (.of v error sp c) (outer c) handler ret e ∧
    sp.toNat = (e.regs .esp).toNat + 40 ∧ Off lo hi (c.view T) (e.view T) ∧
    ∀ f a, ext e f → Returned T { Registers.of v error sp c with eax := a } (outer c) ret e f →
      ∃ c', Runs T code ext d [handler] c' ∧ c'.eip = c.eip ∧ c'.eflags = c.eflags ∧
        c'.regs = (c.setReg .eax a).regs ∧
        (c'.segs = fun q => if q = .cs ∨ q = .ss then c.segs q else c.segs .ds) ∧
        c'.cr0 = c.cr0 ∧ c'.cr3 = c.cr3 ∧ c'.view T = f.view T

/-- **An interrupt is transparent**, whatever it interrupts. -/
theorem transparent {v : Stub} {g : Gate} {common handler : Word} {ss0 : Selector} {esp0 : Word}
    {error : Option Word} {c : Cpu} (hl : Linked (seen T code c) v g.offset common handler)
    (hg : g.present = true) (h0 : T.dpl g.selector = 0) (hv : error.isSome = v.hasErrCode)
    (hvm : c.eflags.getLsbD virtual8086 = false) (hds : c.cpl ≤ T.dpl (c.segs .ds))
    (h : Sim T lo hi c.mem ((onRing 0 ss0 esp0 c).withMem [])) (hr : lo + 72 ≤ hi) :
    Serves ext T code lo hi v g handler ss0 esp0 error c := by
  obtain ⟨m, s, m', t, ret, sp, hint, hi', hk, hc, hrun, ht, ho, b, hrest⟩ :=
    hl.enters ext error hg h0 h hr
  have hseen : seen T code s = seen T code c := seen_congr hi'.cr0 hi'.cr3
  have hcs : t.segs .cs = s.segs .cs := congrFun hc.segs .cs
  have he : Handling T lo hi (.of v error sp c) (outer c) handler ret (t.withMem m') := by
    refine ⟨hc.eip, ?_, ?_, ?_, ?_, ?_⟩
    · rw [← hc.words hv hi']
      exact ht
    · show (t.segs .cs).toNat % 4 = 0
      rw [hcs]
      exact hk
    · rw [show (t.withMem m').segs = _ from hc.segs]
      exact ⟨rfl, rfl, rfl, rfl⟩
    · rw [show (t.withMem m').eflags = _ from hc.eflags]
      exact getLsbD_setFlag (by decide)
    · rw [show (t.withMem m').eflags = _ from hc.eflags, hi'.eflags]
      rw [gateFlags, getLsbD_setFlag (by decide), if_neg (by decide), getLsbD_setFlag (by decide),
        if_neg (by decide), getLsbD_setFlag (by decide), if_neg (by decide),
        getLsbD_setFlag (by decide), if_pos rfl]
  refine ⟨_, t.withMem m', ret, sp, hint, hrun, he, hc.sp, ho, fun f a hext hret => ?_⟩
  have hseen' : seen T code (t.withMem m') = seen T code s := seen_congr hc.cr0 hc.cr3
  have hfetch : fetch T code (t.withMem m') = none := by
    show seen T code (t.withMem m') t.eip.toNat = none
    rw [hseen', hseen, hc.eip]
    exact hl.routine
  have hcall : ∀ c', Runs T code ext f [] c' → Runs T code ext (s.withMem m) [handler] c' :=
    fun c' h => hc.eip ▸ hrun.trans (.routine hfetch hext h)
  have hrest' : Listing (seen T code f) f.eip (restoreState ++ [.iret]) b := by
    rw [hret.eip, seen_congr (hret.cr0.trans hc.cr0) (hret.cr3.trans hc.cr3)]
    exact hrest
  have hkf : f.cpl = 0 := by
    unfold Core.cpl
    rw [hret.segs]
    exact he.kernel
  have hsim := hret.sim he
  have h0' : f.cr0 = c.cr0 := hret.cr0.trans (hc.cr0.trans hi'.cr0)
  have h3' : f.cr3 = c.cr3 := hret.cr3.trans (hc.cr3.trans hi'.cr3)
  obtain ⟨r, hr⟩ : ∃ r, r = { Registers.of v error sp c with eax := a } := ⟨_, rfl⟩
  have hrcs : lowHalf r.cs = c.segs .cs := by rw [hr]; exact lowHalf_setWidth _
  have hrds : lowHalf r.ds = c.segs .ds := by rw [hr]; exact lowHalf_withLow _ _
  have hrfl : r.eflags = c.eflags := by rw [hr]; rfl
  rw [← hr] at hsim
  have hgo : ∃ c', Runs T code ext f [] c' ∧ Resumed T r f c' ∧ c'.regs .esp = c.regs .esp ∧
      c'.segs .ss = c.segs .ss := by
    by_cases hout : 0 < c.cpl
    · rw [show outer c = true from decide_eq_true hout] at hsim
      obtain ⟨c', hrun', hres, hesp, hss⟩ := resume_outer ext hrest' hkf hret.nested
        (hrfl ▸ hvm) hsim (by rw [hrcs]; exact Nat.ne_of_gt hout) (by rw [hrcs, hrds]; exact hds)
      refine ⟨c', hrun', hres, hesp.trans ?_, hss.trans ?_⟩
      · rw [hr]
        rfl
      · rw [hr]
        exact lowHalf_setWidth _
    · rw [show outer c = false from decide_eq_false hout] at hsim
      obtain ⟨c', hrun', hres, hesp, hss⟩ := resume_same ext hrest' hkf hret.nested
        (hrfl ▸ hvm) hsim (by rw [hrcs]; exact Nat.eq_zero_of_not_pos hout)
      have hsame : onRing 0 ss0 esp0 c = c := if_neg hout
      have htop : (c.regs .esp).toNat + 4 * 0 = hi := by
        have := h.sp
        rw [hsame] at this
        exact this
      refine ⟨c', hrun', hres, BitVec.eq_of_toNat_eq (hesp.trans (by omega)), hss.trans ?_⟩
      rw [hret.segs]
      refine (congrFun hc.segs .ss).trans (hi'.ss.trans ?_)
      rw [if_neg hout]
  obtain ⟨c', hrun', hres, hesp, hss⟩ := hgo
  refine ⟨c', hcall c' hrun', ?_, hres.eflags.trans hrfl, ?_, ?_, hres.cr0.trans h0',
    hres.cr3.trans h3', hres.view⟩
  · rw [hres.eip, hr]
    rfl
  · funext q
    cases q with
    | esp => exact hesp
    | eax => rw [hres.eax, hr]; rfl
    | edi => rw [hres.edi, hr]; rfl
    | esi => rw [hres.esi, hr]; rfl
    | ebp => rw [hres.ebp, hr]; rfl
    | ebx => rw [hres.ebx, hr]; rfl
    | edx => rw [hres.edx, hr]; rfl
    | ecx => rw [hres.ecx, hr]; rfl
  · obtain ⟨h1, h2, h3, h4⟩ := hres.data
    funext q
    cases q with
    | cs => exact hres.cs.trans hrcs
    | ss => exact hss
    | ds => exact h1.trans hrds
    | es => exact h2.trans hrds
    | fs => exact h3.trans hrds
    | gs => exact h4.trans hrds

/-- A routine that does nothing. -/
def returnsAtOnce (e f : Cpu) : Prop := ∃ ret, f = (e.setEip ret).setReg .esp (e.regs .esp + 4)

theorem Handling.returned {r : Registers} {out : Bool} {handler ret : Word} {e : Cpu}
    (h : Handling T lo hi r out handler ret e) :
    Returned T r out ret e ((e.setEip ret).setReg .esp (e.regs .esp + 4)) := by
  have hsp : (e.regs .esp).toNat + 4 * ((r.words out).length + 1) = hi := h.stack.sp
  have htop := h.stack.top
  refine ⟨rfl, rfl, ?_, rfl, rfl, rfl, h.nested⟩
  have hw : Stacked (e.view T) ((e.regs .esp).toNat + 4) (r.words out) := h.stack.words.2
  have he : (e.regs .esp + 4).toNat = (e.regs .esp).toNat + 4 := by
    rw [BitVec.toNat_add]
    show ((e.regs .esp).toNat + 4) % 4294967296 = _
    omega
  show Stacked (e.view T) (e.regs .esp + 4).toNat _
  rw [he]
  exact hw

end

theorem Linked.placed {v : Stub} {common : Word} (h : common.toNat = 0x1000 + (v.text common).length) :
    Linked (X86.placed 0x1000 (v.text common ++ commonStub 0x2000)) v 0x1000 common 0x2000 := by
  have hlen : (v.text common).length ≤ 4 := by cases v <;> simp [Stub.text]
  have hlast : (BitVec.ofNat 32 (common.toNat + 18)).toNat = common.toNat + 18 := by
    rw [BitVec.toNat_ofNat, Nat.mod_eq_of_lt (by omega)]
  have hstub : Listing (X86.placed 0x1000 ([] ++ (v.text common ++ commonStub 0x2000))) 0x1000
      (v.text common) common := .placed [] _ rfl h
  have hcommon : Listing (X86.placed 0x1000 (v.text common ++ (commonStub 0x2000 ++ []))) common
      (commonStub 0x2000) (.ofNat 32 (common.toNat + 18)) :=
    .placed _ [] h (by rw [hlast, h]; rfl)
  rw [List.nil_append] at hstub
  rw [List.append_nil] at hcommon
  refine ⟨⟨_, hstub⟩, ⟨_, hcommon⟩, placed_none ?_⟩
  rw [List.length_append]
  show 0x1000 + ((v.text common).length + 18) ≤ 0x2000
  omega

/-- User code at `0x4000`, paging off. -/
def userCode : Cpu where
  regs r := if r = .esp then 0x8000 else 7
  segs s := if s = .cs then 0x1B else 0x23
  eflags := 0x202
  cr0 := 1
  cr3 := 0
  eip := 0x4000
  mem := fun _ => 0

theorem userCode_stack (T : Tables) :
    Sim T 0x8F00 0x9000 userCode.mem ((onRing 0 0x10 0x9000 userCode).withMem []) := by
  refine ⟨by decide, by decide, by decide, fun x y _ _ h => ?_, trivial⟩
  have hoff : ((onRing 0 0x10 0x9000 userCode).withMem ([] : List Word)).paging = false := by decide
  rwa [Core.phys_off T hoff, Core.phys_off T hoff] at h

/-- A system call from user code. -/
theorem transparent_user :
    let T : Tables := ⟨fun _ x => x, fun s => s.toNat % 4⟩
    let v := Stub.isrNoErrCode 128
    let code := placed 0x1000 (v.text 0x1004 ++ commonStub 0x2000)
    ∃ d c', interrupt T ⟨0x1000, 0x08, true, 3⟩ 0x10 0x9000 none userCode = some d ∧
      Runs T code returnsAtOnce d [0x2000] c' ∧ c'.eip = 0x4000 ∧ c'.regs .esp = 0x8000 := by
  intro T v code
  have hl : Linked (seen T code userCode) v 0x1000 0x1004 0x2000 := by
    rw [seen_off (by decide)]
    exact .placed rfl
  have herr : (none : Option Word).isSome = v.hasErrCode := rfl
  obtain ⟨d, e, ret, sp, hd, -, he, -, -, hgo⟩ := transparent returnsAtOnce
    (g := ⟨0x1000, 0x08, true, 3⟩) hl rfl (by decide) herr (by decide) (by decide)
    (userCode_stack T) (by decide)
  obtain ⟨c', hr, h1, -, h2, -⟩ := hgo _ 7 ⟨ret, rfl⟩ he.returned
  exact ⟨d, c', hd, hr, h1, congrFun h2 .esp⟩

end Dmanix.Isr
