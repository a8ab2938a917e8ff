import Dmanix.Interrupt.Gates

/-!
# To user mode and back (`src/process/task.cc`)

The `asm` of `UserMode` and of `KernelMode`: the data segments are loaded and an `iret` jumps to the
label behind it, over a frame with the selectors of the other ring.

`userMode_enters`: `UserMode` goes on in ring 3 with the same registers and stack. `KernelMode` is
no way back: in ring 3 it stops at its first instruction (`kernelMode_outer`), and in ring 0, where
the `iret` takes three words off the stack of the five, it goes on with two words too many
(`kernelMode_inner`).
-/

namespace Dmanix.Mode

open X86 Bytes Isr

/-- The selector `sel` in the data segments, through `ax`. -/
def loadData (sel : Selector) : List Instr :=
  [.movHalf .eax sel,
   .setSeg .ds .eax,
   .setSeg .es .eax,
   .setSeg .fs .eax,
   .setSeg .gs .eax]

/-- The frame for the `iret`. -/
def frame (ss cs label : Word) : List Instr :=
  [.mov .eax (.reg .esp),
   .push (.imm ss),
   .push (.reg .eax),
   .pushf,
   .push (.imm cs),
   .push (.imm label)]

/-- The `asm` of both; `on` is what stands before the frame. -/
def text (sel : Selector) (on : List Instr) (ss cs label : Word) : List Instr :=
  .cli :: (loadData sel ++ (on ++ frame ss cs label))

/-- `UserMode`, up to its `iret`; `label` is `1:` -/
def userMode (label : Word) : List Instr := text 0x23 [.sti] 0x23 0x1B label

/-- `KernelMode`, up to its `iret`; `label` is `1:` -/
def kernelMode (label : Word) : List Instr := text 0x10 [] 0x10 0x08 label

/-- From `s` to `t` everything is ready for the `iret`. -/
structure Ready (sel : Selector) (e ss cs label : Word) (s t : Listed) : Prop where
  mem : t.mem = label :: cs :: (e &&& 0x00FCFFFF) :: s.regs .esp :: ss :: s.mem
  eax : t.regs .eax = s.regs .esp
  esp : t.regs .esp = s.regs .esp - 20
  regs : ∀ r, r ≠ .eax → r ≠ .esp → t.regs r = s.regs r
  data : ∀ g, g ∈ [.ds, .es, .fs, .gs] → t.segs g = sel
  cs : t.segs .cs = s.segs .cs
  ss : t.segs .ss = s.segs .ss
  eflags : t.eflags = e
  cr0 : t.cr0 = s.cr0
  cr3 : t.cr3 = s.cr3

/-- `sti`, or nothing. -/
def onFlags : List Instr → Word → Word
  | [.sti], e => setFlag interruptEnable true e
  | _, e => e

theorem text_list {s : Listed} {sel : Selector} {on : List Instr} {ss cs label : Word}
    (hk : s.cpl = 0) (hon : on = [.sti] ∨ on = []) :
    ∃ t, onStackAll (text sel on ss cs label) s = some t ∧
      Ready sel (onFlags on (setFlag interruptEnable false s.eflags)) ss cs label s t := by
  unfold Core.cpl at hk
  have hesp : s.regs .esp - 4 - 4 - 4 - 4 - 4 = s.regs .esp - 20 := by
    simp only [BitVec.sub_sub]
    rfl
  rcases hon with rfl | rfl <;>
  · refine ⟨_, by
      simp [text, loadData, frame, onStackAll, onStack, assign, Src.onList, Core.kernelOnly,
        Core.cpl, hk]
      rfl, ?_⟩
    refine ⟨rfl, rfl, hesp, fun r ha hr => ?_, fun g hg => ?_, rfl, rfl, rfl, rfl, rfl⟩
    · simp [Core.pushList, ha, hr]
    · simp only [List.mem_cons, List.not_mem_nil, or_false] at hg
      rcases hg with rfl | rfl | rfl | rfl <;> rfl

section
variable {T : Tables} {code : Code} (ext : Cpu → Cpu → Prop) {lo hi : Nat} {c : Cpu}
  {sel : Selector} {on : List Instr} {ss cs label : Word}

theorem pushesAll_text (hon : on = [.sti] ∨ on = []) : pushesAll (text sel on ss cs label) = 5 := by
  rcases hon with rfl | rfl <;> rfl

theorem reaches_iret (hl : Listing (seen T code c) c.eip (text sel on ss cs label ++ [.iret]) label)
    (hon : on = [.sti] ∨ on = []) (hk : c.cpl = 0) (h : Sim T lo hi c.mem (c.withMem []))
    (hr : lo + 20 ≤ hi) :
    ∃ t m, X86.Runs T code ext c [] (t.withMem m) ∧ Sim T lo hi m (t.setEip label) ∧
      Ready sel (onFlags on (setFlag interruptEnable false c.eflags)) ss cs label
        (c.withMem ([] : List Word)) t ∧
      fetch T code (t.withMem m) = some (.iret, label) ∧ Off lo hi (c.view T) ((t.withMem m).view T) := by
  obtain ⟨t, ht, hready⟩ : ∃ t, onStackAll (text sel on ss cs label) (c.withMem []) = some t ∧
      Ready sel _ ss cs label (c.withMem []) t := text_list hk hon
  have hp : pushesAll (text sel on ss cs label) = 5 := pushesAll_text hon
  generalize text sel on ss cs label = is at hl ht hp
  obtain ⟨last, htext, hlast⟩ := hl.append
  obtain ⟨_, hiret, hnil⟩ := hlast.head
  cases hnil
  have hesp : (c.regs .esp).toNat + 4 * 0 = hi := h.sp
  have hseen : seen T code (c.withMem ([] : List Word)) = seen T code c := seen_congr rfl rfl
  rw [← hseen] at htext
  have hb : Gets T code ext lo hi hi _ _ _ _ := h.block htext rfl ht (.inr (Nat.le_refl _)) (by
    rw [hp]
    show lo + 20 ≤ (c.regs .esp).toNat
    omega)
  obtain ⟨m, hrun, hs, ho⟩ := hb
  refine ⟨t.setEip last, m, hrun, (hs.change (t := t.setEip label) rfl rfl rfl rfl).1, { hready with },
    ?_, ho⟩
  rw [← hiret]
  exact congrFun (seen_congr hready.cr0 hready.cr3) _

theorem setFlag_setFlag {i : Nat} (hi : i < 32) (b b' : Bool) (e : Word) :
    setFlag i b (setFlag i b' e) = setFlag i b e := by
  apply BitVec.eq_of_getLsbD_eq
  intro j _
  rw [getLsbD_setFlag hi, getLsbD_setFlag hi, getLsbD_setFlag hi]
  split <;> rfl

/-- **`UserMode`** goes on behind its `iret` in ring 3, with the registers and the stack it had. -/
theorem userMode_enters {address : UInt32} {d d' : DescriptorTables}
    (hd : DescriptorTables.initGDT address d = .ok d') (hT : Loaded T d')
    (hl : Listing (seen T code c) c.eip (userMode label ++ [.iret]) label) (hk : c.cpl = 0)
    (hn : c.eflags.getLsbD nested = false) (h : Sim T lo hi c.mem (c.withMem []))
    (hr : lo + 20 ≤ hi) :
    ∃ c', X86.Runs T code ext c [] c' ∧ c'.eip = label ∧ c'.cpl = 3 ∧
      (∀ r, r ≠ .eax → c'.regs r = c.regs r) ∧
      (∀ g, c'.segs g = if g = .cs then 0x1B else 0x23) ∧
      c'.eflags = setFlag interruptEnable true c.eflags &&& 0x00FCFFFF ∧
      c'.cr0 = c.cr0 ∧ c'.cr3 = c.cr3 ∧ Off lo hi (c.view T) (c'.view T) := by
  obtain ⟨-, h23, -⟩ := initGDT_dpl hd hT
  obtain ⟨t, m, hrun, hs, hready, hf, ho⟩ := reaches_iret ext hl (.inl rfl) hk h hr
  rw [show onFlags [.sti] (setFlag interruptEnable false c.eflags) =
    setFlag interruptEnable true c.eflags from setFlag_setFlag (by decide) _ _ _] at hready
  have hk' : (t.setEip label).cpl = 0 := by
    show (t.segs .cs).toNat % 4 = 0
    rw [hready.cs]
    exact hk
  have hnt : (t.setEip label).eflags.getLsbD nested = false := by
    show t.eflags.getLsbD nested = false
    rw [hready.eflags, getLsbD_setFlag (by decide), if_neg (by decide)]
    exact hn
  have hv : (setFlag interruptEnable true c.eflags &&& 0x00FCFFFF).getLsbD virtual8086 = false := by
    rw [BitVec.getLsbD_and]
    exact Bool.and_false _
  have hcpl : (resumed label 0x1B (setFlag interruptEnable true c.eflags &&& 0x00FCFFFF)
      (t.setEip label)).cpl = 3 := by
    show (lowHalf 0x1B).toNat % 4 = 3
    decide
  have hx := hs.iretOuter hk' hnt hv hready.mem (by rw [hcpl]; decide)
  rw [hcpl] at hx
  obtain ⟨v, hvdef⟩ : ∃ v, v = ((resumed label 0x1B (setFlag interruptEnable true c.eflags &&&
    0x00FCFFFF) (t.setEip label)).setReg .esp (c.regs .esp)).setSeg .ss (lowHalf 0x23) := ⟨_, rfl⟩
  have hsegs : ∀ g, v.segs g = if g = .cs then 0x1B else 0x23 := fun g => by
    have hdata := hready.data
    rw [hvdef]
    cases g with
    | cs | ss => rfl
    | ds => exact hdata .ds (by decide)
    | es => exact hdata .es (by decide)
    | fs => exact hdata .fs (by decide)
    | gs => exact hdata .gs (by decide)
  have hdrop : ∀ g, (v.dropSegs T 3).segs g = v.segs g := fun g => by
    refine if_neg ?_
    rintro ⟨hcs, -, hlt⟩
    rw [hsegs, if_neg hcs, h23] at hlt
    exact Nat.lt_irrefl _ hlt
  replace hx : iret T ((t.setEip label).withMem m) = some ((v.dropSegs T 3).withMem m) := by
    rw [hvdef]
    exact hx
  refine ⟨(v.dropSegs T 3).withMem m, hrun.trans (.step hf hx (.refl _)), ?_, ?_, fun r hr => ?_,
    fun g => (hdrop g).trans (hsegs g), ?_, ?_, ?_, ?_⟩
  · rw [hvdef]
    rfl
  · show ((v.dropSegs T 3).segs .cs).toNat % 4 = 3
    rw [hdrop, hsegs]
    decide
  · show v.regs r = c.regs r
    rw [hvdef]
    by_cases hesp : r = .esp
    · rw [hesp]
      rfl
    · refine Eq.trans ?_ (hready.regs r hr hesp)
      simp [resumed, Core.dropList, hesp]
  · rw [hvdef]
    rfl
  · rw [hvdef]
    exact hready.cr0
  · rw [hvdef]
    exact hready.cr3
  · rw [hvdef]
    exact ho

/-- In ring 0 `KernelMode` leaves two words of its frame on the stack, and interrupts disabled. -/
theorem kernelMode_inner (hl : Listing (seen T code c) c.eip (kernelMode label ++ [.iret]) label)
    (hk : c.cpl = 0) (hn : c.eflags.getLsbD nested = false) (h : Sim T lo hi c.mem (c.withMem []))
    (hr : lo + 20 ≤ hi) :
    ∃ c', X86.Runs T code ext c [] c' ∧ c'.eip = label ∧ c'.cpl = 0 ∧
      c'.regs .esp = c.regs .esp - 8 ∧ Sim T lo hi c'.mem (c'.withMem [c.regs .esp, 0x10]) ∧
      c'.eflags.getLsbD interruptEnable = false := by
  obtain ⟨t, m, hrun, hs, hready, hf, -⟩ := reaches_iret ext hl (.inr rfl) hk h hr
  have hk' : (t.setEip label).cpl = 0 := by
    show (t.segs .cs).toNat % 4 = 0
    rw [hready.cs]
    exact hk
  have hnt : (t.setEip label).eflags.getLsbD nested = false := by
    show t.eflags.getLsbD nested = false
    rw [hready.eflags]
    exact (getLsbD_setFlag (by decide)).trans hn
  have hv : (onFlags [] (setFlag interruptEnable false c.eflags) &&& 0x00FCFFFF).getLsbD
      virtual8086 = false := by
    rw [BitVec.getLsbD_and]
    exact Bool.and_false _
  have hcpl : (resumed label 0x08 (onFlags [] (setFlag interruptEnable false c.eflags) &&& 0x00FCFFFF)
      (t.setEip label)).cpl = 0 := by
    show (lowHalf 0x08).toNat % 4 = 0
    decide
  have hx := hs.iret hk' hnt hv hready.mem hcpl
  have hmem : (t.setEip label).mem.drop 3 = [c.regs .esp, 0x10] := by
    rw [show (t.setEip label).mem = _ from hready.mem]
    rfl
  have hd := hs.drop (k := 3) (by
    rw [show (t.setEip label).mem = _ from hready.mem]
    exact Nat.le_add_left _ _)
  refine ⟨_, hrun.trans (.step hf hx (.refl _)), rfl, hcpl, ?_, ?_, ?_⟩
  · show t.regs .esp + .ofNat 32 12 = c.regs .esp - 8
    rw [hready.esp]
    show c.regs .esp - 20 + 12 = c.regs .esp - 8
    bv_omega
  · rw [← hmem]
    exact (hd.change (t := (resumed label 0x08 _ (t.setEip label)).withMem ((t.setEip label).mem.drop 3))
      rfl rfl rfl rfl).1
  · show (setFlag interruptEnable false c.eflags &&& 0x00FCFFFF).getLsbD interruptEnable = false
    rw [BitVec.getLsbD_and, getLsbD_setFlag (by decide), if_pos rfl, Bool.false_and]

theorem kernelMode_outer (hl : Listing (seen T code c) c.eip (kernelMode label ++ [.iret]) label)
    (hu : c.cpl ≠ 0) {fs : List Word} {d : Cpu} (hrun : X86.Runs T code ext c fs d) : d = c := by
  obtain ⟨next, hcli, -⟩ := hl.head
  have hf : fetch T code c = some (.cli, next) := hcli
  cases hrun with
  | refl => rfl
  | step hf' hx =>
    rw [hf] at hf'
    cases hf'
    have hkernel : (c.setEip next).kernelOnly = none := if_neg hu
    simp only [exec, hkernel] at hx
    cases hx
  | routine hf' =>
    rw [hf] at hf'
    cases hf'

/-- **`KernelMode` is no way back**: user code does not get past its first instruction, and the code
of the kernel that goes on behind it does so with two words more on the stack. -/
theorem kernelMode_no_way_back
    (hl : Listing (seen T code c) c.eip (kernelMode label ++ [.iret]) label) :
    (c.cpl ≠ 0 → ∀ fs d, X86.Runs T code ext c fs d → d = c) ∧
    (c.cpl = 0 → c.eflags.getLsbD nested = false → Sim T lo hi c.mem (c.withMem []) → lo + 20 ≤ hi →
      ∃ c', X86.Runs T code ext c [] c' ∧ c'.eip = label ∧ c'.cpl = 0 ∧
        c'.regs .esp = c.regs .esp - 8 ∧ Sim T lo hi c'.mem (c'.withMem [c.regs .esp, 0x10]) ∧
        c'.eflags.getLsbD interruptEnable = false) :=
  ⟨fun hu _ _ hrun => kernelMode_outer ext hl hu hrun,
    fun hk hn h hr => kernelMode_inner ext hl hk hn h hr⟩

end

/-- A processor at `0x1000` with the stack at `0x8000`, paging off. -/
def atText (cs : Selector) : Cpu where
  regs r := if r = .esp then 0x8000 else 7
  segs s := if s = .cs then cs else cs + 8
  eflags := 2
  cr0 := 1
  cr3 := 0
  eip := 0x1000
  mem := fun _ => 0

theorem atText_stack (T : Tables) (cs : Selector) :
    Sim T 0x7F00 0x8000 (atText cs).mem ((atText cs).withMem []) := by
  refine ⟨show (0x8000 : Word).toNat + 4 * 0 = 0x8000 by decide,
    show 0x7F00 ≤ (0x8000 : Word).toNat by decide, by decide, fun x y _ _ h => ?_, trivial⟩
  have hoff : ((atText cs).withMem ([] : List Word)).paging = false :=
    show (1 : Word).getLsbD 31 = false by decide
  rwa [Core.phys_off T hoff, Core.phys_off T hoff] at h

theorem userMode_enters_ring3 : ∃ c', X86.Runs flat (placed 0x1000 (userMode 0x100E ++ [.iret]))
    (fun _ _ => False) (atText 0x08) [] c' ∧ c'.eip = 0x100E ∧ c'.cpl = 3 := by
  obtain ⟨d, hd, hT⟩ := flat_loaded
  have hl : Listing (seen flat (placed 0x1000 (userMode 0x100E ++ [.iret])) (atText 0x08)) 0x1000
      (userMode 0x100E ++ [.iret]) 0x100E := by
    rw [seen_off (by decide)]
    exact .alone rfl rfl
  obtain ⟨c', hr, h1, h2, -⟩ := userMode_enters (fun _ _ => False) hd hT hl (by decide) (by decide)
    (atText_stack _ _) (by decide)
  exact ⟨c', hr, h1, h2⟩

theorem kernelMode_no_way_back_kernel :
    ∃ c', X86.Runs flat (placed 0x1000 (kernelMode 0x100D ++ [.iret])) (fun _ _ => False)
      (atText 0x08) [] c' ∧ c'.eip = 0x100D ∧ c'.regs .esp = 0x7FF8 := by
  have hl : Listing (seen flat (placed 0x1000 (kernelMode 0x100D ++ [.iret])) (atText 0x08)) 0x1000
      (kernelMode 0x100D ++ [.iret]) 0x100D := by
    rw [seen_off (by decide)]
    exact .alone rfl rfl
  obtain ⟨c', hr, h1, -, h2, -⟩ := (kernelMode_no_way_back (fun _ _ => False) hl).2 (by decide)
    (by decide) (atText_stack _ _) (by decide)
  exact ⟨c', hr, h1, h2⟩

end Dmanix.Mode
