import Dmanix.Lib.X86

/-!
# The stack as a list

`Core (List Word)` is the processor with the words it has pushed as a list, the top first, and no
other memory. `onStack` is an instruction there, for those that neither leave the straight line nor
use memory off the stack. The words lie in memory between `lo` and `hi`, the stack pointer at the
first of them, and no other linear address reaches these bytes (`Sim`).

`Sim.exec`: what `onStack` does, the processor does. An instruction that pushes changes bytes of
`[lo, hi)` only, another one none; the bound `top` says which. `Sim.block` is the rule for a straight
line of code wherever it lies; `Sim.jmp`, `Sim.call` and `Sim.ret` are the transfers between the
lines, `Sim.iret` and `Sim.iretOuter` the two ways back from an interrupt, `Sim.interrupt` the way
in. A line that pushes nothing leaves all of physical memory alone (`Sim.quietBlock`).
-/

namespace X86

open Bytes

/-! ## Words on the stack -/

/-- The words `ws` lie in memory from `a` on. -/
def Stacked (m : Mem) : Nat → List Word → Prop
  | _, [] => True
  | a, w :: ws => read32 m a = w.toNat ∧ Stacked m (a + 4) ws

theorem Stacked.congr {m m' : Mem} : ∀ {ws : List Word} {a : Nat}, Stacked m a ws →
    (∀ x, a ≤ x → x < a + 4 * ws.length → m' x = m x) → Stacked m' a ws
  | [], _, _, _ => trivial
  | w :: ws, a, ⟨hw, hs⟩, h => by
    simp only [List.length_cons] at h
    constructor
    · rw [read32_congr fun x h1 h2 => h x h1 (by omega), hw]
    · exact hs.congr fun x h1 h2 => h x (by omega) (by omega)

theorem Stacked.get {m : Mem} : ∀ {ws : List Word} {a i : Nat} {w : Word}, Stacked m a ws →
    ws[i]? = some w → read32 m (a + 4 * i) = w.toNat
  | v :: ws, a, 0, w, ⟨hv, _⟩, hi => by
    simp only [List.getElem?_cons_zero, Option.some.injEq] at hi
    rw [← hi, ← hv]
    rfl
  | v :: ws, a, i + 1, w, ⟨_, hs⟩, hi => by
    rw [show a + 4 * (i + 1) = a + 4 + 4 * i by omega]
    exact hs.get (by simpa using hi)

theorem Stacked.drop {m : Mem} : ∀ {k : Nat} {ws : List Word} {a : Nat}, Stacked m a ws →
    Stacked m (a + 4 * k) (ws.drop k)
  | 0, _, _, h => h
  | _ + 1, [], _, _ => trivial
  | k + 1, _ :: ws, a, ⟨_, hs⟩ => by
    rw [show a + 4 * (k + 1) = a + 4 + 4 * k by omega]
    exact hs.drop

/-! ## Memory by linear address -/

namespace Core

variable {T : Tables} {c : Cpu}

/-- A store of a byte that no other linear address reaches. -/
theorem view_storeByte {a : Nat} {b : UInt8} (h : c.Private T a (a + 1)) :
    (c.storeByte T a b).view T = Function.update (c.view T) a b := by
  funext x
  show Function.update c.mem (c.phys T a) b (c.phys T x) = _
  by_cases hx : x = a
  · rw [hx, Function.update_self, Function.update_self]
  · rw [Function.update_of_ne hx, Function.update_of_ne fun he => hx (h a x (by omega) (by omega) he)]
    rfl

/-- A store byte by byte. -/
theorem view_storeBytes {a : Nat} (f : Nat → UInt8) : ∀ n, c.Private T a (a + n) →
    ∃ m, (List.range n).foldl (fun d i => d.storeByte T (a + i) (f i)) c = c.withMem m ∧
      (c.withMem m).view T =
        (List.range n).foldl (fun m i => Function.update m (a + i) (f i)) (c.view T)
  | 0, _ => ⟨c.mem, rfl, rfl⟩
  | n + 1, h => by
    obtain ⟨m, hm, hv⟩ := view_storeBytes f n fun x y h1 h2 => h x y h1 (by omega)
    refine ⟨((c.withMem m).storeByte T (a + n) (f n)).mem, ?_, ?_⟩
    · rw [List.range_succ, List.foldl_append, hm]
      rfl
    · rw [List.range_succ, List.foldl_append, ← hv]
      exact view_storeByte (c := c.withMem m) fun x y h1 h2 he => h x y (by omega) (by omega) he

/-- The bytes of a word, one after the other. -/
theorem write32_eq_updates (m : Mem) (a w : Nat) :
    write32 m a w = (List.range 4).foldl
      (fun m i => Function.update m (a + i) (.ofNat (w / 256 ^ i))) m := by
  funext x
  simp only [List.range_succ, List.range_zero, List.nil_append, List.cons_append, List.foldl_cons,
    List.foldl_nil, Nat.add_zero]
  unfold write32
  split
  · next h =>
    have : x = a ∨ x = a + 1 ∨ x = a + 2 ∨ x = a + 3 := by omega
    rcases this with rfl | rfl | rfl | rfl <;> simp
  · next h =>
    simp only [Function.update_apply]
    repeat rw [if_neg (by omega)]

theorem view_stored {a v : Word} (h : c.Private T a.toNat (a.toNat + 4)) :
    (c.stored T a v).view T = write32 (c.view T) a.toNat v.toNat := by
  obtain ⟨m, hm, hv⟩ := view_storeBytes (fun i => .ofNat (v.toNat / 256 ^ i)) 4 h
  rw [write32_eq_updates, ← hv]
  exact congrArg _ hm

/-! With paging off, memory by linear address is memory. -/

theorem view_off (h : c.paging = false) : c.view T = c.mem :=
  funext fun x => congrArg c.mem (phys_off T h x)

theorem load_off (h : c.paging = false) {a : Word} (ha : a.toNat + 4 ≤ 4294967296) :
    c.load T a = some (.ofNat 32 (read32 c.mem a.toNat)) := by
  unfold load fits
  rw [if_pos (decide_eq_true ha), view_off h]

theorem store_off (h : c.paging = false) {a : Word} (ha : a.toNat + 4 ≤ 4294967296) (v : Word) :
    c.store T a v = some (c.withMem (write32 c.mem a.toNat v.toNat)) := by
  have hp : c.Private T a.toNat (a.toNat + 4) := fun x y _ _ hxy => by
    rwa [phys_off T h, phys_off T h] at hxy
  obtain ⟨m, hm, hv⟩ := view_storeBytes (fun i => .ofNat (v.toNat / 256 ^ i)) 4 hp
  rw [← write32_eq_updates, view_off h, view_off (c := c.withMem m) h] at hv
  unfold store fits
  rw [if_pos (decide_eq_true ha), ← hv]
  exact congrArg some hm

end Core

theorem exec_getCr0 {T : Tables} {c : Cpu} (h : c.cpl = 0) (d : Reg) :
    exec T (.getCr0 d) c = some (c.setReg d c.cr0) := by
  show c.kernelOnly.bind _ = _
  rw [show c.kernelOnly = some c from if_pos h]
  rfl

theorem exec_setCr0 {T : Tables} {c : Cpu} (h : c.cpl = 0) (r : Reg) :
    exec T (.setCr0 r) c = some { c with cr0 := c.regs r } := by
  show c.kernelOnly.bind _ = _
  rw [show c.kernelOnly = some c from if_pos h]
  rfl

section
variable {T : Tables} {c : Cpu} {base : Reg} {disp a : Word} (h : c.paging = false)
  (ha : c.regs base + disp = a) (hb : a.toNat + 4 ≤ 4294967296)
include h ha hb

theorem exec_mov_off (d : Reg) : exec T (.mov d (.mem base disp)) c =
    some (c.setReg d (.ofNat 32 (read32 c.mem a.toNat))) := by
  show (Core.load T c (c.regs base + disp)).bind _ = _
  rw [ha, Core.load_off h hb]
  rfl

theorem exec_store_off (r : Reg) : exec T (.store base disp r) c =
    some (c.withMem (write32 c.mem a.toNat (c.regs r).toNat)) := by
  show Core.store T (c.regs base + disp) (c.regs r) c = _
  rw [ha, Core.store_off h hb]

end

/-! ## Instructions on the list -/

abbrev Listed := Core (List Word)

namespace Core

def pushList (v : Word) (s : Listed) : Listed :=
  (s.setReg .esp (s.regs .esp - 4)).withMem (v :: s.mem)

/-- The stack without its first `k` words. -/
def dropList (k : Nat) (s : Listed) : Listed :=
  (s.setReg .esp (s.regs .esp + .ofNat 32 (4 * k))).withMem (s.mem.drop k)

def popList (s : Listed) : Option (Word × Listed) := do return (← s.mem.head?, s.dropList 1)

def popListTo (r : Reg) (s : Listed) : Option Listed := do
  let (v, s) ← s.popList
  if r = .esp then none else return s.setReg r v

end Core

def Src.onList (s : Listed) : Src → Option Word
  | .reg r => some (s.regs r)
  | .imm v => some v
  | .mem base disp =>
    if base = .esp ∧ disp.toNat % 4 = 0 then s.mem[disp.toNat / 4]? else none

/-- The register `d` gets a value; only pushes and pops move the stack pointer. -/
def assign (d : Reg) (v : Word) (s : Listed) : Option Listed :=
  if d = .esp then none else some (s.setReg d v)

/-- `add esp, v` takes words off the stack; nothing else computes with the stack pointer. -/
def adjustEsp (op : Alu) (src : Src) (s : Listed) : Option Listed :=
  match op, src with
  | .add, .imm v =>
    if v.toNat % 4 = 0 ∧ v.toNat / 4 ≤ s.mem.length then
      some ((s.dropList (v.toNat / 4)).setFlags (Alu.add.flags (s.regs .esp) v s.eflags))
    else none
  | _, _ => none

def onStack : Instr → Listed → Option Listed
  | .mov d src, s => do assign d (← src.onList s) s
  | .movHalf d v, s => assign d (withLow (s.regs d) v) s
  | .getSeg d g, s => assign d (withLow (s.regs d) (s.segs g)) s
  | .setSeg g r, s => if g = .cs then none else some (s.setSeg g (lowHalf (s.regs r)))
  | .getCr0 d, s => do assign d s.cr0 (← s.kernelOnly)
  | .getCr3 d, s => do assign d s.cr3 (← s.kernelOnly)
  | .alu op d src, s =>
    if d = .esp then adjustEsp op src s else do
      let y ← src.onList s
      let t := s.setFlags (op.flags (s.regs d) y s.eflags)
      if op = .cmp then return t else assign d (op.result (s.regs d) y) t
  | .dec d, s => assign d (s.regs d - 1) (s.setFlags (decFlags (s.regs d) s.eflags))
  | .push src, s => do return s.pushList (← src.onList s)
  | .pop d, s => s.popListTo d
  | .pusha, s => some ((pushaRegs.map s.regs).foldl (fun s v => s.pushList v) s)
  | .popa, s => do
    let s ← s.popListTo .edi
    let s ← s.popListTo .esi
    let s ← s.popListTo .ebp
    let (_, s) ← s.popList
    let s ← s.popListTo .ebx
    let s ← s.popListTo .edx
    let s ← s.popListTo .ecx
    s.popListTo .eax
  | .pushf, s => some (s.pushList (s.eflags &&& 0x00FCFFFF#32))
  | .popf, s => do
    let (v, s) ← (← s.kernelOnly).popList
    return s.setFlags (v &&& 0xFFE6FFFF#32)
  | .cli, s => do return (← s.kernelOnly).setFlags (setFlag interruptEnable false s.eflags)
  | .sti, s => do return (← s.kernelOnly).setFlags (setFlag interruptEnable true s.eflags)
  | _, _ => none

/-- The words an instruction may push. -/
def Instr.pushes : Instr → Nat
  | .push _ | .pushf | .call _ => 1
  | .pusha => 8
  | _ => 0

/-- A straight line of instructions. -/
def onStackAll : List Instr → Listed → Option Listed
  | [], s => some s
  | i :: is, s => do onStackAll is (← onStack i s)

def pushesAll (is : List Instr) : Nat := (is.map Instr.pushes).sum

/-! ## The list is the memory -/

section
variable (T : Tables) (lo hi : Nat)

/-- The words of the list lie in the memory `m` up to `hi`, with room down to `lo`. -/
structure Sim (m : Mem) (s : Listed) : Prop where
  sp : (s.regs .esp).toNat + 4 * s.mem.length = hi
  low : lo ≤ (s.regs .esp).toNat
  top : hi < 4294967296
  apart : s.Private T lo hi
  words : Stacked ((s.withMem m).view T) (s.regs .esp).toNat s.mem

/-- `x` is the processor `t` with some memory that holds its list; memory has changed from `v` only
inside `[lo, top)`. -/
def Follows (top : Nat) (v : Mem) (x : Option Cpu) (t : Listed) : Prop :=
  ∃ m, x = some (t.withMem m) ∧ Sim T lo hi m t ∧ Off lo top v ((t.withMem m).view T)

end

section
variable {T : Tables} {lo hi top : Nat} {m v : Mem} {s t u : Listed}

theorem Follows.bind {x : Option Cpu} {f : Cpu → Option Cpu} (h : Follows T lo hi top v x t)
    (hf : ∀ m, Sim T lo hi m t → Follows T lo hi top ((t.withMem m).view T) (f (t.withMem m)) u) :
    Follows T lo hi top v (x >>= f) u := by
  obtain ⟨m, rfl, hs, ho⟩ := h
  obtain ⟨m', hx, hs', ho'⟩ := hf m hs
  exact ⟨m', hx, hs', ho.trans ho'⟩

/-- What neither moves the stack pointer nor changes the address space. -/
theorem Sim.change (h : Sim T lo hi m s) (he : t.regs .esp = s.regs .esp) (hm : t.mem = s.mem)
    (h0 : t.cr0 = s.cr0) (h3 : t.cr3 = s.cr3) :
    Sim T lo hi m t ∧ (t.withMem m).view T = (s.withMem m).view T := by
  have hp : ∀ x, t.phys T x = s.phys T x := fun x => by
    unfold Core.phys Core.paging
    rw [h0, h3]
  have hv : (t.withMem m).view T = (s.withMem m).view T := by
    funext x
    exact congrArg m (hp x)
  refine ⟨⟨?_, ?_, h.top, ?_, ?_⟩, hv⟩
  · rw [he, hm, h.sp]
  · rw [he]
    exact h.low
  · intro x y h1 h2 hxy
    rw [hp, hp] at hxy
    exact h.apart x y h1 h2 hxy
  · rw [hv, he, hm]
    exact h.words

/-- Memory may change where the stack is not. -/
theorem Sim.other {m' : Mem} (h : Sim T lo hi m s)
    (hm : ∀ x, lo ≤ x → x < hi → m' (s.phys T x) = m (s.phys T x)) : Sim T lo hi m' s := by
  refine ⟨h.sp, h.low, h.top, h.apart, h.words.congr fun x h1 h2 => ?_⟩
  have hsp := h.sp
  have hlow := h.low
  exact hm x (by omega) (by omega)

theorem Sim.stay (h : Sim T lo hi m s) (he : t.regs .esp = s.regs .esp) (hm : t.mem = s.mem)
    (h0 : t.cr0 = s.cr0) (h3 : t.cr3 = s.cr3) :
    Follows T lo hi top ((s.withMem m).view T) (some (t.withMem m)) t := by
  obtain ⟨ht, hv⟩ := h.change he hm h0 h3
  refine ⟨m, rfl, ht, ?_⟩
  rw [hv]
  exact .refl lo top _

theorem Sim.assign {d : Reg} {w : Word} (h : Sim T lo hi m s) (ha : assign d w s = some t) :
    Follows T lo hi top ((s.withMem m).view T) (some ((s.withMem m).setReg d w)) t := by
  unfold X86.assign at ha
  split at ha
  · cases ha
  · next hd =>
    simp only [Option.some.injEq] at ha
    subst ha
    exact h.stay (t := s.setReg d w) (if_neg (Ne.symm hd)) rfl rfl rfl

/-- A word that an operand names on the stack. -/
theorem Sim.value {src : Src} {w : Word} (h : Sim T lo hi m s) (hw : src.onList s = some w) :
    src.value T (s.withMem m) = some w := by
  cases src with
  | reg r => exact hw
  | imm v => exact hw
  | mem base disp =>
    simp only [Src.onList, Option.ite_none_right_eq_some] at hw
    obtain ⟨⟨rfl, hd⟩, hw⟩ := hw
    have hlt := (List.getElem?_eq_some_iff.1 hw).1
    have hsp := h.sp
    have htop := h.top
    have ha : (s.regs .esp + disp).toNat = (s.regs .esp).toNat + 4 * (disp.toNat / 4) := by
      rw [BitVec.toNat_add]
      omega
    have hf : Core.fits (s.regs .esp + disp) = true := by
      simp only [Core.fits, ha, decide_eq_true_eq]
      omega
    show Core.load T (s.withMem m) (s.regs .esp + disp) = _
    rw [Core.load, if_pos hf, ha, h.words.get hw, BitVec.ofNat_toNat, BitVec.setWidth_eq]

theorem Sim.push (w : Word) (h : Sim T lo hi m s) (ht : hi ≤ top)
    (hr : lo + 4 ≤ (s.regs .esp).toNat) :
    Follows T lo hi top ((s.withMem m).view T) ((s.withMem m).push T w) (s.pushList w) := by
  have hsp := h.sp
  have htop := h.top
  have ha : (s.regs .esp - 4).toNat = (s.regs .esp).toNat - 4 := by
    rw [BitVec.toNat_sub_of_le (by rw [BitVec.le_def]; simp; omega)]
    rfl
  have hf : Core.fits (s.regs .esp - 4) = true := by
    simp only [Core.fits, ha, decide_eq_true_eq]
    omega
  have hv : ((s.pushList w).withMem ((s.withMem m).pushed T w).mem).view T =
      write32 ((s.withMem m).view T) ((s.regs .esp).toNat - 4) w.toNat := by
    rw [← ha]
    refine Core.view_stored (c := s.withMem m) fun x y h1 h2 he => ?_
    rw [Core.withMem_regs, ha] at h1 h2
    exact h.apart x y (by omega) (by omega) he
  refine ⟨((s.withMem m).pushed T w).mem, if_pos hf, ⟨?_, ?_, htop, h.apart, ?_⟩, ?_⟩
  · show (s.regs .esp - 4).toNat + 4 * (s.mem.length + 1) = hi
    omega
  · show lo ≤ (s.regs .esp - 4).toNat
    omega
  · rw [hv]
    show Stacked _ (s.regs .esp - 4).toNat (w :: s.mem)
    rw [ha]
    constructor
    · rw [read32_write32, Nat.mod_eq_of_lt w.isLt]
    · rw [Nat.sub_add_cancel (by omega)]
      exact h.words.congr fun x h1 _ => write32_outside (by omega)
  · rw [hv]
    exact (Off.refl lo top _).write32 _ (by omega) (by omega)

theorem Sim.pushAll (h : Sim T lo hi m s) (ws : List Word) (ht : hi ≤ top)
    (hr : lo + 4 * ws.length ≤ (s.regs .esp).toNat) :
    Follows T lo hi top ((s.withMem m).view T) ((s.withMem m).pushAll T ws)
      (ws.foldl (fun s w => s.pushList w) s) := by
  induction ws generalizing m s with
  | nil => exact h.stay rfl rfl rfl rfl
  | cons w ws ih =>
    simp only [List.length_cons] at hr
    have hlt := (s.regs .esp).isLt
    refine (h.push w ht (by omega)).bind fun m' h' => ih h' ?_
    show _ ≤ (s.regs .esp - 4).toNat
    rw [BitVec.toNat_sub_of_le (by rw [BitVec.le_def]; simp; omega)]
    show _ ≤ (s.regs .esp).toNat - 4
    omega

theorem Sim.drop (h : Sim T lo hi m s) {k : Nat} (hk : k ≤ s.mem.length) :
    Sim T lo hi m (s.dropList k) := by
  have hsp := h.sp
  have htop := h.top
  have hlow := h.low
  have ha : (s.regs .esp + .ofNat 32 (4 * k)).toNat = (s.regs .esp).toNat + 4 * k := by
    rw [BitVec.toNat_add, BitVec.toNat_ofNat]
    omega
  refine ⟨?_, ?_, htop, h.apart, ?_⟩
  · show (s.regs .esp + .ofNat 32 (4 * k)).toNat + 4 * (s.mem.drop k).length = hi
    rw [ha, List.length_drop]
    omega
  · show lo ≤ (s.regs .esp + .ofNat 32 (4 * k)).toNat
    omega
  · show Stacked ((s.withMem m).view T) (s.regs .esp + .ofNat 32 (4 * k)).toNat (s.mem.drop k)
    rw [ha]
    exact h.words.drop

theorem Sim.pop {w : Word} (h : Sim T lo hi m s) (hp : s.popList = some (w, t)) :
    (s.withMem m).pop T = some (w, t.withMem m) ∧ t = s.dropList 1 ∧ Sim T lo hi m t := by
  unfold Core.popList at hp
  cases hm : s.mem with
  | nil => simp [hm] at hp
  | cons w' ws =>
    simp only [hm, List.head?_cons, Option.pure_def, Option.bind_eq_bind, Option.bind_some,
      Option.some.injEq, Prod.mk.injEq] at hp
    obtain ⟨rfl, rfl⟩ := hp
    have hv : Src.value T (s.withMem m) (.mem .esp 0) = some w' :=
      h.value (by simp [Src.onList, hm])
    have hl : (s.withMem m).load T (s.regs .esp) = some w' := by
      simpa [Src.value] using hv
    refine ⟨?_, rfl, h.drop (by simp [hm])⟩
    unfold Core.pop
    simp only [Core.withMem_regs, hl]
    rfl

theorem Sim.popTo {r : Reg} (h : Sim T lo hi m s) (hp : s.popListTo r = some t) :
    Follows T lo hi top ((s.withMem m).view T) ((s.withMem m).popTo T r) t := by
  unfold Core.popListTo at hp
  cases hw : s.popList with
  | none => simp [hw] at hp
  | some p =>
    obtain ⟨w, u⟩ := p
    obtain ⟨hc, rfl, hs⟩ := h.pop hw
    simp only [hw, Option.bind_eq_bind, Option.bind_some, Option.ite_none_left_eq_some] at hp
    obtain ⟨hr, ht⟩ := hp
    cases ht
    unfold Core.popTo
    rw [hc]
    exact hs.stay (t := (s.dropList 1).setReg r w) (if_neg (Ne.symm hr)) rfl rfl rfl

theorem Sim.kernelOnly (hk : s.kernelOnly = some t) :
    t = s ∧ (s.withMem m).kernelOnly = some (s.withMem m) := by
  unfold Core.kernelOnly at *
  split at hk
  · next h =>
    cases hk
    exact ⟨rfl, if_pos h⟩
  · cases hk

theorem Sim.popa (h : Sim T lo hi m s) (hs : onStack .popa s = some t) :
    Follows T lo hi top ((s.withMem m).view T) (exec T .popa (s.withMem m)) t := by
  simp only [onStack, Option.bind_eq_bind, Option.bind_eq_some_iff, Prod.exists] at hs
  obtain ⟨s1, h1, s2, h2, s3, h3, w, s4, h4, s5, h5, s6, h6, s7, h7, h8⟩ := hs
  unfold X86.exec
  refine (h.popTo h1).bind fun m h => (h.popTo h2).bind fun m h => (h.popTo h3).bind fun m h => ?_
  obtain ⟨hp, rfl, hs⟩ := h.pop h4
  simp only [hp, Option.bind_eq_bind, Option.bind_some]
  exact (hs.popTo h5).bind fun m h => (h.popTo h6).bind fun m h => (h.popTo h7).bind fun m h =>
    h.popTo h8

theorem Sim.adjustEsp {op : Alu} {src : Src} (h : Sim T lo hi m s)
    (hs : adjustEsp op src s = some t) :
    Follows T lo hi top ((s.withMem m).view T) (exec T (.alu op .esp src) (s.withMem m)) t := by
  unfold X86.adjustEsp at hs
  split at hs
  · next w =>
    simp only [Option.ite_none_right_eq_some, Option.some.injEq] at hs
    obtain ⟨⟨hw, hk⟩, rfl⟩ := hs
    have hv : BitVec.ofNat 32 (4 * (w.toNat / 4)) = w := by
      rw [Nat.mul_div_cancel' (Nat.dvd_of_mod_eq_zero hw), BitVec.ofNat_toNat, BitVec.setWidth_eq]
    have hd : Follows T lo hi top _ _ _ := (h.drop hk).stay
      (t := (s.dropList (w.toNat / 4)).setFlags (Alu.add.flags (s.regs .esp) w s.eflags))
      rfl rfl rfl rfl
    simp only [X86.exec, Src.value, Option.bind_eq_bind, Option.bind_some, reduceCtorEq, if_false]
    unfold Core.dropList at *
    rw [hv] at *
    exact hd
  · cases hs

theorem Sim.alu {op : Alu} {d : Reg} {src : Src} (h : Sim T lo hi m s)
    (hs : onStack (.alu op d src) s = some t) :
    Follows T lo hi top ((s.withMem m).view T) (exec T (.alu op d src) (s.withMem m)) t := by
  simp only [onStack] at hs
  split at hs
  · next hd => exact hd ▸ h.adjustEsp hs
  · simp only [Option.bind_eq_bind, Option.bind_eq_some_iff] at hs
    obtain ⟨y, hy, hs⟩ := hs
    simp only [X86.exec, h.value hy, Option.bind_eq_bind, Option.bind_some]
    split at hs
    · next hc =>
      cases hs
      rw [if_pos hc]
      exact h.stay (t := s.setFlags (op.flags (s.regs d) y s.eflags)) rfl rfl rfl rfl
    · next hc =>
      rw [if_neg hc]
      exact (h.change (t := s.setFlags (op.flags (s.regs d) y s.eflags)) rfl rfl rfl rfl).1.assign hs

/-- **What an instruction does to the list, the processor does.** -/
theorem Sim.exec {i : Instr} (h : Sim T lo hi m s) (hs : onStack i s = some t)
    (ht : i.pushes = 0 ∨ hi ≤ top) (hr : lo + 4 * i.pushes ≤ (s.regs .esp).toNat) :
    Follows T lo hi top ((s.withMem m).view T) (exec T i (s.withMem m)) t := by
  cases i with
  | mov d src =>
    simp only [onStack, Option.bind_eq_bind, Option.bind_eq_some_iff] at hs
    obtain ⟨w, hw, ha⟩ := hs
    simp only [X86.exec, h.value hw]
    exact h.assign ha
  | movHalf d v =>
    simp only [onStack] at hs
    simp only [X86.exec]
    exact h.assign hs
  | getSeg d g =>
    simp only [onStack] at hs
    simp only [X86.exec]
    exact h.assign hs
  | setSeg g r =>
    simp only [onStack, Option.ite_none_left_eq_some, Option.some.injEq] at hs
    obtain ⟨hg, rfl⟩ := hs
    simp only [X86.exec, if_neg hg]
    exact h.stay (t := s.setSeg g _) rfl rfl rfl rfl
  | getCr0 d =>
    simp only [onStack, Option.bind_eq_bind, Option.bind_eq_some_iff] at hs
    obtain ⟨u, hk, ha⟩ := hs
    obtain ⟨rfl, hk⟩ := Sim.kernelOnly (m := m) hk
    simp only [X86.exec, hk]
    exact h.assign ha
  | getCr3 d =>
    simp only [onStack, Option.bind_eq_bind, Option.bind_eq_some_iff] at hs
    obtain ⟨u, hk, ha⟩ := hs
    obtain ⟨rfl, hk⟩ := Sim.kernelOnly (m := m) hk
    simp only [X86.exec, hk]
    exact h.assign ha
  | alu op d src => exact h.alu hs
  | dec d =>
    simp only [onStack] at hs
    simp only [X86.exec]
    exact (h.change (t := s.setFlags (decFlags (s.regs d) s.eflags)) rfl rfl rfl rfl).1.assign hs
  | push src =>
    simp only [onStack, Option.bind_eq_bind, Option.bind_eq_some_iff, Option.pure_def,
      Option.some.injEq] at hs
    obtain ⟨w, hw, rfl⟩ := hs
    simp only [X86.exec, h.value hw]
    exact h.push w (by simpa [Instr.pushes] using ht) hr
  | pop d =>
    simp only [onStack] at hs
    simp only [X86.exec]
    exact h.popTo hs
  | pusha =>
    simp only [onStack, Option.some.injEq] at hs
    simp only [X86.exec, ← hs]
    exact h.pushAll (pushaRegs.map s.regs) (by simpa [Instr.pushes] using ht)
      (by rw [List.length_map]; exact hr)
  | popa => exact h.popa hs
  | pushf =>
    simp only [onStack, Option.some.injEq] at hs
    simp only [X86.exec, ← hs]
    exact h.push _ (by simpa [Instr.pushes] using ht) hr
  | popf =>
    simp only [onStack, Option.bind_eq_bind, Option.bind_eq_some_iff, Prod.exists, Option.pure_def,
      Option.some.injEq] at hs
    obtain ⟨u, hk, w, s', hp, rfl⟩ := hs
    obtain ⟨rfl, hk⟩ := Sim.kernelOnly (m := m) hk
    obtain ⟨hc, rfl, hs⟩ := h.pop hp
    simp only [X86.exec, hk, Option.bind_eq_bind, Option.bind_some, hc]
    exact hs.stay (t := (u.dropList 1).setFlags _) rfl rfl rfl rfl
  | cli =>
    simp only [onStack, Option.bind_eq_bind, Option.bind_eq_some_iff, Option.pure_def,
      Option.some.injEq] at hs
    obtain ⟨u, hk, rfl⟩ := hs
    obtain ⟨rfl, hk⟩ := Sim.kernelOnly (m := m) hk
    simp only [X86.exec, hk]
    exact h.stay (t := u.setFlags _) rfl rfl rfl rfl
  | sti =>
    simp only [onStack, Option.bind_eq_bind, Option.bind_eq_some_iff, Option.pure_def,
      Option.some.injEq] at hs
    obtain ⟨u, hk, rfl⟩ := hs
    obtain ⟨rfl, hk⟩ := Sim.kernelOnly (m := m) hk
    simp only [X86.exec, hk]
    exact h.stay (t := u.setFlags _) rfl rfl rfl rfl
  | store | storeAbs | setCr0 | setCr3 | hlt | jmp | jcc | call | ret | iret => simp [onStack] at hs

/-! An instruction that pushes nothing leaves all of physical memory as it is. -/

theorem pop_mem {c d : Cpu} {w : Word} (h : c.pop T = some (w, d)) : d.mem = c.mem := by
  simp only [Core.pop, Option.bind_eq_bind, Option.bind_eq_some_iff, Option.pure_def,
    Option.some.injEq, Prod.mk.injEq] at h
  obtain ⟨_, _, -, rfl⟩ := h
  rfl

theorem popTo_mem {c d : Cpu} {r : Reg} (h : c.popTo T r = some d) : d.mem = c.mem := by
  simp only [Core.popTo, Option.bind_eq_bind, Option.bind_eq_some_iff, Option.pure_def,
    Option.some.injEq, Prod.exists] at h
  obtain ⟨_, e, h, rfl⟩ := h
  have := pop_mem h
  exact this

theorem kernelOnly_mem {c d : Cpu} (h : c.kernelOnly = some d) : d.mem = c.mem := by
  simp only [Core.kernelOnly, Option.ite_none_right_eq_some, Option.some.injEq] at h
  rw [h.2]

/-- A push changes the four bytes it is for. -/
theorem push_mem {c d : Cpu} {w : Word} {p : Nat} (h : c.push T w = some d)
    (hp : ∀ i, i < 4 → c.phys T ((c.regs .esp - 4).toNat + i) ≠ p) : d.mem p = c.mem p := by
  simp only [Core.push, Option.ite_none_right_eq_some, Option.some.injEq] at h
  obtain ⟨-, rfl⟩ := h
  refine (Function.update_of_ne (Ne.symm (hp 3 (by decide))) _ _).trans ?_
  refine (Function.update_of_ne (Ne.symm (hp 2 (by decide))) _ _).trans ?_
  refine (Function.update_of_ne (Ne.symm (hp 1 (by decide))) _ _).trans ?_
  exact Function.update_of_ne (Ne.symm (hp 0 (by decide))) _ _

theorem exec_mem {i : Instr} {c d : Cpu} (hs : onStack i s = some t) (hi : i.pushes = 0)
    (h : exec T i c = some d) : d.mem = c.mem := by
  cases i with
  | mov =>
    simp only [exec, Option.bind_eq_bind, Option.bind_eq_some_iff, Option.pure_def,
      Option.some.injEq] at h
    obtain ⟨_, -, rfl⟩ := h
    rfl
  | movHalf | getSeg | dec =>
    simp only [exec, Option.some.injEq] at h
    subst h
    rfl
  | setSeg =>
    simp only [exec, Option.ite_none_left_eq_some, Option.some.injEq] at h
    obtain ⟨-, rfl⟩ := h
    rfl
  | getCr0 | getCr3 | cli | sti =>
    simp only [exec, Option.bind_eq_bind, Option.bind_eq_some_iff, Option.pure_def,
      Option.some.injEq] at h
    obtain ⟨_, hk, rfl⟩ := h
    have := kernelOnly_mem hk
    exact this
  | alu op =>
    simp only [exec, Option.bind_eq_bind, Option.bind_eq_some_iff, Option.pure_def,
      Option.some.injEq] at h
    obtain ⟨_, -, rfl⟩ := h
    split <;> rfl
  | pop => exact popTo_mem h
  | popa =>
    simp only [exec, Option.bind_eq_bind, Option.bind_eq_some_iff, Prod.exists] at h
    obtain ⟨c1, h1, c2, h2, c3, h3, _, c4, h4, c5, h5, c6, h6, c7, h7, h8⟩ := h
    rw [popTo_mem h8, popTo_mem h7, popTo_mem h6, popTo_mem h5, pop_mem h4, popTo_mem h3,
      popTo_mem h2, popTo_mem h1]
  | popf =>
    simp only [exec, Option.bind_eq_bind, Option.bind_eq_some_iff, Option.pure_def,
      Option.some.injEq, Prod.exists] at h
    obtain ⟨c1, hk, _, c2, hp, rfl⟩ := h
    have := (pop_mem hp).trans (kernelOnly_mem hk)
    exact this
  | push | pusha | pushf | call => cases hi
  | store | storeAbs | setCr0 | setCr3 | hlt | jmp | jcc | ret | iret => simp [onStack] at hs

theorem Sim.quiet {i : Instr} (h : Sim T lo hi m s) (hs : onStack i s = some t)
    (hp : i.pushes = 0) : X86.exec T i (s.withMem m) = some (t.withMem m) ∧ Sim T lo hi m t := by
  have hlow := h.low
  have he : Follows T lo hi 0 _ _ _ := h.exec hs (.inl hp) (by rw [hp]; omega)
  obtain ⟨m', hx, ht, -⟩ := he
  obtain rfl : m' = m := exec_mem hs hp hx
  exact ⟨hx, ht⟩

/-! ## What an instruction leaves alone -/

theorem assign_eip {d : Reg} {w x : Word} : assign d w (s.setEip x) = (assign d w s).map (·.setEip x) := by
  unfold assign
  split <;> rfl

theorem popList_eip {x : Word} :
    (s.setEip x).popList = s.popList.map fun p => (p.1, p.2.setEip x) := by
  obtain ⟨regs, segs, eflags, cr0, cr3, eip, _ | ⟨w, ws⟩⟩ := s <;> rfl

theorem popListTo_eip {r : Reg} {x : Word} :
    (s.setEip x).popListTo r = (s.popListTo r).map (·.setEip x) := by
  unfold Core.popListTo
  rw [popList_eip]
  cases s.popList with
  | none => rfl
  | some p =>
    simp only [Option.map_some, Option.bind_eq_bind, Option.bind_some]
    split <;> rfl

theorem kernelOnly_eip {x : Word} : (s.setEip x).kernelOnly = s.kernelOnly.map (·.setEip x) := by
  unfold Core.kernelOnly
  rw [show (s.setEip x).cpl = s.cpl from rfl]
  split <;> rfl

theorem onList_eip {src : Src} {x : Word} : src.onList (s.setEip x) = src.onList s := by
  cases src <;> rfl

theorem adjustEsp_eip {op : Alu} {src : Src} {x : Word} :
    adjustEsp op src (s.setEip x) = (adjustEsp op src s).map (·.setEip x) := by
  unfold adjustEsp
  split
  · simp only [Core.setEip_mem]
    split <;> rfl
  · rfl

theorem pushLists_eip {x : Word} : ∀ {ws : List Word} {s : Listed},
    ws.foldl (fun s w => s.pushList w) (s.setEip x) = (ws.foldl (fun s w => s.pushList w) s).setEip x
  | [], _ => rfl
  | w :: _, s => pushLists_eip (s := s.pushList w)

/-- An instruction of the line does the same wherever it lies. -/
theorem onStack_eip (i : Instr) (x : Word) :
    onStack i (s.setEip x) = (onStack i s).map (·.setEip x) := by
  cases i with
  | mov d src =>
    simp only [onStack, onList_eip, assign_eip, Option.bind_eq_bind, Option.map_bind, Function.comp_def]
  | alu op d src =>
    simp only [onStack]
    split
    · exact adjustEsp_eip
    · simp only [onList_eip, Option.bind_eq_bind, Option.map_bind, Function.comp_def]
      refine congrArg _ (funext fun y => ?_)
      split
      · rfl
      · exact assign_eip (s := s.setFlags _)
  | pusha =>
    simp only [onStack, Option.map_some]
    rw [← pushLists_eip]
    rfl
  | popa =>
    simp only [onStack, popList_eip, popListTo_eip, Option.bind_eq_bind, Option.map_bind,
      Option.bind_map, Function.comp_def]
  | popf =>
    simp only [onStack, popList_eip, kernelOnly_eip, Option.bind_eq_bind, Option.map_bind,
      Option.bind_map, Function.comp_def]
    rfl
  | pop d =>
    simp only [onStack]
    exact popListTo_eip
  | push src =>
    simp only [onStack, onList_eip, Option.bind_eq_bind, Option.map_bind, Function.comp_def]
    rfl
  | movHalf d v =>
    simp only [onStack]
    exact assign_eip
  | getSeg d g =>
    simp only [onStack]
    exact assign_eip
  | dec d =>
    simp only [onStack]
    exact assign_eip (s := s.setFlags _)
  | getCr0 d | getCr3 d | cli | sti =>
    simp only [onStack, kernelOnly_eip, assign_eip, Option.bind_eq_bind, Option.map_bind,
      Option.bind_map, Function.comp_def]
    rfl
  | setSeg =>
    simp only [onStack]
    split <;> rfl
  | pushf => rfl
  | store | storeAbs | setCr0 | setCr3 | hlt | jmp | jcc | call | ret | iret => rfl

theorem onStackAll_eip (x : Word) : ∀ {is : List Instr} {s : Listed},
    onStackAll is (s.setEip x) = (onStackAll is s).map (·.setEip x)
  | [], _ => rfl
  | i :: is, s => by
    simp only [onStackAll, onStack_eip, onStackAll_eip x, Option.bind_eq_bind, Option.map_bind,
      Option.bind_map, Function.comp_def]

theorem onStackAll_append : ∀ (is js : List Instr) (s : Listed),
    onStackAll (is ++ js) s = (onStackAll is s).bind (onStackAll js)
  | [], _, _ => rfl
  | i :: is, js, s => by
    simp only [List.cons_append, onStackAll, onStackAll_append is js, Option.bind_eq_bind,
      Option.bind_assoc]

/-- `t` is in the address space of `s`, with at most `k` words more. -/
structure Near (k : Nat) (s t : Listed) : Prop where
  cr0 : t.cr0 = s.cr0
  cr3 : t.cr3 = s.cr3
  length : t.mem.length ≤ s.mem.length + k

theorem Near.refl (s : Listed) : Near 0 s s := ⟨rfl, rfl, Nat.le_refl _⟩

theorem Near.trans {j k : Nat} (h : Near j s t) (h' : Near k t u) : Near (j + k) s u := by
  refine ⟨h'.cr0.trans h.cr0, h'.cr3.trans h.cr3, ?_⟩
  have := h.length
  have := h'.length
  omega

theorem Near.setFlags {e : Word} (h : Near 0 (s.setFlags e) t) : Near 0 s t :=
  ⟨h.cr0, h.cr3, h.length⟩

theorem Near.assign {d : Reg} {w : Word} (h : assign d w s = some t) : Near 0 s t := by
  unfold X86.assign at h
  split at h
  · cases h
  · cases h
    exact ⟨rfl, rfl, Nat.le_refl _⟩

theorem Near.drop (k : Nat) (s : Listed) : Near 0 s (s.dropList k) :=
  ⟨rfl, rfl, by simp [Core.dropList]⟩

theorem Near.pop {w : Word} (h : s.popList = some (w, t)) : Near 0 s t := by
  unfold Core.popList at h
  cases hw : s.mem.head? with
  | none => simp [hw] at h
  | some w' =>
    simp only [hw, Option.bind_eq_bind, Option.bind_some, Option.pure_def, Option.some.injEq,
      Prod.mk.injEq] at h
    exact h.2 ▸ .drop 1 s

theorem Near.popTo {r : Reg} (h : s.popListTo r = some t) : Near 0 s t := by
  unfold Core.popListTo at h
  cases hw : s.popList with
  | none => simp [hw] at h
  | some p =>
    obtain ⟨w, u⟩ := p
    simp only [hw, Option.bind_eq_bind, Option.bind_some, Option.ite_none_left_eq_some] at h
    obtain ⟨_, h⟩ := h
    cases h
    exact (Near.pop hw).trans (k := 0) ⟨rfl, rfl, Nat.le_refl _⟩

theorem Near.pushList (w : Word) (s : Listed) : Near 1 s (s.pushList w) :=
  ⟨rfl, rfl, Nat.le_refl _⟩

theorem Near.pushLists : ∀ (ws : List Word) (s : Listed),
    Near ws.length s (ws.foldl (fun s w => s.pushList w) s)
  | [], s => .refl s
  | w :: ws, s => by
    rw [List.length_cons, Nat.add_comm]
    exact (Near.pushList w s).trans (.pushLists ws _)

theorem Near.kernelOnly (h : s.kernelOnly = some t) : Near 0 s t := by
  obtain ⟨rfl, -⟩ := Sim.kernelOnly (m := fun _ => 0) h
  exact .refl _

theorem Near.exec {i : Instr} (h : onStack i s = some t) : Near i.pushes s t := by
  cases i with
  | mov d src =>
    simp only [onStack, Option.bind_eq_bind, Option.bind_eq_some_iff] at h
    obtain ⟨w, _, ha⟩ := h
    exact .assign ha
  | movHalf | getSeg =>
    simp only [onStack] at h
    exact .assign h
  | dec d =>
    simp only [onStack] at h
    exact (Near.assign h).setFlags
  | setSeg =>
    simp only [onStack, Option.ite_none_left_eq_some, Option.some.injEq] at h
    obtain ⟨-, rfl⟩ := h
    exact ⟨rfl, rfl, Nat.le_refl _⟩
  | getCr0 d | getCr3 d =>
    simp only [onStack, Option.bind_eq_bind, Option.bind_eq_some_iff] at h
    obtain ⟨u, hk, ha⟩ := h
    exact (Near.kernelOnly hk).trans (k := 0) (.assign ha)
  | alu op d src =>
    simp only [onStack] at h
    split at h
    · unfold adjustEsp at h
      split at h
      · simp only [Option.ite_none_right_eq_some, Option.some.injEq] at h
        obtain ⟨_, rfl⟩ := h
        exact (Near.drop _ s).trans (k := 0) ⟨rfl, rfl, Nat.le_refl _⟩
      · cases h
    · simp only [Option.bind_eq_bind, Option.bind_eq_some_iff] at h
      obtain ⟨y, _, h⟩ := h
      split at h
      · cases h
        exact ⟨rfl, rfl, Nat.le_refl _⟩
      · exact (Near.assign h).setFlags
  | push src =>
    simp only [onStack, Option.bind_eq_bind, Option.bind_eq_some_iff, Option.pure_def,
      Option.some.injEq] at h
    obtain ⟨w, _, rfl⟩ := h
    exact .pushList w s
  | pop d =>
    simp only [onStack] at h
    exact .popTo h
  | pusha =>
    simp only [onStack, Option.some.injEq] at h
    subst h
    exact .pushLists (pushaRegs.map s.regs) s
  | popa =>
    simp only [onStack, Option.bind_eq_bind, Option.bind_eq_some_iff, Prod.exists] at h
    obtain ⟨s1, h1, s2, h2, s3, h3, w, s4, h4, s5, h5, s6, h6, s7, h7, h8⟩ := h
    exact ((((((((Near.popTo h1).trans (.popTo h2)).trans (.popTo h3)).trans (.pop h4)).trans
      (.popTo h5)).trans (.popTo h6)).trans (.popTo h7)).trans (.popTo h8))
  | pushf =>
    simp only [onStack, Option.some.injEq] at h
    subst h
    exact .pushList _ s
  | popf =>
    simp only [onStack, Option.bind_eq_bind, Option.bind_eq_some_iff, Prod.exists, Option.pure_def,
      Option.some.injEq] at h
    obtain ⟨u, hk, w, u', hp, rfl⟩ := h
    exact ((Near.kernelOnly hk).trans (.pop hp)).trans (k := 0) ⟨rfl, rfl, Nat.le_refl _⟩
  | cli | sti =>
    simp only [onStack, Option.bind_eq_bind, Option.bind_eq_some_iff, Option.pure_def,
      Option.some.injEq] at h
    obtain ⟨u, hk, rfl⟩ := h
    exact (Near.kernelOnly hk).trans (k := 0) ⟨rfl, rfl, Nat.le_refl _⟩
  | store | storeAbs | setCr0 | setCr3 | hlt | jmp | jcc | call | ret | iret => simp [onStack] at h

end

/-! ## Lines of code -/

/-- The instructions `is` lie from `a` on, the code behind them at `b`. -/
inductive Listing (code : Code) : Word → List Instr → Word → Prop
  | nil (a : Word) : Listing code a [] a
  | cons {a b d : Word} {i : Instr} {is : List Instr} :
      code a.toNat = some (i, b) → Listing code b is d → Listing code a (i :: is) d

theorem Listing.append {code : Code} {a b : Word} {is js : List Instr}
    (h : Listing code a (is ++ js) b) : ∃ d, Listing code a is d ∧ Listing code d js b := by
  induction is generalizing a with
  | nil => exact ⟨a, .nil a, h⟩
  | cons i is ih =>
    cases h with
    | cons hc h =>
      obtain ⟨d, h1, h2⟩ := ih h
      exact ⟨d, .cons hc h1, h2⟩

/-- The instructions one address each, from `base` on. -/
def placed (base : Nat) (is : List Instr) : Code := fun x =>
  if x < base then none else is[x - base]?.map fun i => (i, .ofNat 32 (x + 1))

theorem placed_none {base x : Nat} {is : List Instr} (h : base + is.length ≤ x) :
    placed base is x = none := by
  unfold placed
  split
  · rfl
  · rw [List.getElem?_eq_none (by omega)]
    rfl

theorem Listing.placed {base : Nat} {is : List Instr} {b : Word} : ∀ (pre post : List Instr) {a : Word},
    a.toNat = base + pre.length → b.toNat = base + pre.length + is.length →
    Listing (placed base (pre ++ (is ++ post))) a is b := by
  induction is with
  | nil =>
    intro pre post a ha hb
    obtain rfl : a = b := BitVec.eq_of_toNat_eq (by simpa using ha.trans hb.symm)
    exact .nil a
  | cons i is ih =>
    intro pre post a ha hb
    simp only [List.length_cons] at hb
    have hlt := b.isLt
    have hn : (BitVec.ofNat 32 (a.toNat + 1)).toNat = base + pre.length + 1 := by
      rw [BitVec.toNat_ofNat, Nat.mod_eq_of_lt (by omega), ha]
    refine .cons (b := .ofNat 32 (a.toNat + 1)) ?_ ?_
    · unfold X86.placed
      rw [ha, if_neg (by omega), Nat.add_sub_cancel_left, List.getElem?_append_right (Nat.le_refl _)]
      simp
    · have := ih (pre ++ [i]) post (a := .ofNat 32 (a.toNat + 1)) (by simp; omega) (by simp; omega)
      simpa using this

theorem Listing.alone {base : Nat} {is : List Instr} {a b : Word} (ha : a.toNat = base)
    (hb : b.toNat = base + is.length) : Listing (X86.placed base is) a is b := by
  have h := Listing.placed [] [] ha hb
  rwa [List.append_nil] at h

section
variable (T : Tables) (code : Code) (ext : Cpu → Cpu → Prop) (lo hi : Nat)

/-- The code as the processor fetches it by linear address. -/
def seen {μ : Type} (s : Core μ) : Code := fun x => code (s.phys T x)

/-- A run to the processor `t` with some memory that holds its list; memory has changed from `v` only
inside `[lo, top)`. -/
def Gets (top : Nat) (v : Mem) (c : Cpu) (fs : List Word) (t : Listed) : Prop :=
  ∃ m, Runs T code ext c fs (t.withMem m) ∧ Sim T lo hi m t ∧ Off lo top v ((t.withMem m).view T)

end

section
variable {T : Tables} {code : Code} {ext : Cpu → Cpu → Prop} {lo hi top : Nat} {m v : Mem}
  {s t u : Listed}

theorem Runs.trans {c d e : Cpu} {f g : List Word} (h : Runs T code ext c f d)
    (h' : Runs T code ext d g e) : Runs T code ext c (f ++ g) e := by
  induction h with
  | refl => exact h'
  | step hf hx _ ih => exact .step hf hx (ih h')
  | routine hf hx _ ih => exact .routine hf hx (ih h')

theorem Gets.trans {c : Cpu} {f g : List Word} (h : Gets T code ext lo hi top v c f t)
    (h' : ∀ m, Sim T lo hi m t →
      Gets T code ext lo hi top ((t.withMem m).view T) (t.withMem m) g u) :
    Gets T code ext lo hi top v c (f ++ g) u := by
  obtain ⟨m, hr, hs, ho⟩ := h
  obtain ⟨m', hr', hs', ho'⟩ := h' m hs
  exact ⟨m', hr.trans hr', hs', ho.trans ho'⟩

theorem Listing.head {a b : Word} {i : Instr} {is : List Instr} (h : Listing code a (i :: is) b) :
    ∃ next, code a.toNat = some (i, next) ∧ Listing code next is b := by
  cases h with
  | cons hc h => exact ⟨_, hc, h⟩

theorem seen_off {μ : Type} {s : Core μ} (h : s.paging = false) : seen T code s = code :=
  funext fun x => congrArg code (Core.phys_off T h x)

theorem fetch_off {c : Cpu} (h : c.paging = false) : fetch T code c = code c.eip.toNat :=
  congrArg code (Core.phys_off T h _)

theorem Gets.refl (h : Sim T lo hi m s) (code : Code) (ext : Cpu → Cpu → Prop) :
    Gets T code ext lo hi top ((s.withMem m).view T) (s.withMem m) [] s :=
  ⟨m, .refl _, h, .refl lo top _⟩

/-- One step of the processor. -/
theorem Gets.one {i : Instr} {next : Word} (hf : seen T code s s.eip.toNat = some (i, next))
    (hx : Follows T lo hi top v (exec T i ((s.setEip next).withMem m)) t) :
    Gets T code ext lo hi top v (s.withMem m) [] t := by
  obtain ⟨m', hx, hs, ho⟩ := hx
  exact ⟨m', .step hf hx (.refl _), hs, ho⟩

theorem seen_congr {μ ν : Type} {s : Core μ} {t : Core ν} (h0 : t.cr0 = s.cr0) (h3 : t.cr3 = s.cr3) :
    seen T code t = seen T code s := by
  funext x
  unfold seen Core.phys Core.paging
  rw [h0, h3]

/-- **A straight line of code does what it does to the list.** -/
theorem Sim.block {a b : Word} {is : List Instr} (hl : Listing (seen T code s) a is b)
    (h : Sim T lo hi m s) (he : s.eip = a) (hs : onStackAll is s = some t)
    (ht : pushesAll is = 0 ∨ hi ≤ top) (hr : lo + 4 * pushesAll is ≤ (s.regs .esp).toNat) :
    Gets T code ext lo hi top ((s.withMem m).view T) (s.withMem m) [] (t.setEip b) := by
  induction is generalizing s t m a with
  | nil =>
    cases hl
    cases hs
    subst he
    exact .refl h code ext
  | cons i is ih =>
    cases hl with
    | @cons _ a' _ _ _ hc hl =>
      simp only [onStackAll, Option.bind_eq_bind, Option.bind_eq_some_iff] at hs
      obtain ⟨u, hu, hs⟩ := hs
      simp only [pushesAll, List.map_cons, List.sum_cons] at hr ht
      have hn := Near.exec hu
      have hu' : onStack i (s.setEip a') = some (u.setEip a') := by
        rw [onStack_eip, hu]
        rfl
      have hw : onStackAll is (u.setEip a') = some (t.setEip a') := by
        rw [onStackAll_eip, hs]
        rfl
      have h' : Follows T lo hi top _ _ _ :=
        (h.change (t := s.setEip a') rfl rfl rfl rfl).1.exec hu' (by omega) (by
          show lo + 4 * i.pushes ≤ (s.regs .esp).toNat
          omega)
      refine Gets.trans (f := []) (.one (by rw [he, hc]) h') fun m' hm => ?_
      have hseen : seen T code (u.setEip a') = seen T code s := seen_congr hn.cr0 hn.cr3
      refine ih (t := t.setEip a') (by rwa [hseen]) hm rfl hw (by unfold pushesAll; omega) ?_
      have hsp := h.sp
      have hsp' : (u.regs .esp).toNat + 4 * u.mem.length = hi := hm.sp
      have hlen := hn.length
      show lo + 4 * (is.map Instr.pushes).sum ≤ (u.regs .esp).toNat
      omega

/-- A line that pushes nothing leaves all of physical memory as it is. -/
theorem Sim.quietBlock (ext : Cpu → Cpu → Prop) {a b : Word} {is : List Instr}
    (hl : Listing (seen T code s) a is b) (h : Sim T lo hi m s) (he : s.eip = a)
    (hs : onStackAll is s = some t) (hp : pushesAll is = 0) :
    Runs T code ext (s.withMem m) [] ((t.setEip b).withMem m) ∧ Sim T lo hi m (t.setEip b) := by
  induction is generalizing s t a with
  | nil =>
    cases hl
    cases hs
    subst he
    exact ⟨.refl _, h⟩
  | cons i is ih =>
    cases hl with
    | @cons _ a' _ _ _ hc hl =>
      simp only [onStackAll, Option.bind_eq_bind, Option.bind_eq_some_iff] at hs
      obtain ⟨u, hu, hs⟩ := hs
      simp only [pushesAll, List.map_cons, List.sum_cons, Nat.add_eq_zero_iff] at hp
      have hu' : onStack i (s.setEip a') = some (u.setEip a') := by
        rw [onStack_eip, hu]
        rfl
      have hw : onStackAll is (u.setEip a') = some (t.setEip a') := by
        rw [onStackAll_eip, hs]
        rfl
      have hn := Near.exec hu
      obtain ⟨hx, hm⟩ := (h.change (t := s.setEip a') rfl rfl rfl rfl).1.quiet hu' hp.1
      have hseen : seen T code (u.setEip a') = seen T code s := seen_congr hn.cr0 hn.cr3
      obtain ⟨hr, hm'⟩ := ih (t := t.setEip a') (by rwa [hseen]) hm rfl hw hp.2
      refine ⟨.step ?_ hx hr, hm'⟩
      subst he
      exact hc

/-! ## Between the lines -/

theorem Sim.jmp {a : Word} {next : Word} (h : Sim T lo hi m s)
    (hf : seen T code s s.eip.toNat = some (.jmp (.imm a), next)) :
    Gets T code ext lo hi top ((s.withMem m).view T) (s.withMem m) [] (s.setEip a) :=
  .one hf (h.stay (t := s.setEip a) rfl rfl rfl rfl)

theorem Sim.call {a : Word} {next : Word} (h : Sim T lo hi m s)
    (hf : seen T code s s.eip.toNat = some (.call (.imm a), next)) (ht : hi ≤ top)
    (hr : lo + 4 ≤ (s.regs .esp).toNat) :
    Gets T code ext lo hi top ((s.withMem m).view T) (s.withMem m) [] ((s.pushList next).setEip a) := by
  refine .one hf ?_
  have hn := (h.change (t := s.setEip next) rfl rfl rfl rfl).1
  have hp := hn.push next ht hr
  simp only [X86.exec, Src.value, Option.bind_eq_bind, Option.bind_some]
  exact hp.bind fun m h => h.stay (t := (s.pushList next).setEip a) rfl rfl rfl rfl

theorem Sim.quietRet (ext : Cpu → Cpu → Prop) {w : Word} {ws : List Word} {next : Word}
    (h : Sim T lo hi m s) (hm : s.mem = w :: ws)
    (hf : seen T code s s.eip.toNat = some (.ret, next)) :
    Runs T code ext (s.withMem m) [] (((s.dropList 1).setEip w).withMem m) ∧
      Sim T lo hi m ((s.dropList 1).setEip w) := by
  have hn := (h.change (t := s.setEip next) rfl rfl rfl rfl).1
  have hp : (s.setEip next).popList = some (w, (s.setEip next).dropList 1) := by
    unfold Core.popList
    rw [show (s.setEip next).mem = w :: ws from hm]
    rfl
  obtain ⟨hc, -, hd⟩ := hn.pop hp
  refine ⟨.step hf ?_ (.refl _), (hd.change (t := (s.dropList 1).setEip w) rfl rfl rfl rfl).1⟩
  show (((s.setEip next).withMem m).pop T).bind _ = _
  rw [hc]
  rfl

theorem Sim.ret {w : Word} {ws : List Word} {next : Word} (h : Sim T lo hi m s)
    (hm : s.mem = w :: ws) (hf : seen T code s s.eip.toNat = some (.ret, next)) :
    Gets T code ext lo hi top ((s.withMem m).view T) (s.withMem m) [] ((s.dropList 1).setEip w) :=
  have ⟨hr, hd⟩ := h.quietRet ext hm hf
  ⟨m, hr, hd, .refl lo top _⟩

theorem dropList_dropList (s : Listed) (j k : Nat) :
    (s.dropList j).dropList k = s.dropList (j + k) := by
  have he : s.regs .esp + .ofNat 32 (4 * j) + .ofNat 32 (4 * k) =
      s.regs .esp + .ofNat 32 (4 * (j + k)) := by
    rw [BitVec.add_assoc, ← BitVec.ofNat_add, Nat.mul_add]
  unfold Core.dropList
  simp only [Core.setReg, Core.withMem, if_true, he, List.drop_drop]
  congr 1
  funext q
  split <;> rfl

@[simp] theorem dropList_zero (s : Listed) : s.dropList 0 = s := by
  unfold Core.dropList Core.setReg Core.withMem
  simp only [Nat.mul_zero, BitVec.add_zero, List.drop_zero]
  obtain ⟨regs, segs, eflags, cr0, cr3, eip, mem⟩ := s
  congr 1
  funext q
  split
  · next h => rw [h]
  · rfl

/-- The words on top of the stack, taken off one by one. -/
theorem Sim.popAt (h : Sim T lo hi m s) {k : Nat} {w : Word} (hw : s.mem[k]? = some w) :
    ((s.dropList k).withMem m).pop T = some (w, (s.dropList (k + 1)).withMem m) := by
  have hk := (List.getElem?_eq_some_iff.1 hw).1
  have hp : (s.dropList k).popList = some (w, s.dropList (k + 1)) := by
    unfold Core.popList
    rw [dropList_dropList]
    simp [Core.dropList, hw]
  exact ((h.drop (by omega)).pop hp).1

/-- The processor after `iret` has taken the first three words. -/
def resumed (eip cs eflags : Word) (s : Listed) : Listed :=
  (((s.dropList 3).setEip eip).setSeg .cs (lowHalf cs)).setFlags eflags

section
variable {eip cs eflags : Word} {ws : List Word} (h : Sim T lo hi m s) (hk : s.cpl = 0)
  (hn : s.eflags.getLsbD nested = false) (hv : eflags.getLsbD virtual8086 = false)
include h hk hn hv

theorem Sim.iret (hm : s.mem = eip :: cs :: eflags :: ws) (hc : (resumed eip cs eflags s).cpl = 0) :
    X86.iret T (s.withMem m) = some ((resumed eip cs eflags s).withMem m) := by
  have hk' : (s.withMem m).kernelOnly = some (s.withMem m) := if_pos hk
  have h0 := h.popAt (k := 0) (w := eip) (by rw [hm]; rfl)
  have h1 := h.popAt (k := 1) (w := cs) (by rw [hm]; rfl)
  have h2 := h.popAt (k := 2) (w := eflags) (by rw [hm]; rfl)
  rw [dropList_zero] at h0
  unfold X86.iret
  simp only [hk', Option.bind_eq_bind, Option.bind_some, Core.withMem_eflags, hn, Bool.false_eq_true,
    if_false, h0, h1, h2, hv]
  exact if_pos hc

/-- `iret` out to another ring, to the stack it finds behind the three words. -/
theorem Sim.iretOuter {esp ss : Word} (hm : s.mem = eip :: cs :: eflags :: esp :: ss :: ws)
    (hc : (resumed eip cs eflags s).cpl ≠ 0) :
    X86.iret T (s.withMem m) = some (((((resumed eip cs eflags s).setReg .esp esp).setSeg .ss
      (lowHalf ss)).dropSegs T (resumed eip cs eflags s).cpl).withMem m) := by
  have hk' : (s.withMem m).kernelOnly = some (s.withMem m) := if_pos hk
  have h0 := h.popAt (k := 0) (w := eip) (by rw [hm]; rfl)
  have h1 := h.popAt (k := 1) (w := cs) (by rw [hm]; rfl)
  have h2 := h.popAt (k := 2) (w := eflags) (by rw [hm]; rfl)
  have h3 := h.popAt (k := 3) (w := esp) (by rw [hm]; rfl)
  have h4 := h.popAt (k := 4) (w := ss) (by rw [hm]; rfl)
  rw [dropList_zero] at h0
  unfold X86.iret
  simp only [hk', Option.bind_eq_bind, Option.bind_some, Core.withMem_eflags, hn, Bool.false_eq_true,
    if_false, h0, h1, h2, hv, h3, h4]
  exact if_neg hc

end

/-! ## Through a gate -/

theorem pushLists_eq : ∀ (ws : List Word) (s : Listed),
    ∃ esp, ws.foldl (fun s w => s.pushList w) s = (s.setReg .esp esp).withMem (ws.reverse ++ s.mem)
  | [], s => ⟨s.regs .esp, by
    have h := dropList_zero s
    simpa [Core.dropList] using h.symm⟩
  | w :: ws, s => by
    obtain ⟨esp, h⟩ := pushLists_eq ws (s.pushList w)
    refine ⟨esp, h.trans ?_⟩
    simp only [Core.pushList, Core.setReg, Core.withMem, List.reverse_cons, List.append_assoc,
      List.singleton_append]
    congr 1
    funext q
    split <;> rfl

/-- The processor at the first instruction behind the gate. -/
structure Interrupted (g : Gate) (n : Nat) (ss0 : Selector) (error : Option Word) (c : Cpu)
    (t : Listed) : Prop where
  eip : t.eip = g.offset
  mem : t.mem = saved n error c
  regs : ∀ q, q ≠ .esp → t.regs q = c.regs q
  cs : t.segs .cs = (g.selector &&& 0xFFFC ||| .ofNat 16 n)
  ss : t.segs .ss = if n < c.cpl then ss0 else c.segs .ss
  segs : ∀ q, q ≠ .cs → q ≠ .ss → t.segs q = c.segs q
  eflags : t.eflags = gateFlags c.eflags
  cr0 : t.cr0 = c.cr0
  cr3 : t.cr3 = c.cr3

theorem Sim.interrupt {g : Gate} {ss0 : Selector} {esp0 : Word} {error : Option Word} {c : Cpu}
    (h : Sim T lo hi c.mem ((onRing (T.dpl g.selector) ss0 esp0 c).withMem ([] : List Word)))
    (hg : g.present = true) (hn : T.dpl g.selector ≤ c.cpl)
    (hr : lo + 4 * (saved (T.dpl g.selector) error c).length ≤ hi) :
    ∃ m t, interrupt T g ss0 esp0 error c = some (t.withMem m) ∧ Sim T lo hi m t ∧
      Off lo hi (c.view T) ((t.withMem m).view T) ∧
      Interrupted g (T.dpl g.selector) ss0 error c t := by
  generalize hdpl : T.dpl g.selector = n at *
  have hsp : ((onRing n ss0 esp0 c).regs .esp).toNat + 4 * 0 = hi := h.sp
  have hpush : Follows T lo hi hi _ _ _ := h.pushAll (saved n error c).reverse (Nat.le_refl _) (by
    rw [List.length_reverse]
    show _ ≤ ((onRing n ss0 esp0 c).regs .esp).toNat
    omega)
  obtain ⟨m, hp, hs, ho⟩ := hpush
  obtain ⟨esp, he⟩ := pushLists_eq (saved n error c).reverse
    ((onRing n ss0 esp0 c).withMem ([] : List Word))
  have hring : (onRing n ss0 esp0 c).mem = c.mem ∧ (onRing n ss0 esp0 c).cr0 = c.cr0 ∧
      (onRing n ss0 esp0 c).cr3 = c.cr3 ∧ (∀ q, q ≠ .esp → (onRing n ss0 esp0 c).regs q = c.regs q) ∧
      ∀ q, (onRing n ss0 esp0 c).segs q = if q = .ss ∧ n < c.cpl then ss0 else c.segs q := by
    unfold onRing
    split
    · next hlt => exact ⟨rfl, rfl, rfl, fun q hq => if_neg hq, fun q => by simp [hlt]⟩
    · next hlt => exact ⟨rfl, rfl, rfl, fun q _ => rfl, fun q => by simp [hlt]⟩
  obtain ⟨hmem, h0, h3, hregs, hsegs⟩ := hring
  have hself : ((onRing n ss0 esp0 c).withMem ([] : List Word)).withMem c.mem =
      onRing n ss0 esp0 c := by
    rw [← hmem]
    rfl
  have hview : (onRing n ss0 esp0 c).view T = c.view T := by
    unfold Core.view Core.phys Core.paging
    rw [hmem, h0, h3]
  rw [he, List.reverse_reverse, hself] at hp ho
  rw [he, List.reverse_reverse] at hs
  obtain ⟨hgo, hsame⟩ := hs.change (t := g.jump n c.eflags (((onRing n ss0 esp0 c).setReg .esp
    esp).withMem (saved n error c ++ []))) rfl rfl rfl rfl
  refine ⟨m, _, ?_, hgo, ?_, rfl, List.append_nil _, ?_, rfl, ?_, ?_, rfl, h0, h3⟩
  · unfold X86.interrupt
    rw [hdpl, if_neg (by simp [hg]; omega), hp]
    rfl
  · rw [← hview, hsame]
    exact ho
  · exact fun q hq => (if_neg hq).trans (hregs q hq)
  · exact (hsegs .ss).trans (by simp)
  · exact fun q h1 h2 => (if_neg h1).trans ((hsegs q).trans (by simp [h2]))

end

end X86
