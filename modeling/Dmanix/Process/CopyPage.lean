import Dmanix.Lib.X86Stack
import Dmanix.Memory.Directory

/-!
# `copy_page_physical` (`src/process/process.s`)

The routine saves `ebx` and the flags, turns interrupts and paging off, copies 1024 words and turns
both back as they were. While paging is off it is fetched by physical address, so it has to lie at
the same addresses there.

`copy_page_physical_copies`: it does what `copyPagePhysical` says, on the memory with the two words
it has saved, and it keeps what its callers rely on.
-/

namespace Dmanix

open X86 Bytes

namespace CopyPage

/-- From the `cli` to the mask: the operands and the value of `cr0` with paging off. -/
def setup : List Instr :=
  [.cli,
   .mov .ebx (.mem .esp 12),
   .mov .ecx (.mem .esp 16),
   .getCr0 .edx,
   .alu .and .edx (.imm 0x7FFFFFFF)]

/-- `copy_page_physical` up to the `mov` that turns paging off -/
def enter : List Instr :=
  .push (.reg .ebx) :: .pushf :: (setup ++ [.setCr0 .edx])

/-- `.loop`, which lies at `loop` -/
def body (loop : Word) : List Instr :=
  [.mov .eax (.mem .ebx 0),
   .store .ecx 0 .eax,
   .alu .add .ebx (.imm 4),
   .alu .add .ecx (.imm 4),
   .dec .edx,
   .jcc .nz loop]

/-- Paging on. -/
def switch : List Instr :=
  [.getCr0 .edx,
   .alu .or .edx (.imm 0x80000000),
   .setCr0 .edx]

def leave : List Instr :=
  [.popf,
   .pop .ebx]

/-- `copy_page_physical` -/
def text (loop : Word) : List Instr :=
  enter ++ .mov .edx (.imm 1024) :: (body loop ++ switch) ++ (leave ++ [.ret])

/-! ## The loop -/

/-- The first `k` bytes of the page at `src` are at `dst`. -/
def copied (src dst k : Nat) (m : Mem) : Mem := fun a =>
  if dst ≤ a ∧ a < dst + k then m (src + (a - dst)) else m a

/-- Two pages: the same one, or apart. -/
def Pages (src dst : Nat) : Prop := src = dst ∨ src + 4096 ≤ dst ∨ dst + 4096 ≤ src

theorem copied_word {src dst k : Nat} (m : Mem) (h : Pages src dst) (hk : k + 4 ≤ 4096) :
    write32 (copied src dst k m) (dst + k) (read32 (copied src dst k m) (src + k)) =
      copied src dst (k + 4) m := by
  have hread : read32 (copied src dst k m) (src + k) = read32 m (src + k) := by
    apply read32_congr
    intro x hl hh
    exact if_neg (by unfold Pages at h; omega)
  rw [hread]
  funext x
  by_cases hx : dst + k ≤ x ∧ x < dst + k + 4
  · rw [write32_read32 _ _ _ _ hx.1 hx.2]
    unfold copied
    rw [if_pos (by omega)]
    congr 1
    omega
  · rw [write32_outside (by omega)]
    unfold copied
    by_cases hin : dst ≤ x ∧ x < dst + k
    · rw [if_pos hin, if_pos (by omega)]
    · rw [if_neg hin, if_neg (by omega)]

/-- The processor at `.loop` with `k` words copied of the memory `m`; `o` is the processor before the
loop. -/
structure Copying (src dst : Word) (m : Mem) (o : Cpu) (k : Nat) (c : Cpu) : Prop where
  ebx : c.regs .ebx = src + .ofNat 32 (4 * k)
  ecx : c.regs .ecx = dst + .ofNat 32 (4 * k)
  edx : c.regs .edx = .ofNat 32 (1024 - k)
  mem : c.mem = copied src.toNat dst.toNat (4 * k) m
  regs : ∀ r, r ∉ [.eax, .ebx, .ecx, .edx] → c.regs r = o.regs r
  segs : c.segs = o.segs
  cr0 : c.cr0 = o.cr0
  cr3 : c.cr3 = o.cr3

section
variable {T : Tables} {code : Code} (ext : Cpu → Cpu → Prop) {src dst loop b : Word} {m : Mem}
  {o c : Cpu} {k : Nat} {rest : List Instr}

theorem wordAddress {a : Word} (ha : a.toNat + 4096 ≤ 4294967296) (hk : k < 1024) :
    (a + BitVec.ofNat 32 (4 * k)).toNat = a.toNat + 4 * k := by
  rw [BitVec.toNat_add, BitVec.toNat_ofNat]
  omega

theorem add_four (a : Word) (k : Nat) :
    a + .ofNat 32 (4 * k) + 4 = a + .ofNat 32 (4 * (k + 1)) := by
  rw [BitVec.add_assoc, Nat.mul_add, BitVec.ofNat_add]
  rfl

theorem decFlags_zero (x e : Word) : (decFlags x e).getLsbD zero = (x - 1 == 0) := by
  unfold decFlags resultFlags
  iterate 4 rw [getLsbD_setFlag (by decide), if_neg (by decide)]
  rw [getLsbD_setFlag (by decide), if_pos rfl]

/-- What the processor keeps besides the registers `rs`. -/
structure Keeps (rs : List Reg) (c d : Cpu) : Prop where
  regs : ∀ r, r ∉ rs → d.regs r = c.regs r
  segs : d.segs = c.segs
  cr0 : d.cr0 = c.cr0
  cr3 : d.cr3 = c.cr3

theorem Keeps.paging {rs : List Reg} {d : Cpu} (h : Keeps rs c d) : d.paging = c.paging := by
  unfold Core.paging
  rw [h.cr0]

/-- The word at `ebx` is copied to `ecx`. -/
theorem word_copied (hl : Listing code c.eip (.mov .eax (.mem .ebx 0) :: .store .ecx 0 .eax :: rest) b)
    (hoff : c.paging = false) (hs : (c.regs .ebx).toNat + 4 ≤ 4294967296)
    (hd : (c.regs .ecx).toNat + 4 ≤ 4294967296) :
    ∃ d, X86.Runs T code ext c [] d ∧ Listing code d.eip rest b ∧ Keeps [.eax] c d ∧
      d.mem = write32 c.mem (c.regs .ecx).toNat (read32 c.mem (c.regs .ebx).toNat) := by
  obtain ⟨n1, h1, hl⟩ := hl.head
  obtain ⟨n2, h2, hl⟩ := hl.head
  obtain ⟨w, hw⟩ : ∃ w, w = BitVec.ofNat 32 (read32 c.mem (c.regs .ebx).toNat) := ⟨_, rfl⟩
  have hwn : w.toNat = read32 c.mem (c.regs .ebx).toNat := by
    rw [hw, BitVec.toNat_ofNat, Nat.mod_eq_of_lt (read32_lt _ _)]
  have x1 : exec T (.mov .eax (.mem .ebx 0)) (c.setEip n1) = _ :=
    exec_mov_off (show (c.setEip n1).paging = false from hoff) (add_zero _) hs .eax
  rw [Core.setEip_mem, Core.setEip_regs, ← hw] at x1
  obtain ⟨c1, hc1⟩ : ∃ d, d = (c.setEip n1).setReg .eax w := ⟨_, rfl⟩
  rw [← hc1] at x1
  have hecx : (c1.setEip n2).regs .ecx = c.regs .ecx := by
    rw [hc1]
    rfl
  have x2 : exec T (.store .ecx 0 .eax) (c1.setEip n2) = _ :=
    exec_store_off (by rw [hc1]; exact hoff) ((add_zero _).trans hecx) hd .eax
  have heax : ((c1.setEip n2).regs .eax).toNat = read32 c.mem (c.regs .ebx).toNat := by
    rw [← hwn, hc1]
    rfl
  have hmem : (c1.setEip n2).mem = c.mem := by
    rw [hc1]
    rfl
  rw [heax, hmem] at x2
  have hoff1 : c1.paging = false := by rw [hc1]; exact hoff
  refine ⟨_, .step ((fetch_off hoff).trans h1) x1 (.step
    ((fetch_off hoff1).trans (by rw [hc1]; exact h2)) x2 (.refl _)), hl, ?_, rfl⟩
  rw [hc1]
  refine ⟨fun r hr => ?_, rfl, rfl, rfl⟩
  rw [List.mem_singleton] at hr
  exact if_neg hr

/-- The pointers go on by a word, the counter down, and back to `loop` unless it is zero. -/
theorem pointers_moved (hl : Listing code c.eip (.alu .add .ebx (.imm 4) :: .alu .add .ecx (.imm 4) ::
      .dec .edx :: .jcc .nz loop :: rest) b) (hoff : c.paging = false) :
    ∃ d next, X86.Runs T code ext c [] d ∧ Listing code next rest b ∧
      d.eip = (if c.regs .edx - 1 = 0 then next else loop) ∧ Keeps [.ebx, .ecx, .edx] c d ∧
      d.regs .ebx = c.regs .ebx + 4 ∧ d.regs .ecx = c.regs .ecx + 4 ∧
      d.regs .edx = c.regs .edx - 1 ∧ d.mem = c.mem := by
  obtain ⟨n1, h1, hl⟩ := hl.head
  obtain ⟨n2, h2, hl⟩ := hl.head
  obtain ⟨n3, h3, hl⟩ := hl.head
  obtain ⟨n4, h4, hl⟩ := hl.head
  obtain ⟨c1, hc1⟩ : ∃ d, d = ((c.setEip n1).setFlags (Alu.add.flags (c.regs .ebx) 4
    c.eflags)).setReg .ebx (c.regs .ebx + 4) := ⟨_, rfl⟩
  obtain ⟨c2, hc2⟩ : ∃ d, d = ((c1.setEip n2).setFlags (Alu.add.flags (c1.regs .ecx) 4
    c1.eflags)).setReg .ecx (c1.regs .ecx + 4) := ⟨_, rfl⟩
  obtain ⟨c3, hc3⟩ : ∃ d, d = ((c2.setEip n3).setFlags (decFlags (c2.regs .edx)
    c2.eflags)).setReg .edx (c2.regs .edx - 1) := ⟨_, rfl⟩
  have x1 : exec T (.alu .add .ebx (.imm 4)) (c.setEip n1) = some c1 := by rw [hc1]; rfl
  have x2 : exec T (.alu .add .ecx (.imm 4)) (c1.setEip n2) = some c2 := by rw [hc2]; rfl
  have x3 : exec T (.dec .edx) (c2.setEip n3) = some c3 := by rw [hc3]; rfl
  have hzero : c3.eflags.getLsbD zero = (c.regs .edx - 1 == 0) := by
    rw [hc3, hc2, hc1]
    exact decFlags_zero _ _
  have x4 : exec T (.jcc .nz loop) (c3.setEip n4) =
      some (c3.setEip (if c.regs .edx - 1 = 0 then n4 else loop)) := by
    have hx : exec T (.jcc .nz loop) (c3.setEip n4) =
      some (if (!c3.eflags.getLsbD zero) = true then c3.setEip loop else c3.setEip n4) := rfl
    rw [hx, hzero]
    generalize c.regs .edx - 1 = v
    by_cases hv : v = 0
    · subst hv
      rfl
    · rw [if_neg hv, beq_eq_false_iff_ne.2 hv]
      rfl
  have hp1 : c1.paging = false := by rw [hc1]; exact hoff
  have hp2 : c2.paging = false := by rw [hc2]; exact hp1
  have hp3 : c3.paging = false := by rw [hc3]; exact hp2
  refine ⟨c3.setEip (if c.regs .edx - 1 = 0 then n4 else loop), n4, ?_, hl, rfl, ?_, ?_, ?_, ?_, ?_⟩
  · refine .step ((fetch_off hoff).trans h1) x1 ?_
    refine .step ((fetch_off hp1).trans (by rw [hc1]; exact h2)) x2 ?_
    refine .step ((fetch_off hp2).trans (by rw [hc2]; exact h3)) x3 ?_
    exact .step ((fetch_off hp3).trans (by rw [hc3]; exact h4)) x4 (.refl _)
  · rw [hc3, hc2, hc1]
    refine ⟨fun r hr => ?_, rfl, rfl, rfl⟩
    simp only [List.mem_cons, List.not_mem_nil, or_false, not_or] at hr
    simp [hr]
  · rw [hc3, hc2, hc1]
    rfl
  · rw [hc3, hc2, hc1]
    rfl
  · rw [hc3, hc2, hc1]
    rfl
  · rw [hc3, hc2, hc1]
    rfl

theorem turn (hl : Listing code loop (body loop ++ rest) b) (hoff : o.paging = false)
    (hp : Pages src.toNat dst.toNat) (hs : src.toNat + 4096 ≤ 4294967296)
    (hd : dst.toNat + 4096 ≤ 4294967296) (h : Copying src dst m o k c) (he : c.eip = loop)
    (hk : k < 1024) :
    ∃ d next, X86.Runs T code ext c [] d ∧ Copying src dst m o (k + 1) d ∧
      Listing code next rest b ∧ d.eip = if k + 1 = 1024 then next else loop := by
  have hcoff : c.paging = false := by
    unfold Core.paging at *
    rw [h.cr0]
    exact hoff
  have hsa := wordAddress hs hk
  have hda := wordAddress hd hk
  have hl : Listing code c.eip (body loop ++ rest) b := by rwa [he]
  obtain ⟨c1, hr1, hl1, hk1, hm1⟩ := word_copied (T := T) ext hl hcoff
    (by rw [h.ebx, hsa]; omega) (by rw [h.ecx, hda]; omega)
  obtain ⟨d, next, hr2, hl2, he2, hk2, hb2, hc2, hd2, hm2⟩ := pointers_moved (T := T) ext hl1
    (hk1.paging.trans hcoff)
  have hcount : c.regs .edx - 1 = .ofNat 32 (1024 - (k + 1)) := by
    rw [h.edx]
    apply BitVec.eq_of_toNat_eq
    simp
    omega
  have hlast : c.regs .edx - 1 = 0 ↔ k + 1 = 1024 := by
    rw [hcount, ← BitVec.toNat_inj, BitVec.toNat_ofNat]
    show (1024 - (k + 1)) % 4294967296 = 0 ↔ _
    omega
  rw [hk1.regs .ebx (by decide)] at hb2
  rw [hk1.regs .ecx (by decide)] at hc2
  rw [hk1.regs .edx (by decide)] at hd2 he2
  simp only [hlast] at he2
  refine ⟨d, next, hr1.trans hr2, ?_, hl2, he2⟩
  constructor
  · rw [← add_four, ← h.ebx]
    exact hb2
  · rw [← add_four, ← h.ecx]
    exact hc2
  · rw [← hcount]
    exact hd2
  · rw [hm2, hm1, h.ebx, h.ecx, hsa, hda, h.mem]
    exact copied_word m hp (by omega)
  · intro r hr
    simp only [List.mem_cons, List.not_mem_nil, or_false, not_or] at hr
    rw [hk2.regs r (by simp [hr]), hk1.regs r (by simp [hr]), h.regs r (by simp [hr])]
  · rw [hk2.segs, hk1.segs, h.segs]
  · rw [hk2.cr0, hk1.cr0, h.cr0]
  · rw [hk2.cr3, hk1.cr3, h.cr3]

/-- The whole loop, from its turn `k` on. -/
theorem turns (hl : Listing code loop (body loop ++ rest) b) (hoff : o.paging = false)
    (hp : Pages src.toNat dst.toNat) (hs : src.toNat + 4096 ≤ 4294967296)
    (hd : dst.toNat + 4096 ≤ 4294967296) : ∀ n {k : Nat} {c : Cpu}, k + n + 1 = 1024 →
      Copying src dst m o k c → c.eip = loop →
      ∃ d, X86.Runs T code ext c [] d ∧ Copying src dst m o 1024 d ∧ Listing code d.eip rest b
  | 0, k, c, hn, h, he => by
    obtain ⟨d, next, hr, hc, hrest, hde⟩ := turn ext hl hoff hp hs hd h he (by omega)
    rw [if_pos (by omega)] at hde
    have hk : k + 1 = 1024 := by omega
    rw [hk] at hc
    exact ⟨d, hr, hc, hde ▸ hrest⟩
  | n + 1, k, c, hn, h, he => by
    obtain ⟨d, next, hr, hc, -, hde⟩ := turn ext hl hoff hp hs hd h he (by omega)
    rw [if_neg (by omega)] at hde
    obtain ⟨f, hr', hf⟩ := turns hl hoff hp hs hd n (by omega) hc hde
    exact ⟨f, hr.trans hr', hf⟩

end

/-! ## On and off -/

/-- What `setup` does, from `s` to `t`, with the operands `src` and `dst` on the stack. -/
structure SetUp (src dst : Word) (s t : Listed) : Prop where
  ebx : t.regs .ebx = src
  ecx : t.regs .ecx = dst
  edx : t.regs .edx = s.cr0 &&& 0x7FFFFFFF
  regs : ∀ r, r ∉ [.ebx, .ecx, .edx] → t.regs r = s.regs r
  segs : t.segs = s.segs
  cr0 : t.cr0 = s.cr0
  cr3 : t.cr3 = s.cr3
  mem : t.mem = s.mem

theorem setup_list {s : Listed} {f e ret src dst : Word} {ws : List Word} (hk : s.cpl = 0)
    (hm : s.mem = f :: e :: ret :: src :: dst :: ws) :
    ∃ t, onStackAll setup s = some t ∧ SetUp src dst s t := by
  refine ⟨((((((s.setFlags (setFlag interruptEnable false s.eflags)).setReg .ebx src).setReg .ecx
    dst).setReg .edx s.cr0).setFlags (Alu.and.flags s.cr0 0x7FFFFFFF
    (setFlag interruptEnable false s.eflags))).setReg .edx (s.cr0 &&& 0x7FFFFFFF)), ?_, ?_⟩
  · unfold Core.cpl at hk
    simp [setup, onStackAll, onStack, Src.onList, assign, Core.kernelOnly, Core.cpl, hk, hm,
      Alu.result]
  · refine ⟨rfl, rfl, rfl, fun r hr => ?_, rfl, rfl, rfl, rfl⟩
    simp only [List.mem_cons, List.not_mem_nil, or_false, not_or] at hr
    simp [hr]

/-- What `switch` does. -/
structure Switched (q : Word) (c d : Cpu) : Prop where
  eip : d.eip = q
  regs : ∀ r, r ≠ .edx → d.regs r = c.regs r
  segs : d.segs = c.segs
  cr0 : d.cr0 = c.cr0 ||| 0x80000000
  cr3 : d.cr3 = c.cr3
  mem : d.mem = c.mem

theorem switched {T : Tables} {code : Code} (ext : Cpu → Cpu → Prop) {c : Cpu} {q : Word}
    (hl : Listing code c.eip switch q) (hoff : c.paging = false) (hk : c.cpl = 0) :
    ∃ d, X86.Runs T code ext c [] d ∧ Switched q c d := by
  obtain ⟨n1, h1, hl⟩ := hl.head
  obtain ⟨n2, h2, hl⟩ := hl.head
  obtain ⟨n3, h3, hl⟩ := hl.head
  cases hl
  obtain ⟨c1, hc1⟩ : ∃ d, d = (c.setEip n1).setReg .edx c.cr0 := ⟨_, rfl⟩
  obtain ⟨c2, hc2⟩ : ∃ d, d = ((c1.setEip n2).setFlags (Alu.or.flags c.cr0 0x80000000
    c1.eflags)).setReg .edx (c.cr0 ||| 0x80000000) := ⟨_, rfl⟩
  have x1 : exec T (.getCr0 .edx) (c.setEip n1) = some c1 :=
    (exec_getCr0 (c := c.setEip n1) hk .edx).trans (by rw [hc1]; rfl)
  have x2 : exec T (.alu .or .edx (.imm 0x80000000)) (c1.setEip n2) = some c2 := by
    rw [hc2, hc1]
    rfl
  have x3 := exec_setCr0 (T := T) (c := c2.setEip q) (by rw [hc2, hc1]; exact hk) .edx
  have hp1 : c1.paging = false := by rw [hc1]; exact hoff
  have hp2 : c2.paging = false := by rw [hc2]; exact hp1
  refine ⟨_, .step ((fetch_off hoff).trans h1) x1 (.step
    ((fetch_off hp1).trans (by rw [hc1]; exact h2)) x2 (.step
    ((fetch_off hp2).trans (by rw [hc2]; exact h3)) x3 (.refl _))), ?_⟩
  rw [hc2, hc1]
  refine ⟨rfl, fun r hr => ?_, rfl, rfl, rfl, rfl⟩
  simp [hr]

/-- The other bits of `cr0` survive the way off and on again. -/
theorem cr0_back {x : Word} (h : x.getLsbD 31 = true) : (x &&& 0x7FFFFFFF) ||| 0x80000000 = x := by
  apply BitVec.eq_of_getLsbD_eq
  intro i hi
  rw [BitVec.getLsbD_or, BitVec.getLsbD_and]
  have hoff : ∀ i : Fin 32, (0x7FFFFFFF#32).getLsbD i = decide (i.val ≠ 31) := by decide
  have hon : ∀ i : Fin 32, (0x80000000#32).getLsbD i = decide (i.val = 31) := by decide
  have h1 := hoff ⟨i, hi⟩
  have h2 := hon ⟨i, hi⟩
  rw [show ((0x7FFFFFFF : Word)).getLsbD i = _ from h1,
    show ((0x80000000 : Word)).getLsbD i = _ from h2]
  by_cases h31 : i = 31
  · subst h31
    simp [h]
  · simp [h31]

/-! ## The routine -/

/-- Where `copy_page_physical` lies: the code as it is fetched with paging on, and by physical
address. -/
structure Linked (mapped code : Code) (a p loop q b : Word) : Prop where
  enter : Listing mapped a enter p
  count : Listing code p [.mov .edx (.imm 1024)] loop
  body : Listing code loop (body loop ++ switch) q
  leave : Listing mapped q (leave ++ [.ret]) b

/-- What a caller finds. -/
structure Returned (ret : Word) (args : List Word) (s t : Listed) : Prop where
  eip : t.eip = ret
  mem : t.mem = args
  esp : t.regs .esp = s.regs .esp + 4
  regs : ∀ r, r ∉ [.eax, .ecx, .edx, .esp] → t.regs r = s.regs r
  eflags : t.eflags = s.eflags &&& 0x00E4FFFF
  segs : t.segs = s.segs
  cr0 : t.cr0 = s.cr0
  cr3 : t.cr3 = s.cr3

section
variable {T : Tables} {code : Code} (ext : Cpu → Cpu → Prop) {lo hi : Nat} {m : Mem} {s : Listed}
  {a p loop q b ret src dst : Word} {ws : List Word}

/-- From `s` to `t` the routine has saved `ebx` and the flags, and changed no other byte. -/
structure Saved (T : Tables) (lo hi : Nat) (m m' : Mem) (s t : Listed) : Prop where
  sim : Sim T lo hi m' t
  mem : t.mem = (s.eflags &&& 0x00FCFFFF) :: s.regs .ebx :: s.mem
  esp : t.regs .esp = s.regs .esp - 8
  regs : ∀ r, r ≠ .esp → t.regs r = s.regs r
  segs : t.segs = s.segs
  cr0 : t.cr0 = s.cr0
  cr3 : t.cr3 = s.cr3
  bytes : ∀ x, (∀ i, i < 8 → s.phys T ((s.regs .esp).toNat - 8 + i) ≠ x) → m' x = m x

theorem saves {is : List Instr}
    (hl : Listing (seen T code s) s.eip (.push (.reg .ebx) :: .pushf :: is) b)
    (h : Sim T lo hi m s) (hr : lo + 8 ≤ (s.regs .esp).toNat) :
    ∃ m' t, X86.Runs T code ext (s.withMem m) [] (t.withMem m') ∧ Saved T lo hi m m' s t ∧
      Listing (seen T code s) t.eip is b := by
  obtain ⟨n1, h1, hl⟩ := hl.head
  obtain ⟨n2, h2, hl⟩ := hl.head
  have hesp : (s.regs .esp - 4).toNat = (s.regs .esp).toNat - 4 := by
    rw [BitVec.toNat_sub_of_le (by rw [BitVec.le_def]; show 4 ≤ _; omega)]
    rfl
  have hesp2 : (s.regs .esp - 4 - 4).toNat = (s.regs .esp).toNat - 8 := by
    rw [BitVec.toNat_sub_of_le (by rw [BitVec.le_def, hesp]; show 4 ≤ _; omega), hesp]
    show _ - 4 - 4 = _
    omega
  have p1 : Follows T lo hi hi _ _ _ :=
    (h.change (t := s.setEip n1) rfl rfl rfl rfl).1.push (s.regs .ebx) (Nat.le_refl _)
      (by show _ ≤ (s.regs .esp).toNat; omega)
  obtain ⟨m1, x1, hs1, -⟩ := p1
  have p2 : Follows T lo hi hi _ _ _ :=
    (hs1.change (t := ((s.setEip n1).pushList (s.regs .ebx)).setEip n2) rfl rfl rfl rfl).1.push
      (s.eflags &&& 0x00FCFFFF) (Nat.le_refl _) (by show _ ≤ (s.regs .esp - 4).toNat; omega)
  obtain ⟨m2, x2, hs2, -⟩ := p2
  refine ⟨m2, _, .step h1 x1 (.step h2 x2 (.refl _)), ⟨hs2, rfl, ?_, ?_, rfl, rfl, rfl,
    fun x hx => ?_⟩, hl⟩
  · show s.regs .esp - 4 - 4 = s.regs .esp - 8
    rw [BitVec.sub_sub]
    rfl
  · intro r hr
    exact (if_neg hr).trans (if_neg hr)
  · refine (push_mem x2 fun i hi => ?_).trans (push_mem x1 fun i hi => ?_)
    · have := hx i (by omega)
      rw [← hesp2] at this
      exact this
    · have := hx (4 + i) (by omega)
      rw [show (s.regs .esp).toNat - 8 + (4 + i) = (s.regs .esp - 4).toNat + i by omega] at this
      exact this

/-- What `leave` does to the stack. -/
theorem leave_list {u : Listed} {f e : Word} {rest : List Word} (hk : u.cpl = 0)
    (hm : u.mem = f :: e :: rest) : ∃ v, onStackAll leave u = some v ∧ v.mem = rest ∧
      v.regs .ebx = e ∧ v.regs .esp = u.regs .esp + 8 ∧
      (∀ r, r ∉ [.ebx, .esp] → v.regs r = u.regs r) ∧ v.eflags = f &&& 0xFFE6FFFF ∧
      v.segs = u.segs ∧ v.cr0 = u.cr0 ∧ v.cr3 = u.cr3 := by
  have hkernel : u.kernelOnly = some u := if_pos hk
  refine ⟨(((u.dropList 1).setFlags (f &&& 0xFFE6FFFF)).dropList 1).setReg .ebx e, ?_, ?_, rfl, ?_,
    fun r hr => ?_, rfl, rfl, rfl, rfl⟩
  · simp [leave, onStackAll, onStack, hkernel, Core.popList, Core.popListTo, hm, Core.dropList]
  · show (u.mem.drop 1).drop 1 = rest
    rw [hm]
    rfl
  · show u.regs .esp + 4 + 4 = u.regs .esp + 8
    rw [BitVec.add_assoc]
    rfl
  · simp only [List.mem_cons, List.not_mem_nil, or_false, not_or] at hr
    simp [Core.dropList, hr]

/-- The part with paging off. -/
theorem copies_off {c : Cpu} (hcount : Listing code c.eip [.mov .edx (.imm 1024)] loop)
    (hbody : Listing code loop (body loop ++ switch) q) (hoff : c.paging = false)
    (hk : c.cpl = 0) (hsrc : c.regs .ebx = src) (hdst : c.regs .ecx = dst)
    (hp : Pages src.toNat dst.toNat) (hs : src.toNat + 4096 ≤ 4294967296)
    (hd : dst.toNat + 4096 ≤ 4294967296) :
    ∃ d, X86.Runs T code ext c [] d ∧ d.eip = q ∧
      (∀ r, r ∉ [.eax, .ebx, .ecx, .edx] → d.regs r = c.regs r) ∧ d.segs = c.segs ∧
      d.cr0 = c.cr0 ||| 0x80000000 ∧ d.cr3 = c.cr3 ∧
      d.mem = copyPagePhysical src.toNat dst.toNat c.mem := by
  obtain ⟨_, h1, hnil⟩ := hcount.head
  cases hnil
  obtain ⟨c1, hc1⟩ : ∃ d, d = (c.setEip loop).setReg .edx 1024 := ⟨_, rfl⟩
  have x1 : exec T (.mov .edx (.imm 1024)) (c.setEip loop) = some c1 := by
    rw [hc1]
    rfl
  have hoff1 : c1.paging = false := by
    rw [hc1]
    exact hoff
  have hstart : Copying src dst c.mem c1 0 c1 := by
    refine ⟨?_, ?_, ?_, ?_, fun _ _ => rfl, rfl, rfl, rfl⟩
    · rw [← hsrc, hc1]
      exact (add_zero _).symm
    · rw [← hdst, hc1]
      exact (add_zero _).symm
    · rw [hc1]
      rfl
    · rw [hc1]
      funext x
      exact (if_neg (by omega)).symm
  obtain ⟨c2, hr2, hc2, hl2⟩ := turns (T := T) ext hbody hoff1 hp hs hd 1023 rfl hstart
    (by rw [hc1]; rfl)
  have hoff2 : c2.paging = false := by
    unfold Core.paging at *
    rw [hc2.cr0, hoff1]
  have hk2 : c2.cpl = 0 := by
    unfold Core.cpl at *
    rw [hc2.segs, hc1]
    exact hk
  obtain ⟨d, hrd, hsw⟩ := switched (T := T) ext hl2 hoff2 hk2
  refine ⟨d, .step ((fetch_off hoff).trans h1) x1 (hr2.trans hrd), hsw.eip, fun r hr => ?_,
    ?_, ?_, ?_, ?_⟩
  · have hne : r ≠ .edx := by
      rintro rfl
      exact hr (by simp)
    rw [hsw.regs r hne, hc2.regs r hr, hc1]
    exact if_neg hne
  · rw [hsw.segs, hc2.segs, hc1]
    rfl
  · rw [hsw.cr0, hc2.cr0, hc1]
    rfl
  · rw [hsw.cr3, hc2.cr3, hc1]
    rfl
  · rw [hsw.mem, hc2.mem]
    rfl

/-- The processor with paging on again: as after `saves`, but for the registers the copy uses. -/
structure Resumed (q : Word) (s t u : Listed) : Prop where
  eip : u.eip = q
  regs : ∀ r, r ∉ [.eax, .ebx, .ecx, .edx] → u.regs r = t.regs r
  segs : u.segs = s.segs
  cr0 : u.cr0 = s.cr0
  cr3 : u.cr3 = s.cr3
  mem : u.mem = t.mem

/-- From the saved registers to paging on again. -/
theorem resumes {m' : Mem} {s2 : Listed} (hsaved : Saved T lo hi m m' s s2)
    (hl1 : Listing (seen T code s) s2.eip (setup ++ [.setCr0 .edx]) p)
    (hl : Linked (seen T code s) code a p loop q b) (hk : s.cpl = 0) (hon : s.paging = true)
    (hm : s.mem = ret :: src :: dst :: ws) (hp : Pages src.toNat dst.toNat)
    (hs : src.toNat + 4096 ≤ 4294967296) (hd : dst.toNat + 4096 ≤ 4294967296) :
    ∃ u, X86.Runs T code ext (s2.withMem m') []
        (u.withMem (copyPagePhysical src.toNat dst.toNat m')) ∧ Resumed q s s2 u := by
  obtain ⟨pre, hsetup, htail⟩ := hl1.append
  obtain ⟨_, hswitch, hnil⟩ := htail.head
  cases hnil
  have hseen : seen T code s2 = seen T code s := seen_congr hsaved.cr0 hsaved.cr3
  have hk2 : s2.cpl = 0 := by
    unfold Core.cpl at *
    rw [hsaved.segs, hk]
  obtain ⟨s3, hlist, hu⟩ := setup_list hk2 (hsaved.mem.trans (by rw [hm]))
  obtain ⟨hrun3, -⟩ := hsaved.sim.quietBlock ext (hseen ▸ hsetup) rfl hlist rfl
  have hseen3 : seen T code s3 = seen T code s := (seen_congr hu.cr0 hu.cr3).trans hseen
  have hk3 : s3.cpl = 0 := by
    unfold Core.cpl at *
    rw [hu.segs, hk2]
  -- paging goes off
  obtain ⟨c4, hc4⟩ : ∃ d, d = { (s3.setEip p).withMem m' with cr0 := s.cr0 &&& 0x7FFFFFFF } :=
    ⟨_, rfl⟩
  have x4 : exec T (.setCr0 .edx) ((s3.setEip p).withMem m') = some c4 := by
    rw [hc4, exec_setCr0 (T := T) (c := (s3.setEip p).withMem m') hk3 .edx]
    show some { (s3.setEip p).withMem m' with cr0 := s3.regs .edx } = _
    rw [hu.edx, hsaved.cr0]
  have hoff4 : c4.paging = false := by
    rw [hc4]
    show (s.cr0 &&& 0x7FFFFFFF).getLsbD 31 = false
    rw [BitVec.getLsbD_and]
    exact Bool.and_false _
  obtain ⟨c5, hrun5, heip, hregs, hsegs, hcr0, hcr3, hmem⟩ :=
    copies_off (T := T) ext (c := c4) (by rw [hc4]; exact hl.count) hl.body hoff4
      (by rw [hc4]; exact hk3) (by rw [hc4]; exact hu.ebx) (by rw [hc4]; exact hu.ecx) hp hs hd
  have hself : c5 = (c5.withMem s3.mem).withMem (copyPagePhysical src.toNat dst.toNat m') := by
    rw [show copyPagePhysical src.toNat dst.toNat m' = c5.mem by rw [hmem, hc4]; rfl]
    rfl
  refine ⟨c5.withMem s3.mem, hself ▸ hrun3.trans (.step ?_ x4 hrun5), heip, fun r hr => ?_,
    hsegs.trans ?_, hcr0.trans ?_, hcr3.trans ?_, hu.mem⟩
  · show seen T code s3 pre.toNat = _
    rw [hseen3]
    exact hswitch
  · refine (hregs r hr).trans ?_
    rw [hc4]
    exact hu.regs r (by simp at hr ⊢; simp [hr])
  · rw [hc4]
    exact hu.segs.trans hsaved.segs
  · rw [hc4]
    exact cr0_back hon
  · rw [hc4]
    exact hu.cr3.trans hsaved.cr3

/-- The way back to the caller. -/
theorem leaves {m₀ m' M : Mem} {s2 u : Listed} (hsaved : Saved T lo hi m₀ m' s s2)
    (hu : Resumed q s s2 u) (hsim : Sim T lo hi M u)
    (hl : Listing (seen T code s) q (leave ++ [.ret]) b) (hk : s.cpl = 0)
    (hm : s.mem = ret :: src :: dst :: ws) :
    ∃ t, X86.Runs T code ext (u.withMem M) [] (t.withMem M) ∧ Sim T lo hi M t ∧
      Returned ret (src :: dst :: ws) s t := by
  obtain ⟨last, hleave, hlast⟩ := hl.append
  obtain ⟨_, hret, -⟩ := hlast.head
  have hseenu : seen T code u = seen T code s := seen_congr hu.cr0 hu.cr3
  obtain ⟨v, hv, hvm, hvb, hve, hvr, hvf, hvs, hv0, hv3⟩ := leave_list (u := u) (by
    unfold Core.cpl at *
    rw [hu.segs, hk]) (hu.mem.trans hsaved.mem)
  obtain ⟨hrunv, hsv⟩ := hsim.quietBlock ext (hseenu ▸ hleave) hu.eip hv rfl
  have hseenv : seen T code (v.setEip last) = seen T code s := (seen_congr hv0 hv3).trans hseenu
  obtain ⟨hrunr, hsr⟩ := hsv.quietRet ext (hvm.trans hm) (by rw [hseenv]; exact hret)
  refine ⟨_, hrunv.trans hrunr, hsr, rfl, ?_, ?_, fun r hr => ?_, ?_, hvs.trans hu.segs,
    hv0.trans hu.cr0, hv3.trans hu.cr3⟩
  · show v.mem.drop 1 = _
    rw [hvm, hm]
    rfl
  · show v.regs .esp + 4 = _
    rw [hve, hu.regs .esp (by decide), hsaved.esp, BitVec.sub_add_cancel]
  · simp only [List.mem_cons, List.not_mem_nil, or_false, not_or] at hr
    refine (if_neg hr.2.2.2).trans ?_
    by_cases hb : r = .ebx
    · rw [hb]
      exact hvb
    · show v.regs r = _
      rw [hvr r (by simp [hb, hr]), hu.regs r (by simp [hb, hr]), hsaved.regs r hr.2.2.2]
  · show v.eflags = _
    rw [hvf, BitVec.and_assoc]
    rfl

/-- **`copy_page_physical`** copies the page, of the memory with the two words it has saved. -/
theorem copy_page_physical_copies (hl : Linked (seen T code s) code a p loop q b)
    (h : Sim T lo hi m s) (he : s.eip = a) (hk : s.cpl = 0) (hon : s.paging = true)
    (hm : s.mem = ret :: src :: dst :: ws) (hr : lo + 8 ≤ (s.regs .esp).toNat)
    (hp : Pages src.toNat dst.toNat) (hs : src.toNat + 4096 ≤ 4294967296)
    (hd : dst.toNat + 4096 ≤ 4294967296)
    (hfree : ∀ x, lo ≤ x → x < hi →
      s.phys T x < dst.toNat ∨ dst.toNat + 4096 ≤ s.phys T x) :
    ∃ m' t, X86.Runs T code ext (s.withMem m) []
        (t.withMem (copyPagePhysical src.toNat dst.toNat m')) ∧
      Sim T lo hi (copyPagePhysical src.toNat dst.toNat m') t ∧
      Returned ret (src :: dst :: ws) s t ∧
      ∀ x, (∀ i, i < 8 → s.phys T ((s.regs .esp).toNat - 8 + i) ≠ x) → m' x = m x := by
  subst he
  obtain ⟨m', s2, hrun, hsaved, hl1⟩ := saves ext hl.enter h hr
  obtain ⟨u, hrunu, hu⟩ := resumes ext hsaved hl1 hl hk hon hm hp hs hd
  -- the page copied to is not the stack's
  have hphys : ∀ x, u.phys T x = s.phys T x := fun x => by
    unfold Core.phys Core.paging
    rw [hu.cr0, hu.cr3]
  have hsu : Sim T lo hi m' u := (hsaved.sim.change (hu.regs .esp (by decide)) hu.mem
    (hu.cr0.trans hsaved.cr0.symm) (hu.cr3.trans hsaved.cr3.symm)).1
  have hsim : Sim T lo hi (copyPagePhysical src.toNat dst.toNat m') u := hsu.other fun x h1 h2 => by
    rw [hphys]
    have := hfree x h1 h2
    exact if_neg (by omega)
  obtain ⟨t, hrunt, hst, ht⟩ := leaves ext hsaved hu hsim hl.leave hk hm
  exact ⟨m', t, hrun.trans (hrunu.trans hrunt), hst, ht, hsaved.bytes⟩

end

/-- A call with the stack at `0x7FF4` and paging on. -/
def called : Listed :=
  ⟨fun r => if r = .esp then 0x7FF4 else 5, fun _ => 0x10, 0x202, 0x80000001, 0x9000, 0x1000,
    [0x4000, 0x5000, 0x6000]⟩

def before : Mem :=
  write32 (write32 (write32 (fun a => if a = 0x5000 then 7 else 0) 0x7FF4 0x4000) 0x7FF8 0x5000)
    0x7FFC 0x6000

theorem linked_placed : Linked (placed 0x1000 (text 0x1009)) (placed 0x1000 (text 0x1009)) 0x1000
    0x1008 0x1009 0x1012 0x1015 := by
  have h1 : text 0x1009 = [] ++ (enter ++
    (.mov .edx (.imm 1024) :: (body 0x1009 ++ switch) ++ (leave ++ [.ret]))) := rfl
  have h2 : text 0x1009 = enter ++ ([.mov .edx (.imm 1024)] ++
    ((body 0x1009 ++ switch) ++ (leave ++ [.ret]))) := rfl
  have h3 : text 0x1009 = (enter ++ [.mov .edx (.imm 1024)]) ++
    ((body 0x1009 ++ switch) ++ (leave ++ [.ret])) := rfl
  have h4 : text 0x1009 = (enter ++ .mov .edx (.imm 1024) :: (body 0x1009 ++ switch)) ++
    ((leave ++ [.ret]) ++ []) := rfl
  constructor
  · rw [h1]
    exact .placed [] _ rfl rfl
  · rw [h2]
    exact .placed enter _ rfl rfl
  · rw [h3]
    refine .placed _ _ ?_ ?_
    · decide
    · decide
  · rw [h4]
    exact .placed (enter ++ .mov .edx (.imm 1024) :: (body 0x1009 ++ switch)) [] rfl rfl

theorem copy_page_physical_called :
    ∃ (t : Listed) (m' : Mem), X86.Runs ⟨fun _ x => x, fun _ => 0⟩ (placed 0x1000 (text 0x1009))
        (fun _ _ => False) (called.withMem before) [] (t.withMem m') ∧
      t.eip = 0x4000 ∧ m' 0x6000 = 7 := by
  generalize hT : (⟨fun _ x => x, fun _ => 0⟩ : Tables) = T
  have hphys : ∀ x, called.phys T x = x := fun x => by
    rw [← hT]
    exact ite_self x
  have hseen : seen T (placed 0x1000 (text 0x1009)) called = placed 0x1000 (text 0x1009) :=
    funext fun x => congrArg _ (hphys x)
  have hl : Linked (seen T (placed 0x1000 (text 0x1009)) called) (placed 0x1000 (text 0x1009)) 0x1000
      0x1008 0x1009 0x1012 0x1015 := by
    rw [hseen]
    exact linked_placed
  have hsim : Sim T 0x7000 0x8000 before called := by
    have hv : (called.withMem before).view T = before :=
      funext fun x => congrArg before (hphys x)
    refine ⟨by decide, by decide, by decide, fun x y _ _ hxy => ?_, ?_⟩
    · rwa [hphys, hphys] at hxy
    · rw [hv]
      exact ⟨by decide, by decide, by decide, trivial⟩
  obtain ⟨m', t, hr, -, ht, hb⟩ := copy_page_physical_copies (fun _ _ => False) hl hsim rfl
    (by decide) (by decide) rfl (by decide) (.inr (.inl (by decide))) (by decide) (by decide)
    fun x h1 _ => by
      rw [hphys]
      refine .inr (le_trans ?_ h1)
      decide
  refine ⟨t, _, hr, ht.eip, ?_⟩
  have h7 : m' 0x5000 = before 0x5000 := hb 0x5000 fun i hi => by
    rw [hphys]
    have : (called.regs .esp).toNat = 0x7FF4 := by decide
    omega
  refine (if_pos (by decide)).trans (h7.trans ?_)
  decide

end CopyPage

end Dmanix
