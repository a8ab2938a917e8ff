import Dmanix.Memory.Kalloc
import Dmanix.Memory.Virtual

/-!
# Moving the stack (`src/process/task.cc`)

`moveStack` gives the pages of the new region frames, copies the bytes from the stack pointer up to
`stack` to the top of the new stack, and then adds the distance to every word of the new region that
looks like an address in the old stack. Where an address has no page after the first loop, `PageFault`
panics; `Mem` is what the addresses with a page hold then.

A chain of frames is followed from frame pointer to saved frame pointer (`Chain`); in the new stack it
visits the same frames, each shifted (`Chain.moves`).
-/

namespace Dmanix

open Bytes Word32 Outcome Machine

namespace MoveStack

/-- `memory::copy8(dest, src, n)` over the pages of `M` -/
def copy8 (M : Kernel) (dest src n : Nat) (m : Mem) : Except Halt Mem := do
  assert (dest ≠ 0) "dest != NULL"
  assert (src ≠ 0) "src != NULL"
  upTo (fun i m => do
    let _ ← M.resolve (add32 src i)
    let _ ← M.resolve (add32 dest i)
    return Function.update m (add32 dest i) (m (add32 src i))) n m

/-- The word at `i`, whose bytes may go round the address space. -/
def loadWord (m : Mem) (i : Nat) : Nat := read32 (fun k => m (add32 i k)) 0

/-- The word `w` is stored at `i`. -/
def storeWord (m : Mem) (i w : Nat) : Mem := fill m i (fun k => UInt8.ofNat (w / 256 ^ k)) 4

/-- A word that is an address strictly inside the old stack is one in the new stack. -/
def remap (esp stack offset tmp : Nat) : Nat :=
  if esp < tmp ∧ tmp < stack then add32 tmp offset else tmp

/-- The four bytes of the word at `i` are accessed. -/
def accessWord (M : Kernel) (i : Nat) : Except Halt Unit :=
  upTo (fun k _ => do
    let _ ← M.resolve (add32 i k)
    return ()) 4 ()

/-- The word at `i` of the new stack after the scan's body. -/
def scanWord (esp stack offset i : Nat) (m : Mem) : Mem :=
  let tmp := loadWord m i
  if esp < tmp ∧ tmp < stack then storeWord m i (add32 tmp offset) else m

/-- The scan of the new stack from `newStack` down over the pages of `M`, granted `words`. -/
def scan (M : Kernel) (words newStack size esp stack offset : Nat) (m : Mem) : Except Halt Mem :=
  loop Halt.hang (fun i _ => decide (i ≥ sub32 newStack size)) (fun i => sub32 i 4)
    (fun i m => do
      accessWord M i
      return scanWord esp stack offset i m) words newStack m

/-- `MoveStack(new_stack, size)`, called with the registers `esp` and `ebp`: also the new values of
the registers. The heap and the loop over pages are granted `rounds`. -/
def moveStack (rounds : Nat) (fresh : Mem) (words newStack size stack esp ebp : Nat) (M : Kernel)
    (m : Mem) : Except Halt (Kernel × Mem × Nat × Nat) := do
  let M ← M.moveStack (Kernel.kallocPa rounds fresh) rounds newStack size
  let offset := sub32 newStack stack
  let newStackPtr := add32 esp offset
  let newBasePtr := add32 ebp offset
  let m ← copy8 M newStackPtr esp (sub32 stack esp) m
  let m ← scan M words newStack size esp stack offset m
  return (M, m, newStackPtr, newBasePtr)

/-! ## Accesses -/

variable {M : Kernel} {m m' : Mem}

theorem copy8_ok {dest src n : Nat} (h : copy8 M dest src n m = .ok m') : m' = copy m dest src n := by
  obtain ⟨_, -, h⟩ := bind_ok.1 h
  obtain ⟨_, -, h⟩ := bind_ok.1 h
  refine upTo_ok (I := fun i t => t = copy m dest src i) h rfl fun i t u _ _ ht hb => ?_
  obtain ⟨_, -, hb⟩ := bind_ok.1 hb
  obtain ⟨_, -, hb⟩ := bind_ok.1 hb
  cases hb
  rw [ht, copy]

theorem copy8_returns {dest src n : Nat} (hd : dest ≠ 0) (hs : src ≠ 0)
    (hps : ∀ i < n, ∃ p, M.resolve (add32 src i) = .ok p)
    (hpd : ∀ i < n, ∃ p, M.resolve (add32 dest i) = .ok p) :
    copy8 M dest src n m = .ok (copy m dest src n) := by
  unfold copy8
  rw [decide_eq_true hd, decide_eq_true hs, assert_true, ok_bind, assert_true, ok_bind]
  induction n with
  | zero => rfl
  | succ n ih =>
    obtain ⟨p, hp⟩ := hps n (Nat.lt_succ_self n)
    obtain ⟨q, hq⟩ := hpd n (Nat.lt_succ_self n)
    rw [upTo, ih (fun i hi => hps i (Nat.lt_succ_of_lt hi)) fun i hi => hpd i (Nat.lt_succ_of_lt hi),
      ok_bind, hp, ok_bind, hq, ok_bind]
    rfl

theorem accessWord_returns {i : Nat} (hp : ∀ k < 4, ∃ p, M.resolve (add32 i k) = .ok p) :
    accessWord M i = .ok () := by
  have h : ∀ n ≤ 4, upTo (fun k _ => do
      let _ ← M.resolve (add32 i k)
      return ()) n () = .ok () := by
    intro n hn
    induction n with
    | zero => rfl
    | succ n ih =>
      obtain ⟨p, hp'⟩ := hp n (by omega)
      rw [upTo, ih (by omega), ok_bind, hp', ok_bind]
      rfl
  exact h 4 (Nat.le_refl 4)

theorem loadWord_eq {i : Nat} (h : i + 4 ≤ 4294967296) : loadWord m i = read32 m i :=
  read32_shift fun k hk => by
    rw [Nat.zero_add]
    exact congrArg m (add32_eq (by omega))

/-- The bytes of a word that lie apart from another. -/
theorem storeWord_apart {i w a : Nat} (h : ∀ k < 4, add32 i k < a ∨ a + 4 ≤ add32 i k) :
    read32 (storeWord m i w) a = read32 m a :=
  read32_congr fun x hl hh => fill_outside fun k hk => by
    have := h k hk
    omega

theorem storeWord_same {i w : Nat} (h : i + 4 ≤ 4294967296) :
    read32 (storeWord m i w) i = w % 4294967296 := by
  have hb : ∀ k, k < 4 → storeWord m i w (i + k) = UInt8.ofNat (w / 256 ^ k) := fun k hk => by
    rw [← add32_eq (a := i) (b := k) (by omega)]
    exact fill_inside (by decide) hk
  rw [← read32_write32 m i w]
  refine read32_congr fun x hl hh => ?_
  obtain ⟨k, rfl⟩ : ∃ k, x = i + k := ⟨x - i, by omega⟩
  rw [hb k (by omega), Bytes.write32, if_pos ⟨hl, hh⟩, Nat.add_sub_cancel_left]

/-! ## Chains of frames -/

/-- `f` is a word position strictly inside the stack from `lo` to `hi`. -/
def Frame (lo hi f : Nat) : Prop := lo < f ∧ f < hi ∧ (hi - f) % 4 = 0

/-- The chain of saved frame pointers from `f` visits the frames `fs`, and leads to `e`. -/
inductive Chain (m : Mem) (lo hi : Nat) : Nat → List Nat → Nat → Prop
  | frame {f : Nat} : Frame lo hi f → Chain m lo hi f [f] (read32 m f)
  | caller {f e : Nat} {fs : List Nat} : Frame lo hi f → Chain m lo hi (read32 m f) fs e →
      Chain m lo hi f (f :: fs) e

/-- A stack of whole words, and a region apart from it with room for it. -/
structure Stacks (newStack size stack esp : Nat) : Prop where
  newStack_lt : newStack < 4294967296
  size_le : size ≤ newStack
  stack_lt : stack < 4294967296
  esp_le : esp ≤ stack
  words : (stack - esp) % 4 = 0
  room : stack - esp ≤ size
  apart : stack ≤ newStack - size ∨ newStack ≤ esp

section
variable {newStack size stack esp ebp : Nat}

namespace Stacks

/-- A word of the old stack, `d` below its top, goes to the word `d` below the top of the new. -/
theorem moved (h : Stacks newStack size stack esp) {f : Nat} (hl : esp ≤ f) (hh : f ≤ stack) :
    add32 f (sub32 newStack stack) = newStack - (stack - f) := by
  obtain ⟨h1, h2, h3, h4, -, h6, -⟩ := h
  unfold add32 sub32
  omega

theorem copied (h : Stacks newStack size stack esp) (m : Mem) {k : Nat} (hk : k < stack - esp) :
    copy m (add32 esp (sub32 newStack stack)) esp (sub32 stack esp)
      (newStack - (stack - esp) + k) = m (esp + k) := by
  have hmoved := h.moved (Nat.le_refl esp) h.esp_le
  have hsize := sub32_eq h.esp_le h.stack_lt
  obtain ⟨h1, h2, h3, h4, -, h6, h7⟩ := h
  rw [hmoved, hsize]
  have hs : ∀ i, i < stack - esp → add32 esp i = esp + i := fun i hi => add32_eq (by omega)
  have hd : ∀ i, i < stack - esp →
      add32 (newStack - (stack - esp)) i = newStack - (stack - esp) + i :=
    fun i hi => add32_eq (by omega)
  rw [copy_eq_fill fun i j hi hj => by rw [hs i hi, hd j hj]; omega, ← hd k hk,
    fill_inside (by omega) hk, hs k hk]

theorem copied_word (h : Stacks newStack size stack esp) (m : Mem) {f : Nat} (hl : esp ≤ f)
    (hh : f + 4 ≤ stack) :
    read32 (copy m (add32 esp (sub32 newStack stack)) esp (sub32 stack esp))
      (newStack - (stack - f)) = read32 m f := by
  have hroom := h.room
  have hsize := h.size_le
  refine read32_shift fun k hk => ?_
  have hcopy := h.copied m (k := f - esp + k) (by omega)
  rwa [show newStack - (stack - esp) + (f - esp + k) = newStack - (stack - f) + k by omega,
    show esp + (f - esp + k) = f + k by omega] at hcopy

end Stacks

/-! ## The scan -/

/-- The words of the region, counted from its top. -/
def WordOf (newStack a : Nat) : Prop := a ≤ newStack ∧ (newStack - a) % 4 = 0

/-- The words above `i` are remapped, the others are as they were. The word at the top may go round the
address space. -/
structure Scanned (newStack esp stack offset : Nat) (m : Mem) (i : Nat) (t : Mem) : Prop where
  word : WordOf newStack i
  done : ∀ a, WordOf newStack a → 4 ≤ a → a < newStack → i < a →
    read32 t a = remap esp stack offset (read32 m a)
  todo : ∀ a, WordOf newStack a → 4 ≤ a → a < newStack → a ≤ i → read32 t a = read32 m a

theorem scanWord_same (esp stack offset : Nat) {i : Nat} (m : Mem) (hi : i + 4 ≤ 4294967296) :
    read32 (scanWord esp stack offset i m) i = remap esp stack offset (read32 m i) := by
  unfold scanWord remap
  rw [loadWord_eq hi]
  dsimp only
  split
  · rw [storeWord_same hi, Nat.mod_eq_of_lt (add32_lt _ _)]
  · rfl

theorem scanWord_apart {esp stack offset i a : Nat} {m : Mem}
    (h : ∀ k < 4, add32 i k < a ∨ a + 4 ≤ add32 i k) :
    read32 (scanWord esp stack offset i m) a = read32 m a := by
  unfold scanWord
  dsimp only
  split
  · exact storeWord_apart h
  · rfl

variable {offset : Nat}

theorem Scanned.next {i : Nat} {t : Mem} (h : Scanned newStack esp stack offset m i t)
    (hlt : newStack < 4294967296) (hi : 4 ≤ i) :
    Scanned newStack esp stack offset m (sub32 i 4) (scanWord esp stack offset i t) := by
  obtain ⟨⟨hle, hmod⟩, hdone, htodo⟩ := h
  have hsub : sub32 i 4 = i - 4 := sub32_eq hi (by omega)
  -- the other words below the top have no byte in common with this one
  have hap : ∀ a, WordOf newStack a → 4 ≤ a → a < newStack → a ≠ i →
      ∀ k < 4, add32 i k < a ∨ a + 4 ≤ add32 i k := by
    rintro a ⟨ha1, ha2⟩ ha4 hlt' hne k hk
    unfold add32
    omega
  rw [hsub]
  refine ⟨⟨by omega, by omega⟩, fun a ha ha4 hat hia => ?_, fun a ha ha4 hat hai => ?_⟩
  · by_cases hai : a = i
    · subst hai
      obtain ⟨ha1, ha2⟩ := id ha
      rw [scanWord_same _ _ _ _ (by omega), htodo a ha ha4 hat (Nat.le_refl a)]
    · obtain ⟨ha1, ha2⟩ := id ha
      rw [scanWord_apart (hap a ha ha4 hat hai), hdone a ha ha4 hat (by omega)]
  · obtain ⟨ha1, ha2⟩ := id ha
    rw [scanWord_apart (hap a ha ha4 hat (by omega)), htodo a ha ha4 hat (by omega)]

theorem scanRound_ok {i : Nat} {t u : Mem} (h : (do
    accessWord M i
    return scanWord esp stack offset i t) = Except.ok u) : u = scanWord esp stack offset i t := by
  obtain ⟨_, -, h⟩ := bind_ok.1 h
  cases h
  rfl

/-- Every round of the scan keeps the invariant, and is not the last word of memory. -/
theorem scan_round (hlt : newStack < 4294967296) (hbottom : newStack % 4 + size < newStack)
    {i : Nat} {t : Mem} (h : Scanned newStack esp stack offset m i t)
    (hi : decide (i ≥ sub32 newStack size) = true) : 4 ≤ i := by
  obtain ⟨⟨hle, hmod⟩, -, -⟩ := h
  have hlo := of_decide_eq_true hi
  rw [sub32_eq (by omega) hlt] at hlo
  omega

/-- A scan that ends does not reach the first word of memory. -/
theorem scan_bottom {words : Nat} (hlt : newStack < 4294967296) (hsize : size ≤ newStack)
    (h : scan M words newStack size esp stack offset m = .ok m') : newStack % 4 + size < newStack := by
  obtain ⟨i, hi, htest⟩ := @loop_ok _ _ _ _ _ _ (fun i _ => i % 4 = newStack % 4) _ _ _ _ h rfl
    fun j t u _ hj _ => by
      unfold sub32
      omega
  have hlo := of_decide_eq_false htest
  rw [sub32_eq hsize hlt] at hlo
  omega

theorem scanned_start : Scanned newStack esp stack offset m newStack m where
  word := ⟨Nat.le_refl _, by rw [Nat.sub_self]⟩
  done a _ _ hat hlt := absurd hat (by omega)
  todo _ _ _ _ _ := rfl

theorem scan_ok {words : Nat} (hlt : newStack < 4294967296) (hsize : size ≤ newStack)
    (h : scan M words newStack size esp stack offset m = .ok m') {a : Nat}
    (ha : WordOf newStack a) (hlo : newStack - size ≤ a) (hat : a < newStack) :
    read32 m' a = remap esp stack offset (read32 m a) := by
  have hbottom := scan_bottom hlt hsize h
  obtain ⟨i, hs, htest⟩ := @loop_ok _ _ _ _ _ _ (Scanned newStack esp stack offset m) _ _ _ _ h
    scanned_start fun j t u he hj hu => by
      rw [scanRound_ok hu]
      exact hj.next hlt (scan_round hlt hbottom hj he.test_eq)
  have hi := of_decide_eq_false htest
  rw [sub32_eq hsize hlt] at hi
  obtain ⟨ha1, ha2⟩ := id ha
  exact hs.done a ha (by omega) hat (by omega)

/-- The scan of a region above the first word of memory ends, where its words have pages. -/
theorem scan_returns (hlt : newStack < 4294967296) (hbottom : newStack % 4 + size < newStack)
    (hp : ∀ i, newStack - size ≤ i → WordOf newStack i →
      ∀ k < 4, ∃ p, M.resolve (add32 i k) = .ok p) :
    ∃ words m', scan M words newStack size esp stack offset m = .ok m' := by
  refine loop_returns Halt.hang id newStack newStack m (Nat.le_refl _) fun j t he => ?_
  have hinv := he.invariant (I := Scanned newStack esp stack offset m) scanned_start
    fun j t u he hj hu => by
      rw [scanRound_ok hu]
      exact hj.next hlt (scan_round hlt hbottom hj he.test_eq)
  have h4 := scan_round hlt hbottom hinv he.test_eq
  have hj := hinv.word.1
  have hlo : sub32 newStack size ≤ j := of_decide_eq_true he.test_eq
  rw [sub32_eq (by omega) hlt] at hlo
  refine ⟨⟨scanWord esp stack offset j t, ?_⟩, ?_⟩
  · rw [accessWord_returns (hp j hlo hinv.word), ok_bind]
    rfl
  · rw [id, id, sub32_eq h4 (by omega)]
    omega

/-! ## The new stack -/

/-- A word of the old stack, in the new stack. -/
theorem moveStack_word (h : Stacks newStack size stack esp) {rounds words esp' ebp' : Nat} {fresh : Mem}
    {M' : Kernel} (hm : moveStack rounds fresh words newStack size stack esp ebp M m =
      .ok (M', m', esp', ebp')) {f : Nat}
    (hl : esp ≤ f) (hh : f + 4 ≤ stack) (hw : (stack - f) % 4 = 0) :
    read32 m' (newStack - (stack - f)) =
      remap esp stack (sub32 newStack stack) (read32 m f) := by
  obtain ⟨M₁, -, hm⟩ := bind_ok.1 hm
  obtain ⟨m1, hc, hm⟩ := bind_ok.1 hm
  obtain ⟨m2, hs, hm⟩ := bind_ok.1 hm
  cases hm
  cases copy8_ok hc
  have hroom := h.room
  have hsize := h.size_le
  rw [scan_ok h.newStack_lt h.size_le hs ⟨by omega, by omega⟩ (by omega) (by omega),
    h.copied_word m hl hh]

/-- The frames of a chain, shifted, are a chain of the new stack. -/
theorem Chain.moves (h : Stacks newStack size stack esp) {rounds words esp' ebp' : Nat} {fresh : Mem}
    {M' : Kernel} (hm : moveStack rounds fresh words newStack size stack esp ebp M m =
      .ok (M', m', esp', ebp')) {f e : Nat} {fs : List Nat} (hc : Chain m esp stack f fs e) :
    Chain m' (newStack - (stack - esp)) newStack (add32 f (sub32 newStack stack))
      (fs.map fun f => add32 f (sub32 newStack stack))
      (remap esp stack (sub32 newStack stack) e) := by
  have hframe : ∀ {f}, Frame esp stack f →
      Frame (newStack - (stack - esp)) newStack (add32 f (sub32 newStack stack)) ∧
      read32 m' (add32 f (sub32 newStack stack)) =
        remap esp stack (sub32 newStack stack) (read32 m f) := by
    rintro f ⟨hl, hh, hw⟩
    have hroom := h.room
    have hsize := h.size_le
    rw [h.moved hl.le hh.le]
    refine ⟨⟨by omega, by omega, by omega⟩, ?_⟩
    exact moveStack_word h hm hl.le (by omega) hw
  induction hc with
  | frame hf =>
    obtain ⟨hf', hr⟩ := hframe hf
    rw [← hr]
    exact .frame hf'
  | @caller f e fs hf hc ih =>
    obtain ⟨hf', hr⟩ := hframe hf
    -- the next member lies inside the old stack, so its address is remapped
    have hin : esp < read32 m f ∧ read32 m f < stack := by
      cases hc with
      | frame hf => exact ⟨hf.1, hf.2.1⟩
      | caller hf _ => exact ⟨hf.1, hf.2.1⟩
    rw [remap, if_pos hin] at hr
    refine .caller hf' ?_
    rw [hr]
    exact ih

theorem Chain.isFrame {lo hi f e : Nat} {fs : List Nat} (h : Chain m lo hi f fs e) :
    ∀ g ∈ fs, Frame lo hi g := by
  induction h with
  | frame hf =>
    intro g hg
    rw [List.mem_singleton.1 hg]
    exact hf
  | caller hf _ ih => exact List.forall_mem_cons.2 ⟨hf, ih⟩

end

end MoveStack

end Dmanix
