import Dmanix.Memory.Limits

/-!
# Reading tags back

A header or footer read at the address it was written to, or at one whose word does not overlap
it; and what the field writes of `HeapState` leave alone: the heap object and the paging state
(`toHeap`, `paging`), and the memory outside the tag's word (`Bytes.Off`).
-/

namespace Dmanix

open Word32 Bytes

/-! ## Words -/

theorem Header.ofWord_word (h : Header) :
    Header.ofWord (h.word % 4294967296) = ⟨h.magic % 512, h.isHole, h.size % 4194304⟩ := by
  have hb : h.isHole.toNat < 2 := Bool.toNat_lt _
  unfold Header.ofWord Header.word
  rw [Header.mk.injEq]
  refine ⟨by omega, ?_, by omega⟩
  rw [show (h.magic % 512 + 512 * h.isHole.toNat + 1024 * (h.size % 4194304)) % 4294967296 / 512 % 2 =
    h.isHole.toNat by omega]
  cases h.isHole <;> rfl

theorem Footer.ofWord_word (f : Footer) :
    Footer.ofWord (f.word % 4294967296) = ⟨f.magic % 512, f.size % 4194304, f.padding % 2⟩ := by
  unfold Footer.ofWord Footer.word
  rw [Footer.mk.injEq]
  refine ⟨by omega, by omega, by omega⟩

/-! ## Headers and footers in memory -/

section
variable {m m' : Mem} {a b lo hi : Nat}

theorem header_size_lt (m : Mem) (a : Nat) : (header m a).size < 4194304 :=
  Nat.mod_lt _ (by decide)

theorem header_setHeader (m : Mem) (a : Nat) (h : Header) :
    header (setHeader m a h) a = ⟨h.magic % 512, h.isHole, h.size % 4194304⟩ := by
  rw [header, setHeader, read32_write32, Header.ofWord_word]

theorem footer_setFooter (m : Mem) (a : Nat) (f : Footer) :
    footer (setFooter m a f) a = ⟨f.magic % 512, f.size % 4194304, f.padding % 2⟩ := by
  rw [footer, setFooter, read32_write32, Footer.ofWord_word]

theorem header_off (h : Off lo hi m m') (ha : a + 4 ≤ lo ∨ hi ≤ a) : header m' a = header m a := by
  rw [Dmanix.header, h.read32 ha, ← Dmanix.header]

theorem footer_off (h : Off lo hi m m') (ha : a + 4 ≤ lo ∨ hi ≤ a) : footer m' a = footer m a := by
  rw [Dmanix.footer, h.read32 ha, ← Dmanix.footer]

theorem off_setHeader (m : Mem) (a : Nat) (h : Header) : Off a (a + 4) m (setHeader m a h) :=
  (Off.refl a (a + 4) m).write32 _ (Nat.le_refl _) (Nat.le_refl _)

theorem off_setFooter (m : Mem) (a : Nat) (f : Footer) : Off a (a + 4) m (setFooter m a f) :=
  (Off.refl a (a + 4) m).write32 _ (Nat.le_refl _) (Nat.le_refl _)

theorem header_setHeader_apart {h : Header} (hab : a + 4 ≤ b ∨ b + 4 ≤ a) :
    header (setHeader m a h) b = header m b := header_off (off_setHeader m a h) (by omega)

theorem header_setFooter_apart {f : Footer} (hab : a + 4 ≤ b ∨ b + 4 ≤ a) :
    header (setFooter m a f) b = header m b := header_off (off_setFooter m a f) (by omega)

theorem footer_setHeader_apart {h : Header} (hab : a + 4 ≤ b ∨ b + 4 ≤ a) :
    footer (setHeader m a h) b = footer m b := footer_off (off_setHeader m a h) (by omega)

end

/-! ## Field writes -/

namespace HeapState

variable (s : HeapState) (a v : Nat)

@[simp] theorem toHeap_touch : (s.touch a).toHeap = s.toHeap := by rfl
@[simp] theorem mem_touch : (s.touch a).mem = s.mem := by rfl
@[simp] theorem paging_touch : (s.touch a).paging = s.paging := by rfl
@[simp] theorem stored_touch : (s.touch a).stored = s.stored := by rfl
@[simp] theorem header_touch (b : Nat) : (s.touch b).header a = s.header a := by rfl
@[simp] theorem footer_touch (b : Nat) : (s.touch b).footer a = s.footer a := by rfl

theorem touchAll_cons (as : List Nat) : s.touchAll (a :: as) = (s.touch a).touchAll as := by rfl

@[simp] theorem toHeap_touchAll (as : List Nat) : (s.touchAll as).toHeap = s.toHeap := by
  induction as generalizing s with
  | nil => rfl
  | cons a as ih => rw [touchAll_cons, ih, toHeap_touch]

@[simp] theorem mem_touchAll (as : List Nat) : (s.touchAll as).mem = s.mem := by
  induction as generalizing s with
  | nil => rfl
  | cons a as ih => rw [touchAll_cons, ih, mem_touch]

@[simp] theorem paging_touchAll (as : List Nat) : (s.touchAll as).paging = s.paging := by
  induction as generalizing s with
  | nil => rfl
  | cons a as ih => rw [touchAll_cons, ih, paging_touch]

@[simp] theorem stored_touchAll (as : List Nat) : (s.touchAll as).stored = s.stored := by
  induction as generalizing s with
  | nil => rfl
  | cons a as ih => rw [touchAll_cons, ih, stored_touch]

@[simp] theorem toHeap_storeHeader (h : Header) : (s.storeHeader a h).toHeap = s.toHeap := by rfl
@[simp] theorem mem_storeHeader (h : Header) :
    (s.storeHeader a h).mem = setHeader s.mem a h := by rfl
@[simp] theorem paging_storeHeader (h : Header) : (s.storeHeader a h).paging = s.paging := by rfl
@[simp] theorem stored_storeHeader (h : Header) :
    (s.storeHeader a h).stored = h.size :: s.stored := by rfl

@[simp] theorem toHeap_storeHeaderSize : (s.storeHeaderSize a v).toHeap = s.toHeap := by rfl
@[simp] theorem mem_storeHeaderSize : (s.storeHeaderSize a v).mem =
    setHeader s.mem a { s.header a with size := v } := by rfl
@[simp] theorem paging_storeHeaderSize : (s.storeHeaderSize a v).paging = s.paging := by rfl
@[simp] theorem stored_storeHeaderSize : (s.storeHeaderSize a v).stored = v :: s.stored := by rfl

@[simp] theorem toHeap_storeHeaderHole (b : Bool) : (s.storeHeaderHole a b).toHeap = s.toHeap := by rfl
@[simp] theorem mem_storeHeaderHole (b : Bool) : (s.storeHeaderHole a b).mem =
    setHeader s.mem a { s.header a with isHole := b } := by rfl
@[simp] theorem paging_storeHeaderHole (b : Bool) :
    (s.storeHeaderHole a b).paging = s.paging := by rfl
@[simp] theorem stored_storeHeaderHole (b : Bool) :
    (s.storeHeaderHole a b).stored = s.stored := by rfl

@[simp] theorem toHeap_storeFooterMagic : (s.storeFooterMagic a).toHeap = s.toHeap := by rfl
@[simp] theorem mem_storeFooterMagic : (s.storeFooterMagic a).mem =
    setFooter s.mem a { s.footer a with magic := 0x1FF } := by rfl
@[simp] theorem paging_storeFooterMagic : (s.storeFooterMagic a).paging = s.paging := by rfl
@[simp] theorem stored_storeFooterMagic : (s.storeFooterMagic a).stored = s.stored := by rfl

@[simp] theorem toHeap_storeFooterSize : (s.storeFooterSize a v).toHeap = s.toHeap := by rfl
@[simp] theorem mem_storeFooterSize : (s.storeFooterSize a v).mem =
    setFooter s.mem a { s.footer a with size := v } := by rfl
@[simp] theorem paging_storeFooterSize : (s.storeFooterSize a v).paging = s.paging := by rfl
@[simp] theorem stored_storeFooterSize : (s.storeFooterSize a v).stored = v :: s.stored := by rfl

@[simp] theorem toHeap_sealFooter (f h : Nat) : (s.sealFooter f h).toHeap = s.toHeap := by rfl
@[simp] theorem paging_sealFooter (f h : Nat) : (s.sealFooter f h).paging = s.paging := by rfl

/-- Sealing a footer apart from the header copies the header's size. -/
theorem sealFooter_apart {f h : Nat} (hfh : f + 4 ≤ h ∨ h + 4 ≤ f) :
    (s.sealFooter f h).stored = (s.header h).size :: s.stored ∧
      Off f (f + 4) s.mem (s.sealFooter f h).mem ∧
      ((s.sealFooter f h).footer f).magic = 0x1FF ∧
      ((s.sealFooter f h).footer f).size = (s.header h).size := by
  have hh : (s.storeFooterMagic f).header h = s.header h := header_setFooter_apart hfh
  refine ⟨?_, (off_setFooter _ _ _).trans (off_setFooter _ _ _), ?_, ?_⟩
  · show ((s.storeFooterMagic f).header h).size :: s.stored = _
    rw [hh]
  · show (Dmanix.footer (setFooter _ f _) f).magic = 0x1FF
    rw [footer_setFooter]
    show (Dmanix.footer (setFooter _ f _) f).magic % 512 = 0x1FF
    rw [footer_setFooter]
    rfl
  · show (Dmanix.footer (setFooter _ f _) f).size = _
    rw [footer_setFooter]
    show ((s.storeFooterMagic f).header h).size % 4194304 = _
    rw [hh]
    exact Nat.mod_eq_of_lt (header_size_lt _ _)

/-- A size below `2 ^ 22` is read back as stored. -/
theorem header_storeHeaderSize (hv : v < 4194304) :
    (s.storeHeaderSize a v).header a = { s.header a with size := v } := by
  show Dmanix.header (setHeader s.mem a _) a = _
  have hm : (s.header a).magic % 512 = (s.header a).magic :=
    Nat.mod_eq_of_lt (Nat.mod_lt _ (by decide))
  rw [header_setHeader, Nat.mod_eq_of_lt hv]
  exact congrArg (fun k => (⟨k, (s.header a).isHole, v⟩ : Header)) hm

theorem footer_storeFooterSize (hv : v < 4194304) :
    ((s.storeFooterSize a v).footer a).magic = (s.footer a).magic ∧
      ((s.storeFooterSize a v).footer a).size = v := by
  show (Dmanix.footer (setFooter s.mem a _) a).magic = _ ∧
    (Dmanix.footer (setFooter s.mem a _) a).size = _
  rw [footer_setFooter]
  exact ⟨Nat.mod_eq_of_lt (Nat.mod_lt _ (by decide)), Nat.mod_eq_of_lt hv⟩

theorem footer_storeFooterMagic : ((s.storeFooterMagic a).footer a).magic = 0x1FF ∧
    ((s.storeFooterMagic a).footer a).size = (s.footer a).size := by
  show (Dmanix.footer (setFooter s.mem a _) a).magic = _ ∧
    (Dmanix.footer (setFooter s.mem a _) a).size = _
  rw [footer_setFooter]
  exact ⟨rfl, Nat.mod_eq_of_lt (Nat.mod_lt _ (by decide))⟩

/-! ## The index -/

theorem lift_ok {α : Type} {s : HeapState} {x : Except Halt α} {b : α} :
    s.lift x = .ok b ↔ x = .ok b := by
  cases x <;> simp [lift, Except.mapError]

theorem assert_ok {s : HeapState} {b : Bool} {msg : String} :
    s.assert b msg = .ok () ↔ b = true := lift_ok.trans Dmanix.assert_ok

theorem assert_true (s : HeapState) (msg : String) : s.assert true msg = .ok () := by rfl

/-- The index order: by the sizes in memory. -/
abbrev SizeLe (m : Mem) (x y : Nat) : Prop := (Dmanix.header m x).size ≤ (Dmanix.header m y).size

/-- `Insert` into the index: ordered insertion by the sizes in memory. -/
theorem indexInsert_eq {s : HeapState} (h : Nat) (hs : s.index.size < s.index.capacity) :
    ∃ idx : OrderedArray Nat, idx.items = s.index.items.orderedInsert (SizeLe s.mem) h ∧
      idx.capacity = s.index.capacity ∧ idx.size = s.index.size + 1 ∧
      s.indexInsert h = if s.index.size + 1 < s.index.capacity
        then .ok { s.touchAll (s.compared h) with index := idx }
        else .error ⟨.panic "size < capacity", s.touchAll (s.compared h)⟩ := by
  obtain ⟨idx, hi, hc, hz, he⟩ := OrderedArray.insert_items (headerLessThan s.mem) h hs
  refine ⟨idx, hi.trans ?_, hc, hz, ?_⟩
  · congr 1
    funext x y
    simp [headerLessThan]
  · unfold indexInsert
    simp only [toHeap_touchAll, mem_touchAll, he]
    split <;> rfl

/-- `Remove` from the index. -/
theorem indexRemove_eq {s : HeapState} {i : Nat} (hi : i < s.index.size)
    (hs : s.index.size < s.index.capacity) (hc : s.index.capacity ≤ 0x20000) :
    ∃ idx : OrderedArray Nat, idx.items = s.index.items.eraseIdx i ∧
      idx.capacity = s.index.capacity ∧ idx.size = s.index.size - 1 ∧
      s.indexRemove i = .ok { s with index := idx } := by
  obtain ⟨idx, he, hit, hca, hz⟩ := OrderedArray.remove_items hi hs (by omega)
  exact ⟨idx, hit, hca, hz, by rw [indexRemove, he]; rfl⟩

end HeapState

end Dmanix
