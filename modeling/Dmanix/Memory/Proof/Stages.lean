import Dmanix.Memory.Proof.Layout

/-!
# The stages of `Free`

Each stage of `Free` as the stores and index calls it makes: the checks and the hole mark
(`coalesce_eq`), the left neighbour (`coalesceLeft_some`, `coalesceLeft_none`), the right neighbour
(`coalesceRight_some`, `coalesceRight_none`) and the contraction (`shrink_eq`), which shrinks the
heap to `HEAP_MIN_SIZE` bytes.
-/

namespace Dmanix

open Word32 Bytes

namespace HeapState

variable {s : HeapState} {a f x y k n m : Nat}

/-- The block at `a`, its footer at `f`, marked a hole. -/
def marked (s : HeapState) (a f : Nat) : HeapState :=
  ((s.touch a).touch f).storeHeaderHole a true

theorem marked_def (s : HeapState) (a f : Nat) :
    s.marked a f = ((s.touch a).touch f).storeHeaderHole a true := by rfl

@[simp] theorem mem_marked (s : HeapState) (a f : Nat) :
    (s.marked a f).mem = setHeader s.mem a { s.header a with isHole := true } := by rfl

theorem coalesce_eq {p : Nat} (hp : p = a + 4) (hh : s.header a = ⟨0x1FF, false, n⟩) (h8 : 8 ≤ n)
    (hf : f = a + n - 4) (h32 : a + n < 4294967296) (hmag : (s.footer f).magic = 0x1FF)
    (hsz : (s.footer f).size = n) : s.coalesce p = (do
      let (v, footer) ← ((s.marked a f).coalesceLeft a f).1.coalesceRight
        ((s.marked a f).coalesceLeft a f).2.1 f
      return (v, ((s.marked a f).coalesceLeft a f).2.1, footer, add32 f 4,
        ((s.marked a f).coalesceLeft a f).2.2)) := by
  have ha : sub32 p 4 = a := by rw [hp, sub32_eq (by omega) (by omega)]; omega
  have hft : sub32 (add32 a n) 4 = f := by rw [hf, add32_eq h32, sub32_eq (by omega) h32]
  unfold coalesce
  simp only [ha, header_touch, footer_touch, hh, hft, hmag, hsz, decide_true, assert_true, ok_bind,
    ← marked_def]

/-! ## The left neighbour -/

theorem coalesceLeft_some (hx : s.holeBefore a = some x) : s.coalesceLeft a f =
    (let u := ((s.touch (sub32 a 4)).touch x).touch a
     let v := u.storeHeaderSize x (add32 (s.header x).size (s.header a).size)
     (v.storeFooterSize f (v.header x).size, x, false)) := by
  unfold holeBefore at hx
  simp only at hx
  split at hx
  · rename_i h
    cases hx
    unfold coalesceLeft
    simp only [footer_touch, header_touch]
    rw [if_pos h.1, if_pos h.2]
  · cases hx

theorem coalesceLeft_none (hx : s.holeBefore a = none) : s.coalesceLeft a f =
    (if (s.footer (sub32 a 4)).magic = 0x1FF
      then (s.touch (sub32 a 4)).touch (sub32 a (s.footer (sub32 a 4)).size)
      else s.touch (sub32 a 4), a, true) := by
  unfold holeBefore at hx
  simp only at hx
  split at hx
  · cases hx
  · rename_i h
    unfold coalesceLeft
    simp only [footer_touch, header_touch]
    by_cases hmag : (s.footer (sub32 a 4)).magic = 0x1FF
    · have hhole : ¬ (s.header (sub32 a (s.footer (sub32 a 4)).size)).isHole = true :=
        fun hhole => h ⟨hmag, hhole⟩
      simp only [hmag, hhole, if_true, Bool.false_eq_true, if_false]
    · simp only [hmag, if_false]

/-! ## The right neighbour -/

@[simp] theorem toHeap_mergeRight (s : HeapState) (x y : Nat) :
    (s.mergeRight x y).1.toHeap = s.toHeap := by
  unfold mergeRight
  simp only [toHeap_storeFooterSize, toHeap_touch, toHeap_storeHeaderSize]

/-- A hole to the right is taken in and leaves the index. -/
theorem coalesceRight_some (hf : add32 f 4 = y) (hh : s.holeAt y = true)
    (hy : y ∈ s.index.items) : s.coalesceRight x f = (do
      let v ← ((s.touch y).mergeRight x y).1.indexRemove (s.index.items.findIdx (· == y))
      return (v, ((s.touch y).mergeRight x y).2)) := by
  have hlt : s.index.items.findIdx (· == y) < s.index.size := by
    rw [← OrderedArray.length_items]
    exact List.findIdx_lt_length.2 ⟨y, hy, beq_self_eq_true y⟩
  unfold holeAt at hh
  unfold coalesceRight
  simp only [hf, header_touch, hh, if_true, toHeap_mergeRight, toHeap_touch, hlt, decide_true,
    assert_true, ok_bind]

/-- A hole to the right that the index does not list stops `Free`. -/
theorem coalesceRight_stop (hf : add32 f 4 = y) (hh : s.holeAt y = true)
    (hy : y ∉ s.index.items) : ∃ e, s.coalesceRight x f = .error e := by
  have hnone : s.index.items.findIdx (· == y) = s.index.items.length :=
    List.findIdx_eq_length.2 fun z hz => beq_false_of_ne fun h => hy (h ▸ hz)
  unfold holeAt at hh
  unfold coalesceRight
  simp only [hf, header_touch, hh, if_true, toHeap_mergeRight, toHeap_touch, hnone,
    OrderedArray.length_items, Nat.lt_irrefl, decide_false]
  exact ⟨_, rfl⟩

theorem coalesceRight_none (hf : add32 f 4 = y) (hh : s.holeAt y = false) :
    s.coalesceRight x f = .ok (s.touch y, f) := by
  unfold holeAt at hh
  unfold coalesceRight
  simp only [hf, header_touch, hh, Bool.false_eq_true, if_false]
  rfl

/-! ## The contraction -/

/-- A new size below `HEAP_MIN_SIZE` is `HEAP_MIN_SIZE`. -/
theorem contractSize_eq (hn : n < 0x70000) : contractSize n = 0x70000 := by
  have h := and_page n
  unfold contractSize
  rw [h]
  have h2 : n / 4096 % 2 < 2 := Nat.mod_lt _ (by decide)
  by_cases h0 : n / 4096 % 2 = 0
  · rw [h0]
    simp only [Nat.zero_mul, ne_eq, not_true_eq_false, if_false, if_pos hn]
  · rw [if_pos (show n / 4096 % 2 * 4096 ≠ 0 by omega), show n / 4096 % 2 = 1 by omega]
    rfl

@[simp] theorem header_moveEnd (P : Paging) (e a : Nat) :
    (s.moveEnd P e).header a = s.header a := by rfl

theorem contract_eq (hn : n < 0x70000) (hle : s.startAddress + 0x70000 ≤ s.endAddress)
    (htop : s.endAddress < 4294967296) : s.contract n = (do
      let paging ← s.lift (contractPages s.startAddress 0x70000 0x100001
        (s.endAddress - s.startAddress - 0x1000) s.paging)
      return (0x70000, s.moveEnd paging (s.startAddress + 0x70000))) := by
  have hlen : sub32 s.endAddress s.startAddress = s.endAddress - s.startAddress :=
    sub32_eq (by omega) htop
  have hlt : n < s.endAddress - s.startAddress := by omega
  have hold : sub32 (s.endAddress - s.startAddress) 0x1000 = s.endAddress - s.startAddress - 0x1000 :=
    sub32_eq (by omega) (by omega)
  have hadd : add32 s.startAddress 0x70000 = s.startAddress + 0x70000 := add32_eq (by omega)
  unfold contract
  simp only [hlen, hlt, decide_true, assert_true, contractSize_eq hn, hold, hadd, ok_bind]

/-- The state after the tags of the last hole, at `x`, are adjusted to the size `v`. -/
def shrunk (s : HeapState) (x v : Nat) (paging : Paging) : HeapState :=
  (((s.moveEnd paging (s.startAddress + 0x70000)).touch x).storeHeaderSize x v).sealFooter
    (s.startAddress + 0x70000 - 4) x

/-- What `shrink` subtracts from a size field that was cut. -/
theorem sub32_cut {n r : Nat} (hr : r ≤ n) (h0 : n - r ≠ 0) (h22 : n - r < 4194304) :
    sub32 (n % 4194304) r % 4194304 = n - r ∧ 0 < sub32 (n % 4194304) r := by
  have hmod : sub32 (n % 4194304) r % 4194304 = n - r := by
    unfold sub32
    omega
  refine ⟨hmod, Nat.pos_of_ne_zero fun h => ?_⟩
  rw [h] at hmod
  omega

/-- The last hole, at `x` below `HEAP_MIN_SIZE`, ends where the heap now does. -/
theorem shrink_eq {e : Nat} (hx : s.startAddress ≤ x) (hmin : x + 8 ≤ s.startAddress + 0x70000)
    (hle : s.startAddress + 0x70000 ≤ s.endAddress) (hend : x + n = s.endAddress)
    (htop : s.endAddress < 4294967296) (hn : (s.header x).size = n % 4194304) :
    s.shrink x e = (do
      let paging ← s.lift (contractPages s.startAddress 0x70000 0x100001
        (s.endAddress - s.startAddress - 0x1000) s.paging)
      return s.shrunk x (sub32 (n % 4194304) (s.endAddress - s.startAddress - 0x70000)) paging) := by
  have hlen : sub32 s.endAddress s.startAddress = s.endAddress - s.startAddress :=
    sub32_eq (by omega) htop
  have hsub : sub32 x s.startAddress = x - s.startAddress := sub32_eq hx (by omega)
  have hrem : sub32 (s.endAddress - s.startAddress) 0x70000 =
      s.endAddress - s.startAddress - 0x70000 := sub32_eq (by omega) (by omega)
  obtain ⟨hmod, hpos⟩ := sub32_cut (n := n) (r := s.endAddress - s.startAddress - 0x70000)
    (by omega) (by omega) (by omega)
  generalize hv : sub32 (n % 4194304) (s.endAddress - s.startAddress - 0x70000) = v at *
  have hft : sub32 (add32 x (v % 4194304)) 4 = s.startAddress + 0x70000 - 4 := by
    rw [hmod, add32_eq (by omega), sub32_eq (by omega) (by omega)]
    omega
  have hhd (P : Paging) : ((((s.moveEnd P (s.startAddress + 0x70000)).touch x).storeHeaderSize x
      v).header x).size = v % 4194304 := by
    show (Dmanix.header (setHeader _ x _) x).size = _
    rw [header_setHeader]
  unfold shrink
  simp only [hsub, contract_eq (show x - s.startAddress < 0x70000 by omega) hle htop]
  cases s.lift (contractPages s.startAddress 0x70000 0x100001
      (s.endAddress - s.startAddress - 0x1000) s.paging) with
  | error e => rfl
  | ok P =>
    simp only [ok_bind, pure, Except.pure, hlen, hrem, header_touch, header_moveEnd, hn, hv, hpos,
      gt_iff_lt, if_true, hhd, hft]
    rw [shrunk]

end HeapState

end Dmanix
