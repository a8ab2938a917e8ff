import Dmanix.Memory.Proof.Carve

/-!
# Growing the heap

`Expand` adds `growth newSize` bytes (`expand_eq`). In a heap whose highest hole ends at
`end_address`, or that has no hole, they become part of that hole or a hole of their own
(`Laid.grow_ok`).
-/

namespace Dmanix

open Word32 Bytes Tiling

namespace HeapState

/-- The heap with `g` more bytes at its end. -/
def extended (s : HeapState) (paging : Paging) (g : Nat) (fresh : Mem) : HeapState :=
  { s with
    paging := paging
    endAddress := s.endAddress + g
    mem := fun a => if s.endAddress ≤ a ∧ a < s.endAddress + g then fresh a else s.mem a }

theorem off_extended (s : HeapState) (P : Paging) (g : Nat) (fresh : Mem) :
    Off s.endAddress (s.endAddress + g) s.mem (s.extended P g fresh).mem :=
  fun x hx => if_neg (by omega)

end HeapState

section
variable {s : HeapState} {w : Nat} {fresh : Mem}

theorem PageBounds.expand_eq (h : PageBounds s) (hw : 0 < w)
    (h32 : s.endAddress + growth w < 4294967296) :
    s.expand (add32 (sub32 s.endAddress s.startAddress) w) fresh = (do
      s.assert (s.endAddress + growth w ≤ s.maxAddress) "start_address + new_size <= max_address"
      let paging ← s.lift (HeapState.expandPages s.startAddress
        (s.endAddress + growth w - s.startAddress) s.supervisor s.readonly 0x100001
        (s.endAddress - s.startAddress) s.paging)
      return s.extended paging (growth w) fresh) := by
  have hroom := h.room
  have hsp := h.startPage
  have hep := h.endPage
  have hgrow : growth w = (w / 4096 + 1) * 4096 := rfl
  have hlen : sub32 s.endAddress s.startAddress = s.endAddress - s.startAddress :=
    sub32_eq hroom.le (by omega)
  have hadd : add32 (s.endAddress - s.startAddress) w = s.endAddress - s.startAddress + w :=
    add32_eq (by omega)
  have hsz : HeapState.expandSize (s.endAddress - s.startAddress + w) =
      s.endAddress + growth w - s.startAddress := by
    unfold HeapState.expandSize
    rw [pageBits_eq (by omega), if_pos (by omega), add32_eq (by omega)]
    omega
  have hend : add32 s.startAddress (s.endAddress + growth w - s.startAddress) =
      s.endAddress + growth w := by
    rw [add32_eq (by omega)]; omega
  unfold HeapState.expand
  rw [hlen, hadd, decide_eq_true (show s.endAddress - s.startAddress + w >
    s.endAddress - s.startAddress by omega)]
  simp only [HeapState.assert_true, bind, Except.bind, hsz, hend]
  rfl

/-- `grow`: the checks and frames of `Expand`, then the new bytes. -/
theorem PageBounds.grow_eq (h : PageBounds s) (hw : 0 < w)
    (h32 : s.endAddress + growth w < 4294967296) :
    s.grow w fresh = (do
      s.assert (s.endAddress + growth w ≤ s.maxAddress) "start_address + new_size <= max_address"
      let paging ← s.lift (HeapState.expandPages s.startAddress
        (s.endAddress + growth w - s.startAddress) s.supervisor s.readonly 0x100001
        (s.endAddress - s.startAddress) s.paging)
      (s.extended paging (growth w) fresh).addSpace s.endAddress (growth w)) := by
  have hroom := h.room
  have hold : sub32 s.endAddress s.startAddress = s.endAddress - s.startAddress :=
    sub32_eq hroom.le (by omega)
  have hdiff : sub32 (sub32 (s.endAddress + growth w) s.startAddress)
      (s.endAddress - s.startAddress) = growth w := by
    rw [sub32_eq (by omega) h32, sub32_eq (by omega) (by omega)]; omega
  have hexp := @PageBounds.expand_eq s w fresh h hw h32
  unfold HeapState.grow
  simp only [hexp, bind, Except.bind]
  cases s.assert (s.endAddress + growth w ≤ s.maxAddress)
      "start_address + new_size <= max_address" with
  | error e => rfl
  | ok u =>
    simp only
    cases s.lift (HeapState.expandPages s.startAddress
        (s.endAddress + growth w - s.startAddress) s.supervisor s.readonly 0x100001
        (s.endAddress - s.startAddress) s.paging) with
    | error e => rfl
    | ok P =>
      show (s.extended P (growth w) fresh).addSpace s.endAddress
        (sub32 (sub32 (s.endAddress + growth w) s.startAddress)
          (sub32 s.endAddress s.startAddress)) = _
      rw [hold, hdiff]

end

/-! ## The limits after growth -/

namespace HeapState

variable {s t : HeapState}

theorem indexInsert_heap {x : Nat} (h : s.indexInsert x = .ok t) :
    t.toHeap = { s.toHeap with index := t.index } := by
  unfold indexInsert at h
  obtain ⟨index, -, h⟩ := bind_ok.1 h
  cases h
  simp

/-- New bytes for the highest hole leave the index alone; the limits stay in any case. -/
theorem addSpace_heap {e g : Nat} (h : s.addSpace e g = .ok t) :
    t.toHeap = { s.toHeap with index := t.index } ∧ (s.lastHole ≠ none → t.index = s.index) := by
  unfold addSpace at h
  split at h
  · rename_i hl
    refine ⟨?_, fun hne => absurd hl hne⟩
    rw [indexInsert_heap h, toHeap_sealFooter, toHeap_storeHeader]
  · cases h
    exact ⟨rfl, fun _ => rfl⟩

end HeapState

theorem PageBounds.grow_limits {s t : HeapState} {w : Nat} {fresh : Mem} (h : PageBounds s)
    (hw : 0 < w) (hw' : w < 0x80000000) (htop : s.endAddress < 4294967296)
    (hg : s.grow w fresh = .ok t) :
    t.startAddress = s.startAddress ∧ t.endAddress = add32 s.endAddress (growth w) ∧
      (s.lastHole ≠ none → t.index = s.index) := by
  have hroom := h.room
  have hsp := h.startPage
  have hep := h.endPage
  have hgrow : growth w = (w / 4096 + 1) * 4096 := rfl
  have hlen : sub32 s.endAddress s.startAddress = s.endAddress - s.startAddress :=
    sub32_eq hroom.le htop
  unfold HeapState.grow HeapState.expand at hg
  rw [hlen] at hg
  obtain ⟨u, hu, hg⟩ := bind_ok.1 hg
  obtain ⟨_, hmore, hu⟩ := bind_ok.1 hu
  obtain ⟨_, -, hu⟩ := bind_ok.1 hu
  obtain ⟨P, -, hu⟩ := bind_ok.1 hu
  rw [HeapState.assert_ok, decide_eq_true_iff] at hmore
  cases hu
  obtain ⟨hheap, hidx⟩ := HeapState.addSpace_heap hg
  refine ⟨(congrArg Heap.startAddress hheap :), ?_, hidx⟩
  rw [(congrArg Heap.endAddress hheap :)]
  have hadd : add32 (s.endAddress - s.startAddress) w = s.endAddress - s.startAddress + w := by
    unfold add32 at hmore ⊢
    omega
  show add32 s.startAddress (HeapState.expandSize _) = _
  unfold HeapState.expandSize
  have hlt : s.endAddress - s.startAddress + w < 4294967296 := hadd ▸ add32_lt _ _
  rw [hadd, pageBits_eq hlt, if_pos (by omega)]
  unfold add32
  omega

/-! ## The new bytes -/

namespace HeapState

variable {s s' : HeapState} {x n g : Nat}

/-- The hole at `x` stretched to `n` bytes. -/
def stretched (s : HeapState) (x n : Nat) : HeapState :=
  ((s.storeHeaderSize x n).storeFooterSize (x + n - 4) n).storeFooterMagic (x + n - 4)

@[simp] theorem toHeap_stretched (s : HeapState) (x n : Nat) :
    (s.stretched x n).toHeap = s.toHeap := rfl

theorem stretched_ok {k : Nat} {hole : Bool} (hh : s.header x = ⟨0x1FF, hole, k⟩) (h8 : 8 ≤ n)
    (hn : n < 4194304) :
    Rewrote s (s.stretched x n) x (x + n) ∧ Tagged (s.stretched x n).mem x ⟨hole, n⟩ := by
  have hsz := footer_storeFooterSize (s.storeHeaderSize x n) (x + n - 4) n hn
  have hmag := footer_storeFooterMagic ((s.storeHeaderSize x n).storeFooterSize (x + n - 4) n)
    (x + n - 4)
  have hoff : Off (x + n - 4) (x + n) (s.storeHeaderSize x n).mem (s.stretched x n).mem :=
    ((off_setFooter _ (x + n - 4) _).trans (off_setFooter _ _ _)).mono (Nat.le_refl _) (by omega)
  obtain ⟨ht, ho⟩ := tagged_resize h8 hn hh hoff hmag.1 (hmag.2.trans hsz.2)
  refine ⟨⟨rfl, rfl, rfl, ho, fun v hv => ?_⟩, ht⟩
  simp only [stretched, stored_storeFooterMagic, stored_storeFooterSize, stored_storeHeaderSize,
    List.mem_cons] at hv
  rcases hv with rfl | rfl | hv
  · exact .inr hn
  · exact .inr hn
  · exact .inl hv

theorem addSpace_some {e : Nat} {hole : Bool} (hx : s.lastHole = some x)
    (hh : s.header x = ⟨0x1FF, hole, n⟩) (h8 : 8 ≤ n) (h22 : n + g < 4194304)
    (h32 : x + (n + g) < 4294967296) : s.addSpace e g = .ok (s.stretched x (n + g)) := by
  have hadd : add32 (s.header x).size g = n + g := by
    rw [hh]
    exact add32_eq (show n + g < 4294967296 by omega)
  have hhd : (s.storeHeaderSize x (n + g)).header x = ⟨0x1FF, hole, n + g⟩ := by
    rw [header_storeHeaderSize s x _ h22, hh]
  have hf : sub32 (add32 x (n + g)) 4 = x + (n + g) - 4 := by
    rw [add32_eq h32, sub32_eq (by omega) h32]
  have hkeep : ((s.storeHeaderSize x (n + g)).storeFooterSize (x + (n + g) - 4) (n + g)).header x =
      ⟨0x1FF, hole, n + g⟩ := (header_setFooter_apart (by omega)).trans hhd
  unfold addSpace
  rw [hx]
  simp only [hadd, hhd, hf]
  rfl

theorem addSpace_none {e : Nat} (hx : s.lastHole = none) (h8 : 8 ≤ g) (h22 : g < 4194304)
    (h32 : e + g < 4294967296) : s.addSpace e g = (s.writeBlock e g true).indexInsert e := by
  have hhd : (s.storeHeader e ⟨0x1FF, true, g⟩).header e = ⟨0x1FF, true, g⟩ := by
    show Dmanix.header (setHeader _ e _) e = _
    rw [header_setHeader]
    simp only [Nat.mod_eq_of_lt h22]
  have hf : sub32 (add32 e g) 4 = e + g - 4 := by
    rw [add32_eq h32, sub32_eq (by omega) h32]
  unfold addSpace
  rw [hx]
  simp only [hhd, hf]
  rfl

end HeapState

/-- `t` is `s` grown by `g` bytes into a hole at `x`. -/
structure Grown (s t : HeapState) (x g : Nat) : Prop where
  startAddress : t.startAddress = s.startAddress
  endAddress : t.endAddress = s.endAddress + g
  maxAddress : t.maxAddress = s.maxAddress
  limit : t.endAddress ≤ t.maxAddress
  off : Off x t.endAddress s.mem t.mem
  last : t.lastHole = some x

theorem Laid.grown {s t : HeapState} {l mid : List Block} {x n g : Nat} {P : Paging} {fresh : Mem}
    (h : Laid s (l ++ mid)) (hx : x = s.startAddress + extent Block.size l)
    (hn : extent Block.size mid = n) (h32 : s.endAddress + g < 4294967296)
    (hlim : s.endAddress + g ≤ s.maxAddress)
    (hr : Rewrote (s.extended P g fresh) t x (x + (n + g)))
    (ht : Tagged t.mem x ⟨true, n + g⟩) (hs : t.index.size < t.index.capacity)
    (hi : t.index.items.Perm (holes s.startAddress l ++ [x])) (hlast : t.lastHole = some x) :
    Laid t (l ++ [⟨true, n + g⟩]) ∧ Grown s t x g := by
  have hf := h.fills
  have hsp : t.startAddress = s.startAddress := hr.startAddress
  have hep : t.endAddress = s.endAddress + g := hr.endAddress
  have hmx : t.maxAddress = s.maxAddress := hr.maxAddress
  rw [extent_append, hn] at hf
  have hoff : Off x t.endAddress s.mem t.mem :=
    ((s.off_extended P g fresh).mono (by omega) hep.ge).trans
      (hr.off.mono (Nat.le_refl _) (by omega))
  refine ⟨⟨?_, ?_, ?_, ?_, hs, hr.capacity.trans_le h.capacity, ?_⟩,
    ⟨hsp, hep, hmx, by omega, hoff, hlast⟩⟩
  · rw [hsp, allTagged_append, allTagged_single, ← hx]
    exact ⟨(allTagged_append.1 h.tags).1.off hoff (.inl (by omega)), ht⟩
  · simp only [hsp, hep, extent_append, extent_cons, extent_nil]
    omega
  · rw [hep]; exact h32
  · rw [hsp]; exact h.low
  · rw [hsp, holes_append, holes_cons, ← hx]
    simpa using hi

/-- **Growth keeps the heap laid out**: the new bytes extend the last hole, or are one. -/
theorem Laid.grow_ok {s t : HeapState} {bs : List Block} {w x n : Nat} {fresh : Mem} (h : Laid s bs)
    (hp : PageBounds s) (hw : 0 < w) (hx : s.lastSpace = (x, n)) (he : x + n = s.endAddress)
    (h22 : n + growth w < 4194304) (h32 : s.endAddress + growth w < 4294967296)
    (hg : s.grow w fresh = .ok t) :
    ∃ l P, bs = l ++ (if n = 0 then [] else [⟨true, n⟩]) ∧
      x = s.startAddress + extent Block.size l ∧ Laid t (l ++ [⟨true, n + growth w⟩]) ∧
      Grown s t x (growth w) ∧
      Rewrote (s.extended P (growth w) fresh) t x (x + (n + growth w)) ∧
      t.index.items = if n = 0 then [x] else s.index.items := by
  have h4096 : 4096 ≤ growth w := by unfold growth; omega
  rw [hp.grow_eq hw h32] at hg
  obtain ⟨u, hlim, hg⟩ := bind_ok.1 hg
  rw [HeapState.assert_ok, decide_eq_true_iff] at hlim
  obtain ⟨P, -, hg⟩ := bind_ok.1 hg
  have hoff := s.off_extended P (growth w) fresh
  cases hl : s.lastHole with
  | some y =>
    simp only [HeapState.lastSpace, hl, Prod.mk.injEq] at hx
    obtain ⟨rfl, hn⟩ := hx
    obtain ⟨hy, -⟩ := HeapState.lastHole_some hl
    have hy8 : 8 ≤ n := hn ▸ (h.hole_bounds hy).2.2.1
    obtain ⟨l, rfl, hyl⟩ := h.last_hole hy (by rw [← hn] at he; exact he)
    rw [show (header s.mem y).size = n from hn] at h
    have hth : Tagged s.mem y ⟨true, n⟩ := by
      have := h.tags
      rw [allTagged_append, allTagged_single, ← hyl] at this
      exact this.2
    have hhd : (s.extended P (growth w) fresh).header y = ⟨0x1FF, true, n⟩ :=
      (header_off hoff (.inl (by omega))).trans hth.header
    have hl' : (s.extended P (growth w) fresh).lastHole = some y := hl
    rw [HeapState.addSpace_some hl' hhd hy8 h22 (by omega)] at hg
    cases hg
    obtain ⟨hr, ht⟩ := HeapState.stretched_ok hhd (n := n + growth w) (by omega) h22
    have hi := h.index
    rw [holes_append, holes_cons, ← hyl] at hi
    replace hi : s.index.items.Perm (holes s.startAddress l ++ [y]) := by simpa using hi
    obtain ⟨hwf, hgr⟩ := h.grown hyl (by simp) h32 hlim hr ht h.slots hi hl
    refine ⟨l, P, ?_, hyl, hwf, hgr, hr, (if_neg (by omega)).symm⟩
    rw [if_neg (by omega), ← hn]
    rfl
  | none =>
    simp only [HeapState.lastSpace, hl, Prod.mk.injEq] at hx
    obtain ⟨rfl, rfl⟩ := hx
    have hnil : s.index.items = [] := HeapState.lastHole_none hl fun y hy => by
      have := (h.hole_bounds hy).1
      omega
    have hl' : (s.extended P (growth w) fresh).lastHole = none := hl
    rw [HeapState.addSpace_none hl' (by omega) (by omega) h32] at hg
    obtain ⟨hr, ht⟩ := writeBlock_ok (s.extended P (growth w) fresh) true (x := s.endAddress)
      (n := growth w) (by omega) (by omega)
    obtain ⟨hr', hm, hlt, hit⟩ := HeapState.indexInsert_ok
      (s := (s.extended P (growth w) fresh).writeBlock s.endAddress (growth w) true) h.slots hg
      s.endAddress (s.endAddress + growth w)
    have hitems : t.index.items = [s.endAddress] := by
      rw [hit]
      show s.index.items.orderedInsert _ _ = _
      rw [hnil]
      rfl
    have hlast : t.lastHole = some s.endAddress := by
      unfold HeapState.lastHole
      rw [hitems]
      exact if_pos (show s.endAddress > 0 by have := hp.room; omega)
    have hholes : holes s.startAddress bs = [] := List.perm_nil.1 (hnil ▸ h.index).symm
    have hnew : Laid s (bs ++ []) := by simpa using h
    have hall : Rewrote (s.extended P (growth w) fresh) t s.endAddress
        (s.endAddress + (0 + growth w)) := by simpa using hr.trans hr'
    obtain ⟨hwf, hgr⟩ := hnew.grown (n := 0) (x := s.endAddress) h.fills.symm rfl h32 hlim
      hall (by simpa [hm] using ht) hlt (by rw [hholes]; exact hitems ▸ .refl _) hlast
    exact ⟨bs, P, by simp, h.fills.symm, by simpa using hwf, hgr, hall, hitems⟩

/-- **Growth keeps the heap well formed.** -/
theorem WF.grow_ok {s t : HeapState} {bs : List Block} {w x n : Nat} {fresh : Mem} (h : WF s bs)
    (hw : 0 < w) (hx : s.lastSpace = (x, n)) (he : x + n = s.endAddress)
    (h22 : n + growth w < 4194304) (h32 : s.endAddress + growth w < 4294967296)
    (hg : s.grow w fresh = .ok t) :
    ∃ l, bs = l ++ (if n = 0 then [] else [⟨true, n⟩]) ∧ x = s.startAddress + extent Block.size l ∧
      WF t (l ++ [⟨true, n + growth w⟩]) ∧ Grown s t x (growth w) ∧
      t.index.items = if n = 0 then [x] else s.index.items := by
  obtain ⟨l, P, hb, hl, ht, hgr, hr, hit⟩ :=
    h.laid.grow_ok h.toTiled.pageBounds hw hx he h22 h32 hg
  have hst := hgr.startAddress
  have hen := hgr.endAddress
  have hroom := h.room
  have hend := h.endPage
  have hg : growth w % 4096 = 0 := Nat.mul_mod_left _ _
  refine ⟨l, hb, hl, ⟨⟨ht.tags, ht.fills, ht.top, ht.low, by omega, ?_, by omega, ht.slots, ?_,
    fun v hv => ?_⟩, ht.index⟩, hgr, hit⟩
  · rw [hst]
    exact h.startPage
  · exact hr.capacity.trans h.capacity
  · exact (hr.stored v hv).elim (h.stored v) id

end Dmanix
