import Dmanix.Memory.Proof.Create
import Dmanix.Memory.Proof.Frames

/-!
# A call that finds a hole

`Laid.plain_alloc`: `Alloc(size, false)` on any laid out heap whose search succeeds returns, and
puts the block, with what is left of the hole if that can hold tags, in the hole's place.

`Laid.aligned_alloc`: `Alloc(size, true)` does the same with a gap before the block exactly when the
gap and the rest can hold their tags and the index can take the rest. The other direction reads off
what `carve` stores: the payload's address (`carve_page`), the size in the block's header
(`placeBlock_header`), and the word below the hole (`carve_below`).
-/

namespace Dmanix

open Word32 Bytes Tiling

section
variable {s s' : HeapState} {bs : List Block} {i size : Nat}

theorem Laid.found_hole {pageAlign : Bool} (h : Laid s bs) (hsz : size ≤ 4194304)
    (hf : s.findSmallestHole (size + 8) pageAlign = some i) :
    ∃ hi : i < s.index.items.length, s.index.items[i] = s.index.array i ∧
      s.index.array i ∈ s.index.items ∧
      size + 8 + gapOffset pageAlign (s.index.array i) ≤ (s.header (s.index.array i)).size := by
  obtain ⟨hi, hfit, -⟩ := HeapState.findSmallestHole_some.1 hf
  have hit : s.index.items[i] = s.index.array i := OrderedArray.items_getElem hi
  have hx : s.index.items[i] ∈ s.index.items := List.getElem_mem hi
  rw [h.fits_iff hx (by omega), hit] at hfit
  exact ⟨hi, hit, hit ▸ hx, hfit⟩

/-! ## Any payload address -/

theorem HeapState.size_le_of_found (hf : s.findSmallestHole (size + 8) false = some i) :
    size ≤ 4194304 := by
  obtain ⟨hi, hfit, -⟩ := HeapState.findSmallestHole_some.1 hf
  have hlt := header_size_lt s.mem s.index.items[i]
  have hle : size + 8 ≤ (Dmanix.header s.mem s.index.items[i]).size := by
    simpa [HeapState.fits, HeapState.header] using hfit
  omega

theorem carved_zero (n w : Nat) : carved n w 0 =
    if n - w < 8 then [⟨false, n⟩] else [⟨false, w⟩, ⟨true, n - w⟩] := by
  unfold carved blockSize restOf
  rw [if_pos rfl, Nat.sub_zero, List.nil_append]
  by_cases h8 : n - w < 8
  · rw [if_pos h8, if_pos h8, if_pos rfl]
  · rw [if_neg h8, if_neg h8, if_neg (by omega)]

theorem Laid.plain_cut (h : Laid s bs) (hf : s.findSmallestHole (size + 8) false = some i)
    (rounds : Nat) (fresh : Mem) :
    ∃ l r n p s', bs = l ++ ⟨true, n⟩ :: r ∧
      s.index.array i = s.startAddress + extent Block.size l ∧ size + 8 ≤ n ∧
      s.allocN rounds size false fresh = .ok (p, s') ∧ p = s.index.array i + 4 ∧
      Laid s' (l ++ ((if n - (size + 8) < 8 then [⟨false, n⟩]
        else [⟨false, size + 8⟩, ⟨true, n - (size + 8)⟩]) ++ r)) ∧
      Rewrote s s' (s.index.array i) (s.index.array i + n) := by
  have hsz := HeapState.size_le_of_found hf
  obtain ⟨hi, hit, -, hfit⟩ := h.found_hole hsz hf
  have hw : 0 + (size + 8) ≤ (s.header (s.index.array i)).size := by
    have : gapOffset false (s.index.array i) = 0 := rfl
    omega
  have hsplit : SplitOk false (s.index.array i) (s.header (s.index.array i)).size (size + 8) := nofun
  obtain ⟨⟨p, s'⟩, hc⟩ := h.carve_returns hi hit rfl rfl hw hsplit fun h0 => absurd rfl h0
  obtain ⟨l, r, hb, hl, hp, hr, hlaid, -⟩ := h.carve_ok hi hit rfl rfl hw hsplit hc
  rw [show gapSize false (s.index.array i) = 0 from rfl] at hlaid hp
  rw [carved_zero] at hlaid
  exact ⟨l, r, _, p, s', hb, hl, by omega, (HeapState.allocN_some hsz hf).trans hc, by omega, hlaid, hr⟩

/-- **A plain allocation from a hole** keeps the heap laid out: the block, and a hole of the bytes
that are left when they can hold tags, take the place of the hole. -/
theorem Laid.plain_alloc (h : Laid s bs) (hf : s.findSmallestHole (size + 8) false = some i)
    (rounds : Nat) (fresh : Mem) :
    ∃ l r n p s', bs = l ++ ⟨true, n⟩ :: r ∧
      s.index.array i = s.startAddress + extent Block.size l ∧
      s.allocN rounds size false fresh = .ok (p, s') ∧
      p = s.index.array i + 4 ∧ p + size + 4 ≤ s.index.array i + n ∧
      Laid s' (l ++ ((if n - (size + 8) < 8 then [⟨false, n⟩]
        else [⟨false, size + 8⟩, ⟨true, n - (size + 8)⟩]) ++ r)) ∧
      Rewrote s s' (s.index.array i) (s.index.array i + n) := by
  obtain ⟨l, r, n, p, s', hb, hl, hw, ha, hp, hlaid, hr⟩ := h.plain_cut hf rounds fresh
  exact ⟨l, r, n, p, s', hb, hl, ha, hp, by omega, hlaid, hr⟩

/-! ## A heap whose blocks are known -/

section
variable {s : HeapState} {l r bs : List Block} {n pos size : Nat} {pageAlign : Bool}

theorem WF.allocOk_at (h : WF s (l ++ ⟨true, n⟩ :: r))
    (hpos : pos = s.startAddress + extent Block.size l) (hsz : size ≤ 4194304)
    (hfit : size + 8 + gapOffset pageAlign pos ≤ n) (hsplit : SplitOk pageAlign pos n (size + 8))
    (hother : ∀ b ∈ l ++ r, b.hole = true → b.size < size + 8) : s.AllocOk size pageAlign := by
  obtain ⟨i, hi, hit, hf⟩ := h.found hpos hsz hfit hother
  obtain ⟨-, hn⟩ := h.mem_index hpos
  unfold HeapState.AllocOk
  rw [hf]
  show SplitOk pageAlign (s.index.array i) _ _
  rw [← OrderedArray.items_getElem hi, hit, hn]
  exact hsplit

/-- A plain block from the hole that ends a heap without other holes. -/
theorem WF.alloc_last (h : WF s (bs ++ [⟨true, n⟩])) (size : Nat) (hbs : ∀ b ∈ bs, b.hole = false)
    (hfit : size + 16 ≤ n) (hroom : bs.length + 2 < 0x20000) :
    s.AllocOk size false ∧ ∃ t,
      s.allocN 0 size false (fun _ => 0) = .ok (s.startAddress + extent Block.size bs + 4, t) ∧
      Rewrote s t (s.startAddress + extent Block.size bs)
        (s.startAddress + extent Block.size bs + n) ∧
      WF t ((bs ++ [⟨false, size + 8⟩]) ++ [⟨true, n - (size + 8)⟩]) := by
  have hn : n < 4194304 := by
    have ht := h.tags
    rw [allTagged_append, allTagged_single] at ht
    exact ht.2.lt
  have hother : ∀ b ∈ bs ++ [], b.hole = true → b.size < size + 8 := fun b hb hole => by
    rw [List.append_nil] at hb
    rw [hbs b hb] at hole
    cases hole
  have hok : s.AllocOk size false := @WF.allocOk_at s bs [] _ _ size false h rfl (by omega)
    (show size + 8 + 0 ≤ n by omega) nofun hother
  obtain ⟨t, ha, hr, hwf⟩ := @WF.alloc_at s bs [] _ _ size false 0 (fun _ => 0) h rfl (by omega)
    (show size + 8 + 0 ≤ n by omega) nofun hother (by simp; omega)
  rw [show gapSize false _ = 0 from rfl, carved_zero, if_neg (by omega)] at hwf
  exact ⟨hok, t, ha, hr, by simpa using hwf⟩

end

theorem new_heap : ∃ s : HeapState, s.startAddress = 0xC0081000 ∧ WF s [⟨true, 0x7F000⟩] ∧
    Heap.create 0xC0000000 0xC0100000 0xCFFFF000 false false (fun _ => 0) Frames.blank = .ok s := by
  obtain ⟨s, hs⟩ := Heap.create_returns 0xCFFFF000 false false (fun _ => 0) Frames.blank
    (show 0xC0000000 % 4096 = 0 by decide) (show 0xC0100000 % 4096 = 0 by decide)
  obtain ⟨hwf, -, hst, -⟩ := Heap.create_ok (by decide) (by decide) (by decide) hs
  exact ⟨s, hst, hwf, hs⟩

/-- A third block behind two others. -/
theorem plain_alloc_third : ∃ s p s', Laid s [⟨false, 24⟩, ⟨false, 108⟩, ⟨true, 0x7F000 - 132⟩] ∧
    s.allocN 0 16 false (fun _ => 0) = .ok (p, s') ∧
    Laid s' [⟨false, 24⟩, ⟨false, 108⟩, ⟨false, 24⟩, ⟨true, 0x7F000 - 156⟩] := by
  obtain ⟨s₀, -, hwf₀, -⟩ := new_heap
  obtain ⟨-, s₁, -, -, hwf₁⟩ := @WF.alloc_last s₀ [] _ hwf₀ 16 nofun (by decide) (by decide)
  obtain ⟨-, s, -, -, hwf⟩ := hwf₁.alloc_last 100 (by simp) (by decide) (by decide)
  obtain ⟨i, -, -, hf⟩ := @WF.found s [⟨false, 24⟩, ⟨false, 108⟩] [] _ _ 16 false hwf rfl (by decide)
    (show 16 + 8 + 0 ≤ _ by decide) (by simp)
  obtain ⟨l, r, n, p, s', hb, -, ha, -, -, hlaid, -⟩ := hwf.laid.plain_alloc hf 0 fun _ => 0
  -- the hole is the last block
  obtain ⟨rfl, rfl, rfl⟩ : l = [⟨false, 24⟩, ⟨false, 108⟩] ∧ n = 0x7F000 - 132 ∧ r = [] := by
    match l with
    | [] => simp at hb
    | [_] => simp at hb
    | [_, _] => simpa [eq_comm, and_assoc] using hb
    | _ :: _ :: _ :: _ => simp at hb
  exact ⟨s, p, s', hwf.laid, ha, hlaid⟩

/-! ## A payload on a page -/

/-- **A page-aligned block of `size` bytes from the hole at `pos`**: an optional gap, the block and
an optional rest fill the hole, every block of the heap has its tags, and nothing is written outside
the hole. -/
structure AlignedCut (s s' : HeapState) (bs : List Block) (pos size p : Nat) : Prop where
  page : p % 4096 = 0
  limits : s'.startAddress = s.startAddress ∧ s'.endAddress = s.endAddress
  cut : ∃ l r n before b after, bs = l ++ ⟨true, n⟩ :: r ∧ pos = s.startAddress + extent Block.size l ∧
    (before = [] ∨ ∃ k, before = [⟨true, k⟩]) ∧ (after = [] ∨ ∃ k, after = [⟨true, k⟩]) ∧
    p = pos + extent Block.size before + 4 ∧ size + 8 ≤ b ∧
    extent Block.size before + b + extent Block.size after = n ∧
    AllTagged s'.mem s.startAddress (l ++ (before ++ ⟨false, b⟩ :: after) ++ r) ∧
    Off pos (pos + n) s.mem s'.mem

/-- The pieces of the hole at index `i` can hold their tags, and the index can take the rest. -/
def HeapState.AlignOk (s : HeapState) (i size : Nat) : Prop :=
  SplitOk true (s.index.array i) (s.header (s.index.array i)).size (size + 8) ∧
    ((s.header (s.index.array i)).size ≠ gapSize true (s.index.array i) + (size + 8) →
      s.index.size + 1 < s.index.capacity)

/-- The gap `Alloc` leaves and the offset the search sets aside are the same below the last word
of a page. -/
theorem gapSize_eq_gapOffset {pos : Nat} (h : pos % 4096 ≤ 4091) :
    gapSize true pos = gapOffset true pos := by
  unfold gapSize gapOffset
  rw [if_pos rfl, if_pos rfl]
  omega

theorem Laid.aligned_cut (h : Laid s bs) (hsz : size ≤ 4194304)
    (hf : s.findSmallestHole (size + 8) true = some i) (hok : s.AlignOk i size) (rounds : Nat)
    (fresh : Mem) : ∃ p s', s.allocN rounds size true fresh = .ok (p, s') ∧
      AlignedCut s s' bs (s.index.array i) size p := by
  obtain ⟨hi, hit, -, hfit⟩ := h.found_hole hsz hf
  obtain ⟨hsplit, hroom⟩ := hok
  have hlow := (hsplit rfl).1
  have hgap := @gapSize_eq_gapOffset (s.index.array i) (by omega)
  generalize hn : (s.header (s.index.array i)).size = n at *
  generalize hpos : s.index.array i = pos at *
  generalize hg : gapSize true pos = gap at *
  have hg0 : gap = 4092 - pos % 4096 := hg.symm
  have hw : gap + (size + 8) ≤ n := by omega
  obtain ⟨⟨p, s'⟩, hc⟩ := h.carve_returns hi hit hn hg.symm hw hsplit fun _ => hroom
  obtain ⟨l, r, hb, hl, hp, hr, hlaid, -⟩ := h.carve_ok hi hit hn hg.symm hw hsplit hc
  refine ⟨p, s', (HeapState.allocN_some hsz hf).trans hc, by omega, ⟨hr.startAddress, hr.endAddress⟩,
    l, r, n, [⟨true, gap⟩], blockSize (n - gap) (size + 8),
    restOf (n - gap) (blockSize (n - gap) (size + 8)), hb, hl, .inr ⟨gap, rfl⟩, ?_, ?_, ?_, ?_, ?_,
    hr.off⟩
  · unfold restOf
    split
    · exact .inl rfl
    · exact .inr ⟨_, rfl⟩
  · simpa using hp
  · exact (blockSize_cases (by omega)).1
  · have hb := blockSize_cases (n := n - gap) (w := size + 8) (by omega)
    simp only [extent_cons, extent_nil, extent_restOf]
    omega
  · have ht := hlaid.tags
    rw [hr.startAddress] at ht
    unfold carved at ht
    rw [if_neg (by omega)] at ht
    simpa using ht

end

/-! ## What the pieces need -/

namespace HeapState

variable {s s' : HeapState} {pos n w p i size : Nat}

theorem placeBlock_pos {size : Nat} (hc : s.placeBlock pos n size w = .ok (p, s')) :
    p = add32 pos 4 := by
  unfold placeBlock at hc
  dsimp only at hc
  split at hc
  · obtain ⟨t, -, hc⟩ := bind_ok.1 hc
    cases hc
    rfl
  · cases hc
    rfl

theorem placeBlock_header (hw : 8 ≤ w) (hn : w ≤ n) (hn22 : n < 4194304)
    (hb : pos + n < 4294967296) (hs : s.index.size < s.index.capacity)
    (hc : s.placeBlock pos n (w - 8) w = .ok (p, s')) : header s' pos = ⟨0x1FF, false, w⟩ := by
  obtain ⟨-, ht⟩ := writeBlock_ok s false (x := pos) hw (by omega)
  rcases Nat.eq_or_lt_of_le hn with rfl | hlt
  · rw [placeBlock_exact hw hb] at hc
    cases hc
    exact ht.header
  · have h4 : add32 pos 4 = pos + 4 := add32_eq (by omega)
    have hf : add32 (pos + 4) (w - 8) = pos + w - 4 := by rw [add32_eq (by omega)]; omega
    have hh : add32 (pos + w - 4) 4 = pos + w := by rw [add32_eq (by omega)]; omega
    have hr : sub32 n w = n - w := sub32_eq hn (by omega)
    have hff : sub32 (add32 (pos + w) (n - w)) 4 = pos + n - 4 := by
      rw [add32_eq (by omega), sub32_eq (by omega) (by omega)]; omega
    unfold placeBlock at hc
    simp only [h4, hf, hh, hr, hff] at hc
    rw [if_pos (by omega)] at hc
    obtain ⟨t, hins, hc⟩ := bind_ok.1 hc
    cases hc
    generalize hu : ((s.storeHeader pos ⟨0x1FF, false, w⟩).sealFooter (pos + w - 4) pos).storeHeader
      (pos + w) ⟨0x1FF, true, n - w⟩ = u at hins
    have hu1 : Off (pos + w) (pos + w + 4) (s.writeBlock pos w false).mem u.mem := by
      rw [← hu]
      exact off_setHeader _ _ _
    -- the footer of the rest may lie on its header, but not on the block's
    have hu2 : Off (pos + n - 4) (pos + n) u.mem
        (if pos + n - 4 < u.endAddress then u.sealFooter (pos + n - 4) (pos + w) else u).mem := by
      split
      · exact ((off_setFooter _ (pos + n - 4) _).trans (off_setFooter _ _ _)).mono (Nat.le_refl _)
          (by omega)
      · exact .refl _ _ _
    have hidx : (if pos + n - 4 < u.endAddress then u.sealFooter (pos + n - 4) (pos + w)
        else u).index = s.index := by
      rw [← hu]
      split <;> rfl
    obtain ⟨-, hm, -, -⟩ := indexInsert_ok (by rw [hidx]; exact hs) hins 0 0
    show Dmanix.header s'.mem pos = _
    rw [hm, header_off hu2 (by omega), header_off hu1 (by omega)]
    exact ht.header

theorem indexInsert_room {x : Nat} (hs : s.index.size < s.index.capacity)
    (h : s.indexInsert x = .ok s') : s.index.size + 1 < s.index.capacity := by
  obtain ⟨idx, -, -, -, he⟩ := indexInsert_eq x hs
  rw [he] at h
  split at h
  · assumption
  · cases h

/-- The stores of a gap at `pos` whose payload page is `delta` bytes further. -/
def gapped (s : HeapState) (pos delta : Nat) : HeapState :=
  (s.storeHeader pos ⟨0x1FF, true, sub32 delta 4⟩).sealFooter (sub32 (sub32 (add32 pos delta) 4) 4)
    pos

@[simp] theorem toHeap_gapped (s : HeapState) (pos delta : Nat) :
    (s.gapped pos delta).toHeap = s.toHeap := by
  simp [gapped]

theorem gapped_below (hlo : 4096 ≤ pos) (hb : pos + 4 < 4294967296) :
    ((s.gapped pos 4).footer (pos - 4)).size = 0 ∧ ((s.gapped pos 4).header pos).size = 0 := by
  have hf : sub32 (sub32 (add32 pos 4) 4) 4 = pos - 4 := by
    rw [add32_eq hb, sub32_eq (by omega) hb, sub32_eq (by omega) (by omega)]
    omega
  have hh : (s.storeHeader pos ⟨0x1FF, true, 0⟩).header pos = ⟨0x1FF, true, 0⟩ := by
    show Dmanix.header (setHeader _ pos _) pos = _
    rw [header_setHeader]
    rfl
  unfold gapped
  rw [hf, show sub32 4 4 = 0 from rfl]
  obtain ⟨-, hoff, -, hsz⟩ :=
    (s.storeHeader pos ⟨0x1FF, true, 0⟩).sealFooter_apart (f := pos - 4) (h := pos) (by omega)
  refine ⟨by rw [hh] at hsz; exact hsz, ?_⟩
  exact congrArg Header.size ((header_off hoff (by omega)).trans hh)

theorem gapped_block (hlo : 4096 ≤ pos) (hp : pos % 4096 ≤ 4084) (hb : pos + 4096 < 4294967296) :
    s.gapped pos (4096 - pos % 4096) = s.writeBlock pos (gapSize true pos) true := by
  have hg : gapSize true pos = 4092 - pos % 4096 := rfl
  have hd : sub32 (4096 - pos % 4096) 4 = gapSize true pos := by
    rw [sub32_eq (by omega) (by omega)]
    omega
  have hq : sub32 (add32 pos (4096 - pos % 4096)) 4 = pos + gapSize true pos := by
    rw [add32_eq (by omega), sub32_eq (by omega) (by omega)]
    omega
  have hf : sub32 (pos + gapSize true pos) 4 = pos + gapSize true pos - 4 :=
    sub32_eq (by omega) (by omega)
  unfold gapped
  rw [hd, hq, hf]
  rfl

section
variable (hi : i < s.index.items.length) (hcap : s.index.size < s.index.capacity)
  (hpos : s.index.items[i] = pos) (hn : (s.header pos).size = n) (hlo : 4096 ≤ pos)
  (hb : pos + n ≤ s.endAddress) (htop : s.endAddress + 4096 ≤ 4294967296)
include hi hcap hpos hn hlo hb htop

/-- **`carve` with alignment** stores a gap and places a block at the end of the page: as large as asked
for, unless the rest of the hole could hold no tags. -/
theorem carve_gapped (h8 : 8 ≤ n) (hw : size + 8 ≤ n) : ∃ size' w,
    s.carve i size (size + 8) true = (s.gapped pos (4096 - pos % 4096)).placeBlock
      (pos + (4096 - pos % 4096) - 4)
      (sub32 n ((s.gapped pos (4096 - pos % 4096)).header pos).size) size' w ∧
    (8 ≤ n - (size + 8) → size' = size ∧ w = size + 8) := by
  have hlt : n < 4194304 := hn ▸ header_size_lt _ _
  have hlk : s.index.lookup i = .ok pos := by
    rw [← hpos, OrderedArray.items_getElem]
    exact OrderedArray.lookup_ok (by simpa using hi) hcap.le
  have hd : sub32 0x1000 (pos % 0x1000) = 4096 - pos % 4096 := sub32_eq (by omega) (by omega)
  have hq : sub32 (add32 pos (4096 - pos % 4096)) 4 = pos + (4096 - pos % 4096) - 4 := by
    rw [add32_eq (by omega), sub32_eq (by omega) (by omega)]
  have hpb : pageBits pos ≠ 0 := by rw [pageBits_eq (by omega)]; omega
  refine ⟨if n - (size + 8) < 8 then add32 size (n - (size + 8)) else size,
    if n - (size + 8) < 8 then n else size + 8, ?_, fun h8 => ?_⟩
  swap
  · exact ⟨if_neg (Nat.not_lt.2 h8), if_neg (Nat.not_lt.2 h8)⟩
  unfold carve
  rw [hlk]
  simp only [lift, Except.mapError, bind, Except.bind, openGap, hn, hd]
  rw [if_pos (by simpa using hpb)]
  rw [show sub32 n (size + 8) = n - (size + 8) from sub32_eq hw (by omega), ← hq]
  rfl

variable (hc : s.carve i size (size + 8) true = .ok (p, s'))
include hc

theorem carve_page (h8 : 8 ≤ n) (hw : size + 8 ≤ n) :
    p = pos + (4096 - pos % 4096) ∧ (8 ≤ n - (size + 8) →
      (s.gapped pos (4096 - pos % 4096)).placeBlock (p - 4)
        (sub32 n ((s.gapped pos (4096 - pos % 4096)).header pos).size) (size + 8 - 8) (size + 8)
          = .ok (p, s')) := by
  obtain ⟨size', w, he, hcut⟩ := carve_gapped hi hcap hpos hn hlo hb htop h8 hw
  rw [he] at hc
  have hp : p = pos + (4096 - pos % 4096) := by
    rw [placeBlock_pos hc, add32_eq (by omega)]
    omega
  refine ⟨hp, fun h8 => ?_⟩
  obtain ⟨rfl, rfl⟩ := hcut h8
  rw [show p - 4 = pos + (4096 - pos % 4096) - 4 by omega, Nat.add_sub_cancel]
  exact hc

theorem carve_below (hp : pos % 4096 = 4092) (hw : size + 8 + 8 ≤ n) :
    (s'.footer (pos - 4)).size = 0 := by
  have hlt : n < 4194304 := hn ▸ header_size_lt _ _
  obtain ⟨hpp, hplace⟩ := carve_page hi hcap hpos hn hlo hb htop hc (by omega) (by omega)
  obtain ⟨hfoot, hhead⟩ := gapped_below (s := s) hlo (by omega)
  replace hplace := hplace (by omega)
  rw [hp, show 4096 - 4092 = 4 from rfl, hhead, sub32_eq (by omega) (by omega),
    show p - 4 = pos by omega] at hplace
  have hok := placeBlock_ok (by omega) (.inr hw) hlt (by rwa [toHeap_gapped])
    (by rw [toHeap_gapped]; omega) (by rwa [toHeap_gapped]) hplace
  have hkept : s'.footer (pos - 4) = (s.gapped pos 4).footer (pos - 4) :=
    footer_off hok.2.1.off (by omega)
  rw [hkept, hfoot]

/-- A hole with room for the gap: the block lies behind it, with the size asked for, and a rest needs
an index entry. -/
theorem carve_behind (hp : pos % 4096 ≤ 4084) (hw : gapSize true pos + (size + 8) ≤ n) :
    s'.header (pos + gapSize true pos) = ⟨0x1FF, false, size + 8⟩ ∧
      (gapSize true pos + (size + 8) + 8 ≤ n → s.index.size + 1 < s.index.capacity) := by
  have hlt : n < 4194304 := hn ▸ header_size_lt _ _
  have hg : gapSize true pos = 4092 - pos % 4096 := rfl
  obtain ⟨hpp, hplace⟩ := carve_page hi hcap hpos hn hlo hb htop hc (by omega) (by omega)
  obtain ⟨hr, ht⟩ := writeBlock_ok s true (x := pos) (n := gapSize true pos) (by omega) (by omega)
  have hhd : ((s.writeBlock pos (gapSize true pos) true).header pos).size = gapSize true pos :=
    congrArg Header.size ht.header
  replace hplace := hplace (by omega)
  rw [gapped_block hlo hp (by omega), hhd, sub32_eq (by omega) (by omega),
    show p - 4 = pos + gapSize true pos by omega] at hplace
  refine ⟨placeBlock_header (by omega) (by omega) (by omega) (by omega)
    (by rwa [toHeap_writeBlock]) hplace, fun hrest => ?_⟩
  rw [placeBlock_split (by omega) (by omega) (by rw [toHeap_writeBlock]; omega)
    (by rw [toHeap_writeBlock]; omega)] at hplace
  obtain ⟨t, hins, -⟩ := bind_ok.1 hplace
  have hroom := indexInsert_room (by simpa only [toHeap_writeBlock] using hcap) hins
  simpa only [toHeap_writeBlock] using hroom

end

end HeapState

section
variable {s s' : HeapState} {bs : List Block} {i size rounds p : Nat} {fresh : Mem}

theorem AllTagged.footer_pos {m : Mem} {a x : Nat} {l : List Block} (h : AllTagged m a l)
    (hx : x = a + extent Block.size l) (hl : a < x) : 0 < (footer m (x - 4)).size := by
  rcases List.eq_nil_or_concat l with rfl | ⟨l', c, rfl⟩
  · simp only [extent_nil, Nat.add_zero] at hx
    omega
  · rw [List.concat_eq_append, allTagged_append, allTagged_single] at h
    rw [List.concat_eq_append, extent_append, extent_cons, extent_nil] at hx
    have hsize := h.2.size
    rw [show a + extent Block.size l' + c.size - 4 = x - 4 by omega] at hsize
    rw [hsize]
    exact Nat.lt_of_lt_of_le (by decide) h.2.least

theorem AllTagged.piece {m : Mem} {a : Nat} {l : List Block} (h : AllTagged m a l)
    (hl : l = [] ∨ ∃ k, l = [⟨true, k⟩]) : extent Block.size l = 0 ∨ 8 ≤ extent Block.size l := by
  rcases hl with rfl | ⟨k, rfl⟩
  · exact .inl rfl
  · rw [allTagged_single] at h
    exact .inr (by simpa using h.least)

/-- **A page-aligned block that cuts its hole well** leaves a gap and a rest with room for tags. -/
theorem Laid.align_needed (h : Laid s bs) (hp : PageBounds s)
    (hf : s.findSmallestHole (size + 8) true = some i)
    (ha : s.allocN rounds size true fresh = .ok (p, s'))
    (hA : AlignedCut s s' bs (s.index.array i) size p) : s.AlignOk i size := by
  have hsz := HeapState.size_le_of_allocN ha
  obtain ⟨hi, hit, hmem, hfit⟩ := h.found_hole hsz hf
  have hbd := h.hole_bounds hmem
  rw [HeapState.allocN_some hsz hf] at ha
  have htop : s.endAddress + 4096 ≤ 4294967296 := by
    have := h.top
    have := hp.endPage
    omega
  have hstart := hp.startPage
  obtain ⟨-, -, l, r, n, before, b, after, rfl, hl, hbf, haf, hpe, hb, hext, htags, hoff⟩ := hA
  have hn : (s.header (s.index.array i)).size = n := by
    refine congrArg Header.size (h.tags (_, ⟨true, n⟩) ?_).header
    exact mem_place_iff.2 ⟨l, r, rfl, hl⟩
  rw [show (header s.mem (s.index.array i)).size = n from hn] at hbd
  rw [hn] at hfit
  unfold HeapState.AlignOk
  rw [hn]
  generalize s.index.array i = pos at *
  have hoffs : gapOffset true pos = 4096 - (pos + 4) % 4096 := rfl
  have hg : gapSize true pos = 4092 - pos % 4096 := rfl
  obtain ⟨hpp, -⟩ :=
    HeapState.carve_page hi h.slots hit hn hbd.1 hbd.2.2.2 htop ha (by omega) (by omega)
  rw [allTagged_append, allTagged_append, allTagged_append, allTagged_cons, ← hl] at htags
  obtain ⟨⟨htl, htb, hblock, hta⟩, -⟩ := htags
  have hgap := htb.piece hbf
  have hrest := hta.piece haf
  have hlow : pos % 4096 ≤ 4084 := by
    by_contra hhi
    -- no gap at all: the payload is on the next page already
    have hlost := HeapState.carve_below hi h.slots hit hn hbd.1 hbd.2.2.2 htop ha (by omega)
      (by omega)
    have hkept := htl.footer_pos hl (by omega)
    rw [show (footer s'.mem (pos - 4)).size = 0 from hlost] at hkept
    exact Nat.lt_irrefl 0 hkept
  obtain ⟨hhd, hroom⟩ :=
    HeapState.carve_behind hi h.slots hit hn hbd.1 hbd.2.2.2 htop ha hlow (by omega)
  have hbs : b = size + 8 := by
    have he := hblock.header
    rw [show pos + extent Block.size before = pos + gapSize true pos by omega] at he
    exact congrArg Header.size (he.symm.trans hhd)
  exact ⟨fun _ => ⟨hlow, by omega⟩, fun hne => hroom (by omega)⟩

/-- **Page-aligned allocation from a hole**: the call returns a block that cuts the hole well exactly
when the gap and the rest can hold their tags and the index can take the rest. -/
theorem Laid.aligned_alloc (h : Laid s bs) (hp : PageBounds s)
    (hf : s.findSmallestHole (size + 8) true = some i) (rounds : Nat) (fresh : Mem) :
    (∃ p s', s.allocN rounds size true fresh = .ok (p, s') ∧
      AlignedCut s s' bs (s.index.array i) size p) ↔ size ≤ 0x400000 ∧ s.AlignOk i size := by
  constructor
  · rintro ⟨p, s', ha, hA⟩
    exact ⟨HeapState.size_le_of_allocN ha, h.align_needed hp hf ha hA⟩
  · rintro ⟨hsz, hok⟩
    exact h.aligned_cut hsz hf hok rounds fresh

/-- A first page-aligned block from a new heap. -/
theorem aligned_alloc_new : ∃ s i p s', Laid s [⟨true, 0x7F000⟩] ∧
    s.allocN 0 16 true (fun _ => 0) = .ok (p, s') ∧
    AlignedCut s s' [⟨true, 0x7F000⟩] (s.index.array i) 16 p := by
  obtain ⟨s, hst, hwf, -⟩ := new_heap
  obtain ⟨i, hi, hpos, hf⟩ := @WF.found s [] [] _ _ 16 true hwf
    (hst.symm : 0xC0081000 = _) (by decide) (by decide) (by simp)
  have hn := (WF.mem_index (l := []) (r := []) hwf (hst.symm : 0xC0081000 = _)).2
  rw [OrderedArray.items_getElem] at hpos
  have hone := hwf.index_size_le
  have hcap := hwf.capacity
  simp only [List.length_singleton] at hone
  have hok : s.AlignOk i 16 := by
    unfold HeapState.AlignOk
    rw [hpos, hn]
    exact ⟨by decide, fun _ => by omega⟩
  obtain ⟨p, s', ha, hA⟩ :=
    (hwf.laid.aligned_alloc hwf.pageBounds hf 0 fun _ => 0).2 ⟨by decide, hok⟩
  exact ⟨s, i, p, s', hwf.laid, ha, hA⟩

/-- **A gap too small for its tags**: in a new heap, a block of 4085 bytes leaves a hole whose header
is three bytes before the end of its page. A page-aligned block of 16 bytes is found there, and
does not cut it well. -/
theorem small_gap_cut : ∃ s₀ p₀ s bs i,
    Heap.create 0xC0000000 0xC0100000 0xCFFFF000 false false (fun _ => 0) Frames.blank = .ok s₀ ∧
    s₀.allocN 0 4085 false (fun _ => 0) = .ok (p₀, s) ∧ Laid s bs ∧ PageBounds s ∧
    s.findSmallestHole (16 + 8) true = some i ∧
    ¬ ∃ p s', s.allocN 0 16 true (fun _ => 0) = .ok (p, s') ∧
      AlignedCut s s' bs (s.index.array i) 16 p := by
  obtain ⟨s₀, hst, hwf₀, hs₀⟩ := new_heap
  obtain ⟨s, ha, hr, hwf⟩ := @WF.alloc_at s₀ [] [] _ _ 4085 false 0 (fun _ => 0) hwf₀ rfl
    (by decide) (show 4085 + 8 + 0 ≤ _ by decide) nofun (by simp) (by decide)
  rw [show gapSize false _ = 0 from rfl, carved_zero, if_neg (by decide)] at hwf
  simp only [List.nil_append, List.append_nil] at hwf
  have hpos : 0xC0081FFD = s.startAddress + extent Block.size [⟨false, 4093⟩] := by
    rw [hr.startAddress, hst]
    rfl
  obtain ⟨i, hi, hpi, hf⟩ := @WF.found s [⟨false, 4093⟩] [] _ _ 16 true hwf hpos (by decide)
    (by decide) (by simp)
  rw [OrderedArray.items_getElem] at hpi
  refine ⟨s₀, _, s, _, i, hs₀, ha, hwf.laid, hwf.pageBounds, hf, ?_⟩
  rintro ⟨p, s', ha', hA⟩
  have hok := (hwf.laid.align_needed hwf.pageBounds hf ha' hA).1 rfl
  rw [hpi] at hok
  exact absurd hok.1 (by decide)

end

end Dmanix
