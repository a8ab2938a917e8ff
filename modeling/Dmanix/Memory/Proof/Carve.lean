import Dmanix.Memory.Proof.Search
import Mathlib.Data.List.Perm.Basic

/-!
# Allocating from a hole

`Alloc` cuts the hole it found into an optional gap before the payload's page, the block and an
optional rest (`carved`). `carve_plain` and `carve_aligned` write `carve` as the stores and index
calls it makes; `carve_ok`: where the cut leaves no piece too small for its own tags (`SplitOk`)
the pieces are tagged and the index gets the rest in place of the hole.
-/

namespace Dmanix

open Word32 Bytes Tiling

/-- The size of the block cut from `n` bytes: a rest too small for its tags is added to it. -/
def blockSize (n newSize : Nat) : Nat := if n - newSize < 8 then n else newSize

/-- What is left of `n` bytes behind a block of `b`. -/
def restOf (n b : Nat) : List Block := if n = b then [] else [⟨true, n - b⟩]

/-- The blocks made of a hole of `n` bytes. -/
def carved (n newSize gap : Nat) : List Block :=
  (if gap = 0 then [] else [⟨true, gap⟩]) ++
    ⟨false, blockSize (n - gap) newSize⟩ :: restOf (n - gap) (blockSize (n - gap) newSize)

theorem blockSize_cases {n w : Nat} (h : w ≤ n) :
    w ≤ blockSize n w ∧ (n = blockSize n w ∨ blockSize n w + 8 ≤ n) := by
  unfold blockSize
  split <;> omega

theorem extent_restOf (n b : Nat) : extent Block.size (restOf n b) = n - b := by
  unfold restOf
  split
  · subst n; simp
  · simp

theorem extent_carved {n w gap : Nat} (h : gap + w ≤ n) :
    extent Block.size (carved n w gap) = n := by
  have hb := blockSize_cases (n := n - gap) (w := w) (by omega)
  unfold carved
  rw [extent_append, extent_cons, extent_restOf]
  split <;> simp <;> omega

theorem holes_restOf (a n b : Nat) : holes a (restOf n b) = if n = b then [] else [a] := by
  unfold restOf
  split <;> simp [holes_cons]

theorem allocs_restOf (a n b : Nat) : allocs a (restOf n b) = [] := by
  unfold restOf
  split <;> simp [allocs_cons]

theorem allocs_carved (a n w gap : Nat) :
    allocs a (carved n w gap) = [(a + gap, blockSize (n - gap) w)] := by
  unfold carved
  rw [allocs_append, allocs_cons, allocs_restOf]
  split <;> simp_all [allocs_cons]

/-- The holes among the pieces: the gap, at the hole's address, and the rest. -/
theorem holes_carved (a n w gap : Nat) : holes a (carved n w gap) =
    (if gap = 0 then [] else [a]) ++ if n - gap = blockSize (n - gap) w then []
      else [a + gap + blockSize (n - gap) w] := by
  unfold carved
  rw [holes_append, holes_cons, holes_restOf]
  split <;> simp_all [holes_cons]

namespace HeapState

/-! ## The block and the rest -/

variable {s s' : HeapState} {pos n : Nat}

theorem placeBlock_exact (hn : 8 ≤ n) (hb : pos + n < 4294967296) :
    s.placeBlock pos n (n - 8) n = .ok (pos + 4, s.writeBlock pos n false) := by
  unfold placeBlock
  rw [show add32 pos 4 = pos + 4 from add32_eq (by omega),
    show add32 (pos + 4) (n - 8) = pos + n - 4 by rw [add32_eq (by omega)]; omega,
    show sub32 n n = 0 from (sub32_eq_zero (by omega) (by omega)).2 rfl]
  rfl

theorem placeBlock_split {w : Nat} (hw : 8 ≤ w) (hn : w + 8 ≤ n) (hb : pos + n ≤ s.endAddress)
    (ht : s.endAddress < 4294967296) : s.placeBlock pos n (w - 8) w = do
      let s' ← ((s.writeBlock pos w false).writeBlock (pos + w) (n - w) true).indexInsert (pos + w)
      return (pos + 4, s') := by
  unfold placeBlock
  have h4 : add32 pos 4 = pos + 4 := add32_eq (by omega)
  have hf : add32 (pos + 4) (w - 8) = pos + w - 4 := by rw [add32_eq (by omega)]; omega
  have hh : add32 (pos + w - 4) 4 = pos + w := by rw [add32_eq (by omega)]; omega
  have hs : sub32 n w = n - w := sub32_eq (by omega) (by omega)
  have hff : sub32 (add32 (pos + w) (n - w)) 4 = pos + w + (n - w) - 4 := by
    rw [add32_eq (by omega), sub32_eq (by omega) (by omega)]
  simp only [h4, hf, hh, hs, hff, toHeap_storeHeader, toHeap_sealFooter]
  rw [if_pos (by omega), if_pos (show pos + w + (n - w) - 4 < s.endAddress by omega)]
  rfl

/-- **The block and the rest are tagged**, and the index gets the rest. -/
theorem placeBlock_ok {w p : Nat} (hw : 8 ≤ w) (hn : n = w ∨ w + 8 ≤ n) (hn22 : n < 4194304)
    (hb : pos + n ≤ s.endAddress) (ht : s.endAddress < 4294967296)
    (hi : s.index.size < s.index.capacity) (hc : s.placeBlock pos n (w - 8) w = .ok (p, s')) :
    p = pos + 4 ∧ Rewrote s s' pos (pos + n) ∧
      AllTagged s'.mem pos (⟨false, w⟩ :: restOf n w) ∧ s'.index.size < s'.index.capacity ∧
      s'.index.items = if n = w then s.index.items
        else s.index.items.orderedInsert (SizeLe s'.mem) (pos + w) := by
  rcases hn with rfl | hn
  · rw [placeBlock_exact hw (by omega)] at hc
    cases hc
    obtain ⟨hr, htag⟩ := writeBlock_ok s false hw hn22
    refine ⟨rfl, hr, ?_, hi, (if_pos rfl).symm⟩
    rw [restOf, if_pos rfl, allTagged_single]
    exact htag
  · rw [placeBlock_split hw hn hb ht] at hc
    obtain ⟨t, hins, hc⟩ := bind_ok.1 hc
    cases hc
    obtain ⟨hr1, ht1⟩ := writeBlock_ok s false (x := pos) hw (by omega)
    obtain ⟨hr2, ht2⟩ := writeBlock_ok (s.writeBlock pos w false) true (x := pos + w) (n := n - w)
      (by omega) (by omega)
    obtain ⟨hr3, hm3, hlt, hit⟩ := indexInsert_ok
      (s := (s.writeBlock pos w false).writeBlock (pos + w) (n - w) true) hi hins pos (pos + n)
    refine ⟨rfl, ((hr1.mono (Nat.le_refl _) (by omega)).trans
      (hr2.mono (by omega) (by omega))).trans hr3, ?_, hlt, ?_⟩
    · rw [restOf, if_neg (by omega), allTagged_cons, allTagged_single, hm3]
      exact ⟨ht1.off hr2.off (.inl (Nat.le_refl _)), ht2⟩
    · rw [if_neg (by omega)]
      exact hit

/-! ## The hole -/

theorem openGap_aligned {i : Nat} (hlo : 4096 ≤ pos) (hp : pos % 4096 ≤ 4084)
    (hb : pos + n < 4294967296) (hn : gapSize true pos ≤ n) : s.openGap i pos n true = .ok
      (s.writeBlock pos (gapSize true pos) true, pos + gapSize true pos, n - gapSize true pos) := by
  have hg : gapSize true pos = 4092 - pos % 4096 := rfl
  have hd : sub32 0x1000 (pos % 0x1000) = gapSize true pos + 4 := by
    rw [sub32_eq (by omega) (by omega)]; omega
  have hloc : sub32 (add32 pos (gapSize true pos + 4)) 4 = pos + gapSize true pos := by
    unfold add32 sub32; omega
  have hgap : sub32 (gapSize true pos + 4) 4 = gapSize true pos := by
    rw [sub32_eq (by omega) (by omega)]; omega
  have hf : sub32 (pos + gapSize true pos) 4 = pos + gapSize true pos - 4 :=
    sub32_eq (by omega) (by omega)
  have hpb : pageBits pos ≠ 0 := by rw [pageBits_eq (by omega)]; omega
  have hh : (s.writeBlock pos (gapSize true pos) true).header pos = ⟨0x1FF, true, gapSize true pos⟩ :=
    (writeBlock_ok s true (by omega) (by omega)).2.header
  unfold openGap
  rw [if_pos (by simpa using hpb)]
  simp only [hd, hloc, hgap, hf]
  rw [show (s.storeHeader pos ⟨0x1FF, true, gapSize true pos⟩).sealFooter
    (pos + gapSize true pos - 4) pos = s.writeBlock pos (gapSize true pos) true from rfl, hh,
    sub32_eq hn (by omega)]

section
variable {i size : Nat} (hi : i < s.index.items.length) (hcap : s.index.size ≤ s.index.capacity)
  (hn : (s.header s.index.items[i]).size = n)
include hi hcap hn

/-- `carve` without alignment: the hole leaves the index, the block takes its place. -/
theorem carve_plain (hw : size + 8 ≤ n) : s.carve i size (size + 8) false = (do
    let s' ← s.indexRemove i
    s'.placeBlock s.index.items[i] n (blockSize n (size + 8) - 8) (blockSize n (size + 8))) := by
  have hlk : s.index.lookup i = .ok s.index.items[i] := by
    rw [OrderedArray.items_getElem]
    exact OrderedArray.lookup_ok (by simpa using hi) hcap
  have hlt : n < 4194304 := hn ▸ header_size_lt _ _
  have hsub : sub32 n (size + 8) = n - (size + 8) := sub32_eq hw (by omega)
  have hadd : add32 size (n - (size + 8)) = n - 8 := by rw [add32_eq (by omega)]; omega
  unfold carve blockSize
  simp only [hlk, lift, Except.mapError, bind, Except.bind, hn, hsub, hadd, openGap,
    Bool.false_and, Bool.false_eq_true, if_false]
  cases s.indexRemove i with
  | error e => rfl
  | ok s' =>
    simp only [pure, Except.pure]
    by_cases hab : n - (size + 8) < 8
    · simp only [if_pos hab]
    · simp only [if_neg hab, Nat.add_sub_cancel]

/-- `carve` with alignment: the hole stays in the index as the gap, the block lies behind it. -/
theorem carve_aligned (hlo : 4096 ≤ s.index.items[i]) (hb : s.index.items[i] + n < 4294967296)
    (hs : SplitOk true s.index.items[i] n (size + 8)) :
    s.carve i size (size + 8) true =
      (s.writeBlock s.index.items[i] (gapSize true s.index.items[i]) true).placeBlock
        (s.index.items[i] + gapSize true s.index.items[i]) (n - gapSize true s.index.items[i])
        (blockSize (n - gapSize true s.index.items[i]) (size + 8) - 8)
        (blockSize (n - gapSize true s.index.items[i]) (size + 8)) := by
  have hlk : s.index.lookup i = .ok s.index.items[i] := by
    rw [OrderedArray.items_getElem]
    exact OrderedArray.lookup_ok (by simpa using hi) hcap
  have hlt : n < 4194304 := hn ▸ header_size_lt _ _
  obtain ⟨hp, hcut⟩ := hs rfl
  have hg : gapSize true s.index.items[i] = 4092 - s.index.items[i] % 4096 := rfl
  have hsub : sub32 n (size + 8) = n - (size + 8) := sub32_eq (by omega) (by omega)
  -- a hole with room for the gap is never absorbed
  have hab : ¬ n - (size + 8) < 8 := by omega
  have hbs : blockSize (n - gapSize true s.index.items[i]) (size + 8) = size + 8 := by
    unfold blockSize
    split <;> omega
  unfold carve
  simp only [hlk, lift, Except.mapError, bind, Except.bind, hn, hsub, hab, if_false]
  rw [openGap_aligned hlo hp hb (by omega), hbs, Nat.add_sub_cancel]

end

end HeapState

/-! ## The heap after a cut -/

/-- `carve` up to the block: the hole has left the index, or its gap is written. -/
theorem Laid.carve_start {s : HeapState} {bs : List Block} (h : Laid s bs) {i size pos n gap : Nat}
    {pageAlign : Bool} (hi : i < s.index.items.length) (hpos : s.index.items[i] = pos)
    (hn : (s.header pos).size = n) (hgap : gap = gapSize pageAlign pos) (hw : gap + (size + 8) ≤ n)
    (hs : SplitOk pageAlign pos n (size + 8)) :
    ∃ t, s.carve i size (size + 8) pageAlign = t.placeBlock (pos + gap) (n - gap)
        (blockSize (n - gap) (size + 8) - 8) (blockSize (n - gap) (size + 8)) ∧
      Rewrote s t pos (pos + n) ∧ t.index.size < t.index.capacity ∧
      t.index.size = (if gap = 0 then s.index.size - 1 else s.index.size) ∧
      t.index.items = (if gap = 0 then s.index.items.eraseIdx i else s.index.items) ∧
      AllTagged t.mem pos (if gap = 0 then [] else [⟨true, gap⟩]) := by
  have hx : pos ∈ s.index.items := hpos ▸ List.getElem_mem hi
  have hbd := h.hole_bounds hx
  have htop := h.top
  have hcap := h.slots
  have hi' : i < s.index.size := by simpa using hi
  have hn22 : n < 4194304 := hn ▸ header_size_lt _ _
  replace hbd : 4096 ≤ pos ∧ s.startAddress ≤ pos ∧ 8 ≤ n ∧ pos + n ≤ s.endAddress := hn ▸ hbd
  cases pageAlign with
  | false =>
    have hg : gap = 0 := hgap
    subst hg
    obtain ⟨idx, hit, hcp, hsz, hrem⟩ := HeapState.indexRemove_eq hi' hcap h.capacity
    refine ⟨{ s with index := idx }, ?_, ?_, ?_, hsz, hit, fun p hp => by cases hp⟩
    · rw [HeapState.carve_plain hi hcap.le (hpos ▸ hn) (by omega), hrem, hpos]
      rfl
    · exact Rewrote.withIndex s [] idx hcp _ _
    · show idx.size < idx.capacity
      omega
  | true =>
    have hp := (hs rfl).1
    have hg : gap = 4092 - pos % 4096 := hgap
    have h0 : gap ≠ 0 := by omega
    obtain ⟨hr, ht⟩ := writeBlock_ok s true (x := pos) (n := gap) (by omega) (by omega)
    refine ⟨s.writeBlock pos gap true, ?_, hr.mono (Nat.le_refl _) (by omega), hcap,
      (if_neg h0).symm, (if_neg h0).symm, ?_⟩
    · subst hgap
      have hc := @HeapState.carve_aligned s n i size hi hcap.le (hpos ▸ hn) (by omega)
        (by omega) (hpos ▸ hs)
      rw [hpos] at hc
      exact hc
    · rw [if_neg h0, allTagged_single]
      exact ht

theorem Laid.carve_returns {s : HeapState} {bs : List Block} (h : Laid s bs)
    {i size pos n gap : Nat} {pageAlign : Bool} (hi : i < s.index.items.length)
    (hpos : s.index.items[i] = pos) (hn : (s.header pos).size = n)
    (hgap : gap = gapSize pageAlign pos) (hw : gap + (size + 8) ≤ n)
    (hs : SplitOk pageAlign pos n (size + 8))
    (hroom : gap ≠ 0 → n ≠ gap + (size + 8) → s.index.size + 1 < s.index.capacity) :
    ∃ r, s.carve i size (size + 8) pageAlign = .ok r := by
  obtain ⟨t, hc, hr, -, hts, -, -⟩ := h.carve_start hi hpos hn hgap hw hs
  have hbd := h.hole_bounds (hpos ▸ List.getElem_mem hi)
  rw [show (header s.mem pos).size = n from hn] at hbd
  have htop := h.top
  have hslots := h.slots
  have hi' : i < s.index.size := by simpa using hi
  rw [hc]
  rcases (blockSize_cases (n := n - gap) (w := size + 8) (by omega)).2 with hb | hb
  · rw [← hb, HeapState.placeBlock_exact (by omega) (by omega)]
    exact ⟨_, rfl⟩
  · have htcap : t.index.size + 1 < t.index.capacity := by
      rw [hts, hr.capacity]
      split
      · omega
      · rename_i h0
        refine hroom h0 fun he => ?_
        have := (blockSize_cases (n := n - gap) (w := size + 8) (by omega)).1
        omega
    have hge := (blockSize_cases (n := n - gap) (w := size + 8) (by omega)).1
    rw [HeapState.placeBlock_split (by omega) hb (by rw [hr.endAddress]; omega)
      (by rw [hr.endAddress]; exact htop)]
    generalize blockSize (n - gap) (size + 8) = w at *
    generalize hu : (t.writeBlock (pos + gap) w false).writeBlock (pos + gap + w) (n - gap - w)
      true = u
    have hidx : u.index = t.index := by rw [← hu]; rfl
    obtain ⟨idx, -, -, -, he⟩ := HeapState.indexInsert_eq (s := u) (pos + gap + w)
      (by rw [hidx]; omega)
    rw [he, if_pos (by rw [hidx]; exact htcap)]
    exact ⟨_, rfl⟩

/-- The index after a cut: without the hole when there is no gap, with the rest if there is one. -/
def carvedIndex (m : Mem) (items : List Nat) (i pos n w gap : Nat) : List Nat :=
  let kept := if gap = 0 then items.eraseIdx i else items
  if n - gap = blockSize (n - gap) w then kept
  else kept.orderedInsert (HeapState.SizeLe m) (pos + gap + blockSize (n - gap) w)

theorem carvedIndex_perm {m : Mem} {items : List Nat} {i pos n w gap start : Nat} {l r : List Block}
    (hi : i < items.length) (hpos : items[i] = pos) (hl : pos = start + extent Block.size l)
    (hp : items.Perm (holes start (l ++ ⟨true, n⟩ :: r))) (hw : gap + w ≤ n) :
    (carvedIndex m items i pos n w gap).Perm (holes start (l ++ (carved n w gap ++ r))) := by
  have hcons : items.Perm (pos :: items.eraseIdx i) := by
    rw [← hpos]
    exact (List.getElem_cons_eraseIdx_perm hi).symm
  rw [holes_append, holes_cons, ← hl, if_pos rfl] at hp
  rw [holes_append, holes_append, holes_carved, extent_carved hw, ← hl]
  have hmid : items.Perm (pos :: (holes start l ++ holes (pos + n) r)) :=
    hp.trans List.perm_middle
  have herase : (items.eraseIdx i).Perm (holes start l ++ holes (pos + n) r) :=
    (List.perm_cons pos).1 (hcons.symm.trans hmid)
  -- the kept entries, with the rest last
  have hkept : (if gap = 0 then items.eraseIdx i else items).Perm
      (holes start l ++ ((if gap = 0 then [] else [pos]) ++ holes (pos + n) r)) := by
    split
    · simpa using herase
    · simpa using hp
  unfold carvedIndex
  simp only
  split
  · simpa using hkept
  · refine (List.perm_orderedInsert _ _ _).trans ((hkept.cons _).trans ?_)
    have hmove := (@List.perm_middle _ (pos + gap + blockSize (n - gap) w)
      (holes start l ++ if gap = 0 then [] else [pos]) (holes (pos + n) r)).symm
    simpa only [List.append_assoc, List.cons_append, List.nil_append] using hmove

/-- **A cut**: the hole's bytes become the pieces of `carved`. -/
theorem Laid.carve_ok {s s' : HeapState} {bs : List Block} (h : Laid s bs) {i size pos n gap p : Nat}
    {pageAlign : Bool} (hi : i < s.index.items.length) (hpos : s.index.items[i] = pos)
    (hn : (s.header pos).size = n) (hgap : gap = gapSize pageAlign pos) (hw : gap + (size + 8) ≤ n)
    (hs : SplitOk pageAlign pos n (size + 8))
    (hc : s.carve i size (size + 8) pageAlign = .ok (p, s')) :
    ∃ l r, bs = l ++ ⟨true, n⟩ :: r ∧ pos = s.startAddress + extent Block.size l ∧
      p = pos + gap + 4 ∧ Rewrote s s' pos (pos + n) ∧
      Laid s' (l ++ (carved n (size + 8) gap ++ r)) ∧
      s'.index.items = carvedIndex s'.mem s.index.items i pos n (size + 8) gap := by
  obtain ⟨t, hct, hrt, hit, -, hitems, htag⟩ := h.carve_start hi hpos hn hgap hw hs
  have hx : pos ∈ s.index.items := hpos ▸ List.getElem_mem hi
  obtain ⟨l, r, n', rfl, hl, hth⟩ := h.hole_split hx
  have hn' : n' = n := by rw [← hn, HeapState.header, hth.header]
  subst hn'
  have hbd := h.hole_bounds hx
  rw [show (header s.mem pos).size = n' from hn] at hbd
  have hb := blockSize_cases (n := n' - gap) (w := size + 8) (by omega)
  have hn22 : n' < 4194304 := hth.lt
  rw [hct] at hc
  obtain ⟨rfl, hr, htags, hslots, hitems'⟩ := HeapState.placeBlock_ok (by omega) hb.2 (by omega)
    (by rw [hrt.endAddress]; omega) (by rw [hrt.endAddress]; exact h.top) hit hc
  have hr' : Rewrote s s' pos (pos + n') := hrt.trans (hr.mono (by omega) (by omega))
  have hidx : s'.index.items = carvedIndex s'.mem s.index.items i pos n' (size + 8) gap := by
    rw [hitems', hitems]
    rfl
  have hmid : AllTagged s'.mem pos (carved n' (size + 8) gap) := by
    unfold carved
    rw [allTagged_append]
    refine ⟨htag.off hr.off (.inl ?_), ?_⟩
    · split <;> simp
    · by_cases h0 : gap = 0
      · simpa [h0] using htags
      · simpa [h0] using htags
  have h0 : Laid s (l ++ ([⟨true, n'⟩] ++ r)) := h
  refine ⟨l, r, rfl, hl, rfl, hr', h0.edit hl (by simp) hr' (by simp [extent_carved hw]) hmid hslots
    ?_, hidx⟩
  rw [hidx]
  exact carvedIndex_perm hi hpos hl h.index hw

end Dmanix
