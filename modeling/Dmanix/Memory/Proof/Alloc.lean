import Dmanix.Memory.Proof.Grow

/-!
# `Alloc`

Under `AllocOk` a call of `Alloc` that returns turns one hole into the new block, whatever it had
to grow first, and leaves every byte of the other allocations alone (`WF.allocN_ok`). Growth keeps
`AllocOk` (`WF.allocOk_grow`), which carries the induction over the rounds.
-/

namespace Dmanix

open Word32 Bytes Tiling

/-- The bytes of the blocks `as` are the same in both memories. -/
def SameOn (as : List (Nat × Nat)) (m m' : Mem) : Prop :=
  ∀ p ∈ as, ∀ x, p.1 ≤ x → x < p.1 + p.2 → m' x = m x

theorem SameOn.trans {as : List (Nat × Nat)} {m m' m'' : Mem} (h : SameOn as m m')
    (h' : SameOn as m' m'') : SameOn as m m'' :=
  fun p hp x h1 h2 => (h' p hp x h1 h2).trans (h p hp x h1 h2)

/-- Blocks outside a range that was written. -/
theorem SameOn.of_off {lo hi a : Nat} {m m' : Mem} {bs : List Block} (ho : Off lo hi m m')
    (hb : a + extent Block.size bs ≤ lo ∨ hi ≤ a) : SameOn (allocs a bs) m m' := by
  rintro ⟨x, n⟩ hp y h1 h2
  have := place_bounds (mem_allocs.1 hp)
  simp only at this h1 h2
  exact ho y (by omega)

theorem SameOn.append {as as' : List (Nat × Nat)} {m m' : Mem} (h : SameOn as m m')
    (h' : SameOn as' m m') : SameOn (as ++ as') m m' :=
  fun p hp => (List.mem_append.1 hp).elim (h p) (h' p)

/-! ## The rounds -/

namespace HeapState

variable {s : HeapState} {rounds size : Nat} {pageAlign : Bool} {fresh : Mem}

theorem size_le_of_allocN {r : Nat × HeapState}
    (h : s.allocN rounds size pageAlign fresh = .ok r) : size ≤ 4194304 := by
  unfold allocN at h
  obtain ⟨u, hsz, -⟩ := bind_ok.1 h
  rwa [assert_ok, decide_eq_true_iff] at hsz

theorem allocN_some {i : Nat} (hs : size ≤ 4194304)
    (hf : s.findSmallestHole (size + 8) pageAlign = some i) :
    s.allocN rounds size pageAlign fresh = s.carve i size (size + 8) pageAlign := by
  unfold allocN
  rw [decide_eq_true hs, show add32 size 8 = size + 8 from add32_eq (by omega)]
  simp only [hf, assert_true, bind, Except.bind]

theorem allocN_zero (hs : size ≤ 4194304)
    (hf : s.findSmallestHole (size + 8) pageAlign = none) :
    s.allocN 0 size pageAlign fresh = s.lift (.error .hang) := by
  unfold allocN
  rw [decide_eq_true hs, show add32 size 8 = size + 8 from add32_eq (by omega)]
  simp only [hf, assert_true, bind, Except.bind]

theorem allocN_succ (hs : size ≤ 4194304)
    (hf : s.findSmallestHole (size + 8) pageAlign = none) :
    s.allocN (rounds + 1) size pageAlign fresh = (do
      let t ← s.grow (size + 8) fresh
      t.allocN rounds size pageAlign fresh) := by
  rw [allocN]
  rw [decide_eq_true hs, show add32 size 8 = size + 8 from add32_eq (by omega)]
  simp only [hf, assert_true, bind, Except.bind]

end HeapState

/-- The limits `Alloc` leaves a heap, and where it writes. -/
structure Widened (s s' : HeapState) : Prop where
  start : s'.startAddress = s.startAddress
  max : s'.maxAddress = s.maxAddress
  grows : s.endAddress ≤ s'.endAddress
  limit : s.endAddress ≤ s.maxAddress → s'.endAddress ≤ s'.maxAddress
  off : Off s.startAddress s'.endAddress s.mem s'.mem

theorem Widened.trans {s s' s'' : HeapState} (h : Widened s s') (h' : Widened s' s'') :
    Widened s s'' := by
  refine ⟨h'.start.trans h.start, h'.max.trans h.max, h.grows.trans h'.grows, fun hle => ?_, ?_⟩
  · exact h'.limit (h.limit hle)
  · exact (h.off.mono (Nat.le_refl _) h'.grows).trans (h'.off.mono h.start.ge (Nat.le_refl _))

/-- What a call that returned `p` for `size` bytes did to the heap. -/
structure Allocated (s s' : HeapState) (bs bs' : List Block) (size p : Nat) (pageAlign : Bool) :
    Prop extends Widened s s' where
  wf : WF s' bs'
  above : 4 ≤ p
  aligned : pageAlign = true → p % 4096 = 0
  block : ∃ n, size + 8 ≤ n ∧
    (allocs s'.startAddress bs').Perm ((p - 4, n) :: allocs s.startAddress bs)
  same : SameOn (allocs s.startAddress bs) s.mem s'.mem

section
variable {s s' : HeapState} {bs : List Block}

/-- Cutting the hole that was found. -/
theorem WF.carve_allocated (h : WF s bs) {i size p : Nat} {pageAlign : Bool}
    (hsz : size ≤ 4194304) (hf : s.findSmallestHole (size + 8) pageAlign = some i)
    (hs : SplitOk pageAlign (s.index.array i) (s.header (s.index.array i)).size (size + 8))
    (hc : s.carve i size (size + 8) pageAlign = .ok (p, s')) :
    ∃ bs', Allocated s s' bs bs' size p pageAlign := by
  obtain ⟨hi, hfit, -⟩ := HeapState.findSmallestHole_some.1 hf
  have hx : s.index.items[i] ∈ s.index.items := List.getElem_mem hi
  have hit : s.index.items[i] = s.index.array i := OrderedArray.items_getElem hi
  rw [h.laid.fits_iff hx (by omega), hit] at hfit
  have hgap : gapSize pageAlign (s.index.array i) + (size + 8) ≤
      (s.header (s.index.array i)).size := by
    have hle : gapSize pageAlign (s.index.array i) ≤ gapOffset pageAlign (s.index.array i) := by
      unfold gapSize gapOffset
      split <;> omega
    have : (s.header (s.index.array i)).size = (header s.mem (s.index.array i)).size := rfl
    omega
  obtain ⟨l, r, rfl, hl, rfl, hr, hlaid, -⟩ := h.laid.carve_ok hi hit rfl rfl hgap hs hc
  have hwf := hlaid.wf h.toTiled hr
  have hb := blockSize_cases (n := (s.header (s.index.array i)).size -
    gapSize pageAlign (s.index.array i)) (w := size + 8) (by omega)
  have hst := hr.startAddress
  have hen := hr.endAddress
  have hmx := hr.maxAddress
  have hw : Widened s s' := by
    refine ⟨hst, hmx, hen.ge, fun hle => ?_, hr.off.mono (by omega) ?_⟩
    · rwa [hen, hmx]
    · have hf := h.fills
      rw [extent_append, extent_cons] at hf
      simp only at hf
      omega
  refine ⟨_, hw, hwf, by omega, fun ha => ?_, ⟨_, hb.1, ?_⟩, ?_⟩
  · have := (hs ha).1
    subst ha
    unfold gapSize
    rw [if_pos rfl]
    omega
  · rw [hr.startAddress, allocs_append, allocs_append, allocs_carved, allocs_append, allocs_cons,
      extent_carved hgap, ← hl]
    simp
  · rw [allocs_append, allocs_cons, ← hl]
    refine .append (.of_off hr.off (.inl (by omega))) ?_
    exact SameOn.of_off hr.off (.inr (Nat.le_refl _))

/-- **Growth keeps the condition**: afterwards the last space is found, or is the one to grow. -/
theorem WF.allocOk_grow (h : WF s bs) {size : Nat} {pageAlign : Bool} {fresh : Mem}
    (hsz : size ≤ 4194304) (hf : s.findSmallestHole (size + 8) pageAlign = none)
    (hok : s.AllocOk size pageAlign) (hg : s.grow (size + 8) fresh = .ok s') :
    s'.AllocOk size pageAlign ∧ ∃ bs', WF s' bs' ∧ Widened s s' ∧
      allocs s'.startAddress bs' = allocs s.startAddress bs ∧
      SameOn (allocs s.startAddress bs) s.mem s'.mem := by
  have hgw : growth (size + 8) = ((size + 8) / 4096 + 1) * 4096 := rfl
  unfold HeapState.AllocOk at hok
  rw [hf] at hok
  obtain ⟨⟨he, h22, h32⟩, hsplit⟩ := hok
  have hneed : s.needed (size + 8) pageAlign = growth (size + 8) ∨
      s.needed (size + 8) pageAlign = 2 * growth (size + 8) := by
    unfold HeapState.needed
    split
    · exact .inl rfl
    · exact .inr rfl
  generalize hx : s.lastSpace.1 = x at *
  generalize hn : s.lastSpace.2 = n at *
  obtain ⟨l, rfl, hl, hwf, hgr, hit⟩ :=
    h.grow_ok (x := x) (n := n) (by omega) (by rw [← hx, ← hn]) he (by omega) (by omega) hg
  have hlt : Tagged s'.mem x ⟨true, n + growth (size + 8)⟩ := by
    have := hwf.tags
    rw [allTagged_append, allTagged_single, hgr.startAddress, ← hl] at this
    exact this.2
  have hhd : (s'.header x).size = n + growth (size + 8) := by
    rw [HeapState.header, hlt.header]
  have hsp : s'.lastSpace = (x, n + growth (size + 8)) := by
    rw [HeapState.lastSpace, hgr.last]
    simp only [hhd]
  have hxmem : x ∈ s'.index.items := (HeapState.lastHole_some hgr.last).1
  -- the other holes are as small as before
  have hother : ∀ y ∈ s'.index.items, y ≠ x → ¬ s'.fits (size + 8) pageAlign y = true := by
    intro y hy hyx
    have hys : y ∈ s.index.items := by
      rw [hit] at hy
      split at hy
      · exact absurd (List.mem_singleton.1 hy) hyx
      · exact hy
    have hle := (HeapState.lastHole_some hgr.last).2 y hy
    have hb := hwf.laid.hole_bounds hy
    have hap := hwf.laid.hole_apart hy hxmem (by omega)
    rw [hwf.laid.fits_iff hy (by omega), header_off hgr.off (.inl (by omega)),
      ← h.laid.fits_iff hys (by omega)]
    exact HeapState.findSmallestHole_none.1 hf y hys
  have hxfits : s'.fits (size + 8) pageAlign x = true ↔
      size + 8 + gapOffset pageAlign x ≤ n + growth (size + 8) := by
    rw [hwf.laid.fits_iff hxmem (by omega), ← hhd]
    rfl
  have hw : Widened s s' := ⟨hgr.startAddress, hgr.maxAddress, by rw [hgr.endAddress]; omega,
    fun _ => hgr.limit, hgr.off.mono (by omega) (Nat.le_refl _)⟩
  refine ⟨?_, _, hwf, hw, ?_, ?_⟩
  · unfold HeapState.AllocOk
    split
    · rename_i i hi
      obtain ⟨hlen, hfit, -⟩ := HeapState.findSmallestHole_some.1 hi
      have hix : s'.index.items[i] = x := by
        by_contra hne
        exact hother _ (List.getElem_mem hlen) hne hfit
      have hfx : size + 8 + gapOffset pageAlign x ≤ n + growth (size + 8) :=
        hxfits.1 (hix ▸ hfit)
      rw [← OrderedArray.items_getElem hlen, hix, hhd]
      rwa [HeapState.needed, hx, hn, if_pos hfx] at hsplit
    · rename_i hnone
      have hfx : ¬ size + 8 + gapOffset pageAlign x ≤ n + growth (size + 8) :=
        fun hle => HeapState.findSmallestHole_none.1 hnone x hxmem (hxfits.2 hle)
      have hgo : gapOffset pageAlign x ≤ 4096 := by
        unfold gapOffset
        split <;> omega
      have hnd : s'.needed (size + 8) pageAlign = growth (size + 8) := by
        rw [HeapState.needed, hsp]
        exact if_pos (show size + 8 + gapOffset pageAlign x ≤
          n + growth (size + 8) + growth (size + 8) by omega)
      have hnd0 : s.needed (size + 8) pageAlign = 2 * growth (size + 8) := by
        rw [HeapState.needed, hx, hn, if_neg hfx]
      have hend := hgr.endAddress
      rw [hnd0] at hsplit h22 h32
      unfold HeapState.GrowOk
      rw [hsp, hnd]
      simp only
      rw [show n + growth (size + 8) + growth (size + 8) = n + 2 * growth (size + 8) by omega]
      exact ⟨⟨by omega, h22, by omega⟩, hsplit⟩
  · rw [hgr.startAddress, allocs_append, allocs_append]
    split <;> simp [allocs_cons]
  · rw [allocs_append]
    refine .append (.of_off hgr.off (.inl hl.ge)) ?_
    split <;> exact fun p hp => by simp [allocs_cons] at hp

/-- **`Alloc`.** A call that returns takes the block from one hole, grown first if need be. -/
theorem WF.allocN_ok {size p : Nat} {pageAlign : Bool} {fresh : Mem} : ∀ (rounds : Nat)
    {s : HeapState} {bs : List Block}, WF s bs → s.AllocOk size pageAlign →
    s.allocN rounds size pageAlign fresh = .ok (p, s') →
    ∃ bs', Allocated s s' bs bs' size p pageAlign := by
  intro rounds
  induction rounds with
  | zero =>
    intro s bs h hok ha
    have hsz := HeapState.size_le_of_allocN ha
    unfold HeapState.AllocOk at hok
    cases hf : s.findSmallestHole (size + 8) pageAlign with
    | some i =>
      rw [hf] at hok
      rw [HeapState.allocN_some hsz hf] at ha
      exact h.carve_allocated hsz hf hok ha
    | none =>
      rw [HeapState.allocN_zero hsz hf] at ha
      cases ha
  | succ rounds ih =>
    intro s bs h hok ha
    have hsz := HeapState.size_le_of_allocN ha
    cases hf : s.findSmallestHole (size + 8) pageAlign with
    | some i =>
      unfold HeapState.AllocOk at hok
      rw [hf] at hok
      rw [HeapState.allocN_some hsz hf] at ha
      exact h.carve_allocated hsz hf hok ha
    | none =>
      rw [HeapState.allocN_succ hsz hf] at ha
      obtain ⟨t, hg, ha⟩ := bind_ok.1 ha
      obtain ⟨hok', bs', hwf, hw, hal, hsame⟩ := h.allocOk_grow hsz hf hok hg
      obtain ⟨bs'', hA⟩ := ih hwf hok' ha
      have hA1 := hA.block
      have hA2 := hA.same
      rw [hal] at hA1 hA2
      exact ⟨bs'', hw.trans hA.toWidened, hA.wf, hA.above, hA.aligned, hA1, hsame.trans hA2⟩

end

end Dmanix
