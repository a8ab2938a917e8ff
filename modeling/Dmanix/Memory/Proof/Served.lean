import Dmanix.Memory.Proof.Stored

/-!
# Requests that are served

`Alloc` grows the heap and tries again without a bound. While pages, tables and frames are left, a
request is served within two growths when the last hole ends at `end_address` and stays below 2^22
bytes as it grows (`WF.served`, `served_run`). A request of 2^22 bytes is accepted and never served: no
hole has a size field for it (`never_served`).
-/

namespace Dmanix

open Word32 Bytes Tiling Paging

/-! ## Frames -/

theorem countP_but_one {g k : Nat → Bool} {f : Nat}
    (h : ∀ i, g i = true → k i = true ∨ i = f) : ∀ m : Nat,
    (List.range m).countP g ≤ (List.range m).countP k + if f < m then 1 else 0
  | 0 => Nat.zero_le _
  | m + 1 => by
    have ih := countP_but_one h m
    have hm := h m
    rw [List.range_succ, List.countP_append, List.countP_append, List.countP_singleton,
      List.countP_singleton]
    grind

theorem Bitset.clearBits_set {b b' : Bitset} {f : Nat} (hsz : b'.size = b.size)
    (hbit : ∀ i, b'.bit i = (i == f || b.bit i)) : b.clearBits ≤ b'.clearBits + 1 := by
  have hle := countP_but_one (g := fun i => !b.bit i) (k := fun i => !b'.bit i) (f := f) (fun i hi => by
    by_cases hf : i = f
    · exact .inr hf
    · rw [hbit, beq_false_of_ne hf]
      exact .inl hi) (32 * b.size)
  unfold clearBits
  rw [hsz]
  split at hle <;> omega

theorem Bitset.clearBits_from {b : Bitset} {k : Nat}
    (hbit : ∀ f < 32 * b.size, b.bit f = decide (f < k)) : b.clearBits = 32 * b.size - k := by
  unfold clearBits
  generalize 32 * b.size = n at *
  induction n with
  | zero => simp
  | succ n ih =>
    rw [List.range_succ, List.countP_append, List.countP_singleton, ih fun f hf => hbit f (by omega),
      hbit n (by omega)]
    by_cases hk : n < k
    · simp [hk]
      omega
    · simp [hk]
      omega

namespace HeapState

/-- The 16 MiB behind the heap have their tables, and there are frames for them. -/
structure Supplied (s : HeapState) : Prop where
  tables : ∀ a, s.endAddress ≤ a → a < s.endAddress + 0x1000000 →
    s.paging.kernelTable (a / 0x1000 / 1024) ≠ 0
  frames : 4096 ≤ s.paging.frames.clearBits
  room : s.endAddress + 0x1000000 ≤ s.maxAddress

theorem expandPages_clear {lo newSize : Nat} (supervisor readonly : Bool)
    (hhi : lo + newSize < 4294967296) : ∀ (m rounds i : Nat) (P : Paging),
      m ≤ P.frames.clearBits → newSize = i + 4096 * m →
      (∀ a, lo + i ≤ a → a < lo + newSize → P.kernelTable (a / 0x1000 / 1024) ≠ 0) →
      m < rounds → ∃ P', expandPages lo newSize supervisor readonly rounds i P = .ok P' ∧
        SameTables P P' ∧ P.frames.clearBits ≤ P'.frames.clearBits + m
  | _, 0, _, _, _, _, _, hr => absurd hr (Nat.not_lt_zero _)
  | 0, rounds + 1, i, P, _, hn, _, _ => by
    unfold expandPages
    rw [if_neg (by omega)]
    exact ⟨P, rfl, .refl P, Nat.le_refl _⟩
  | m + 1, rounds + 1, i, P, hk, hn, hT, hr => by
    have hadd : add32 lo i = lo + i := add32_eq (by omega)
    have hT' := hT (lo + i) (by omega) (by omega)
    obtain ⟨P₁, hP₁⟩ := allocFrame_ok (q := P.pageAt ((lo + i) / 0x1000)) (k := supervisor)
      (w := readonly) (show 0 < P.frames.clearBits by omega)
    have hs := allocFrame_same hP₁
    have hclear : P.frames.clearBits ≤ P₁.frames.clearBits + 1 := by
      by_cases h0 : (P.page (P.pageAt ((lo + i) / 0x1000))).frame = 0
      · obtain ⟨f, -, -, -, hsz, hbit, -⟩ := allocFrame_gives hP₁ h0
        exact Bitset.clearBits_set hsz hbit
      · rcases allocFrame_cases hP₁ with ⟨-, rfl⟩ | ⟨h0', -⟩
        · exact Nat.le_succ _
        · exact absurd h0' h0
    obtain ⟨P₂, hP₂, hs', hclear'⟩ := expandPages_clear supervisor readonly hhi m rounds (i + 0x1000)
      P₁ (by omega) (by omega) (fun a h1 h2 => by
        rw [hs.kernelTable]
        exact hT a (by omega) h2) (by omega)
    refine ⟨P₂, ?_, hs.trans hs', by omega⟩
    unfold expandPages
    rw [if_pos (by omega), hadd, getPage_kernel hT', ok_bind, hP₁, ok_bind,
      show add32 i 0x1000 = i + 0x1000 from add32_eq (by omega), hP₂]

end HeapState

/-! ## Growth returns -/

section
variable {s : HeapState} {bs : List Block} {x n w : Nat}

/-- The last space takes the new bytes, for pages that have tables and frames. -/
theorem WF.grow_returns (h : WF s bs) (hw : 0 < w) (hx : s.lastSpace = (x, n))
    (he : x + n = s.endAddress) (h22 : n + growth w < 4194304)
    (hlim : s.endAddress + growth w ≤ s.maxAddress) (hmax : s.maxAddress < 4294967296)
    (hT : ∀ a, s.endAddress ≤ a → a < s.endAddress + growth w →
      s.paging.kernelTable (a / 0x1000 / 1024) ≠ 0)
    (hP : growth w / 4096 ≤ s.paging.frames.clearBits) (fresh : Mem) :
    ∃ t, s.grow w fresh = .ok t ∧ SameTables s.paging t.paging ∧
      s.paging.frames.clearBits ≤ t.paging.frames.clearBits + growth w / 4096 := by
  have hroom := h.room
  have hsp := h.startPage
  have hep := h.endPage
  have hgw : growth w = (w / 4096 + 1) * 4096 := rfl
  obtain ⟨P, hP, hs, hclear⟩ := @HeapState.expandPages_clear s.startAddress
    (s.endAddress + growth w - s.startAddress) s.supervisor s.readonly (by omega)
    (growth w / 4096) 0x100001 (s.endAddress - s.startAddress) s.paging hP (by omega)
    (fun a h1 h2 => hT a (by omega) (by omega)) (by omega)
  have hgrow : s.grow w fresh = (s.extended P (growth w) fresh).addSpace s.endAddress (growth w) := by
    rw [h.toTiled.pageBounds.grow_eq hw (by omega), decide_eq_true hlim, HeapState.assert_true,
      ok_bind, hP]
    rfl
  rw [hgrow]
  cases hl : s.lastHole with
  | some y =>
    simp only [HeapState.lastSpace, hl, Prod.mk.injEq] at hx
    obtain ⟨rfl, hn⟩ := hx
    obtain ⟨hy, -⟩ := HeapState.lastHole_some hl
    obtain ⟨-, -, k, -, -, hT⟩ := h.laid.hole_split hy
    have hk : k = n := hn ▸ (congrArg Header.size hT.header).symm
    subst hk
    have h8 := hT.least
    have hhd : (s.extended P (growth w) fresh).header y = ⟨0x1FF, true, k⟩ :=
      (header_off (s.off_extended P (growth w) fresh) (.inl (by simp only at h8; omega))).trans
        hT.header
    rw [HeapState.addSpace_some (show (s.extended P (growth w) fresh).lastHole = some y from hl) hhd h8
      h22 (by omega)]
    exact ⟨_, rfl, hs, hclear⟩
  | none =>
    simp only [HeapState.lastSpace, hl, Prod.mk.injEq] at hx
    obtain ⟨rfl, rfl⟩ := hx
    have hnil : s.index.items = [] := HeapState.lastHole_none hl fun y hy => by
      have := (h.laid.hole_bounds hy).1
      omega
    have hsize : s.index.size = 0 := by
      rw [← OrderedArray.length_items, hnil]
      rfl
    have hcap := h.capacity
    rw [HeapState.addSpace_none (show (s.extended P (growth w) fresh).lastHole = none from hl)
      (by omega) (by omega) (by omega)]
    generalize hu : (s.extended P (growth w) fresh).writeBlock s.endAddress (growth w) true = u
    have hidx : u.index = s.index := by
      rw [← hu]
      rfl
    have hpag : u.paging = P := by
      rw [← hu]
      rfl
    obtain ⟨idx, -, -, -, hins⟩ := HeapState.indexInsert_eq (s := u) s.endAddress
      (by rw [hidx, hsize, hcap]; decide)
    rw [hins, if_pos (by rw [hidx, hsize, hcap]; decide)]
    have hpag' : (u.touchAll (u.compared s.endAddress)).paging = P := by
      rw [HeapState.paging_touchAll, hpag]
    exact ⟨_, rfl, hpag'.symm ▸ hs, by
      show _ ≤ (u.touchAll (u.compared s.endAddress)).paging.frames.clearBits + _
      rw [hpag']
      exact hclear⟩

/-- What a request needs that no hole can serve (module doc): room in the index, and a last space to
grow. -/
def HeapState.ServeOk (s : HeapState) (size : Nat) (pageAlign : Bool) : Prop :=
  s.index.size + 1 < s.index.capacity ∧
    (s.findSmallestHole (size + 8) pageAlign = none → s.GrowOk (size + 8) pageAlign)

variable {size : Nat} {pageAlign : Bool} {fresh : Mem}

theorem WF.served_found (h : WF s bs) (hsz : size ≤ 4194304)
    (hi : s.index.size + 1 < s.index.capacity)
    (hf : s.findSmallestHole (size + 8) pageAlign ≠ none) (rounds : Nat) :
    ∃ p t, s.allocN rounds size pageAlign fresh = .ok (p, t) := by
  obtain ⟨i, hf⟩ := Option.ne_none_iff_exists'.1 hf
  obtain ⟨hlen, -⟩ := HeapState.findSmallestHole_some.1 hf
  obtain ⟨p, t, ht, -⟩ := @HeapState.carve_room s i size (size + 8) pageAlign
    (by simpa using hlen) hi h.capacity.le
  exact ⟨p, t, (HeapState.allocN_some hsz hf).trans ht⟩

/-- The last space after growth: the whole hole, which fits when it is large enough. -/
structure Stretched (s t : HeapState) (bs' : List Block) (x n : Nat) : Prop where
  wf : WF t bs'
  space : t.lastSpace = (x, n)
  ends : x + n = t.endAddress
  max : t.maxAddress = s.maxAddress
  slots : t.index.size + 1 < t.index.capacity
  fits : ∀ size pageAlign, size ≤ 4194304 → size + 8 + gapOffset pageAlign x ≤ n →
    t.findSmallestHole (size + 8) pageAlign ≠ none

theorem WF.stretched {t : HeapState} (h : WF s bs) (hw : 0 < w) (hx : s.lastSpace = (x, n))
    (he : x + n = s.endAddress) (h22 : n + growth w < 4194304)
    (h32 : s.endAddress + growth w < 4294967296) (hi : s.index.size + 1 < s.index.capacity)
    (hg : s.grow w fresh = .ok t) : ∃ bs', Stretched s t bs' x (n + growth w) := by
  obtain ⟨l, -, hl, hwf, hgr, hit⟩ := h.grow_ok hw hx he h22 h32 hg
  have hxmem : x ∈ t.index.items := (HeapState.lastHole_some hgr.last).1
  have hhd : (t.header x).size = n + growth w := by
    have ht := hwf.tags
    rw [allTagged_append, allTagged_single, hgr.startAddress, ← hl] at ht
    exact congrArg Header.size ht.2.header
  have hsize : t.index.size = if n = 0 then 1 else s.index.size := by
    rw [← OrderedArray.length_items, hit]
    split
    · rfl
    · rw [OrderedArray.length_items]
  have hend := hgr.endAddress
  refine ⟨_, hwf, ?_, by omega, hgr.maxAddress, ?_, fun size pageAlign hsz hfit hnone => ?_⟩
  · rw [HeapState.lastSpace, hgr.last]
    simp only [hhd]
  · rw [hsize, hwf.capacity]
    rw [h.capacity] at hi
    split <;> omega
  · refine HeapState.findSmallestHole_none.1 hnone x hxmem ((hwf.laid.fits_iff hxmem (by omega)).2 ?_)
    rw [show (header t.mem x).size = _ from hhd]
    exact hfit

/-- **A request is served** within two growths. -/
theorem WF.served (h : WF s bs) (hS : s.Supplied) (hmax : s.maxAddress < 4294967296)
    (hsz : size ≤ 4194304) (hok : s.ServeOk size pageAlign) (fresh : Mem) :
    ∃ p t, s.allocN 2 size pageAlign fresh = .ok (p, t) := by
  obtain ⟨hi, hgrow⟩ := hok
  by_cases hf : s.findSmallestHole (size + 8) pageAlign = none
  · obtain ⟨he, h22, -⟩ := hgrow hf
    have hlim := hS.room
    have hframes := hS.frames
    have hgw : growth (size + 8) = ((size + 8) / 4096 + 1) * 4096 := rfl
    rcases hx : s.lastSpace with ⟨x, n⟩
    have hneed : s.needed (size + 8) pageAlign =
        if size + 8 + gapOffset pageAlign x ≤ n + growth (size + 8) then growth (size + 8)
        else 2 * growth (size + 8) := by
      rw [HeapState.needed, hx]
    rw [hx, hneed] at h22
    rw [hx] at he
    simp only at he h22
    have h22' : n + growth (size + 8) < 4194304 := by
      split at h22 <;> omega
    obtain ⟨t, ht, hs, hclear⟩ := h.grow_returns (by omega) hx he h22' (by omega) hmax
      (fun a h1 h2 => hS.tables a h1 (by omega)) (by omega) fresh
    obtain ⟨bs₁, h₁⟩ := h.stretched (by omega) hx he h22' (by omega) hi ht
    rw [HeapState.allocN_succ hsz hf, ht, ok_bind]
    by_cases hf₁ : t.findSmallestHole (size + 8) pageAlign = none
    · -- the gap takes a page more
      have hnot : ¬ size + 8 + gapOffset pageAlign x ≤ n + growth (size + 8) :=
        fun hfit => h₁.fits size pageAlign hsz hfit hf₁
      rw [if_neg hnot] at h22
      have hend := h₁.ends
      have hmax₁ := h₁.max
      obtain ⟨u, hu, -⟩ := h₁.wf.grow_returns (w := size + 8) (by omega) h₁.space hend (by omega)
        (by omega) (by omega) (fun a h1 h2 => by
          rw [hs.kernelTable]
          exact hS.tables a (by omega) (by omega)) (by omega) fresh
      obtain ⟨bs₂, h₂⟩ := h₁.wf.stretched (by omega) h₁.space hend (by omega) (by omega) h₁.slots hu
      have hgo : gapOffset pageAlign x ≤ 4096 := by
        unfold gapOffset
        split <;> omega
      rw [HeapState.allocN_succ hsz hf₁, hu, ok_bind]
      exact h₂.wf.served_found hsz h₂.slots (h₂.fits size pageAlign hsz (by omega)) 0
    · exact h₁.wf.served_found hsz h₁.slots hf₁ 1
  · exact h.served_found hsz hi hf 2

end

/-! ## The largest request -/

theorem HeapState.not_fits (s : HeapState) (pageAlign : Bool) (h : Nat) :
    ¬ s.fits (0x400000 + 8) pageAlign h = true := by
  have hlt : (s.header h).size < 4194304 := header_size_lt _ _
  have h32 : int32 (0x400000 + 8) = 4194312 := rfl
  unfold fits
  rw [h32]
  split
  · dsimp only
    rw [decide_eq_true_iff]
    split <;> omega
  · rw [decide_eq_true_iff]
    omega

theorem HeapState.never_returns (pageAlign : Bool) (fresh : Mem) (r : Nat × HeapState) :
    ∀ (rounds : Nat) (s : HeapState), s.allocN rounds 0x400000 pageAlign fresh ≠ .ok r
  | 0, s, h => by
    rw [allocN_zero (by decide) (findSmallestHole_none.2 fun y _ => s.not_fits pageAlign y)] at h
    cases h
  | rounds + 1, s, h => by
    rw [allocN_succ (by decide) (findSmallestHole_none.2 fun y _ => s.not_fits pageAlign y)] at h
    obtain ⟨t, -, h⟩ := bind_ok.1 h
    exact never_returns pageAlign fresh r rounds t h

namespace Clients

section
variable {c : Clients} {start endAddr max : Nat} {supervisor readonly : Bool} {mem : Mem} {P : Paging}
  {s : HeapState}

/-- **Requests are served** within two growths, in every state that a run of good calls on a new heap
reaches with 16 MiB, their tables and their frames left. -/
theorem served_run (hc : Heap.CreateOk start endAddr)
    (hs : Heap.create start endAddr max supervisor readonly mem P = .ok s)
    (hr : Guarded.Run Step CallOk ⟨s, []⟩ c) (hS : c.heap.Supplied)
    (hmax : c.heap.maxAddress < 4294967296) {size : Nat} (hsz : size ≤ 0x400000) {pageAlign : Bool}
    (hok : c.heap.ServeOk size pageAlign) (fresh : Mem) :
    ∃ p t, c.heap.allocN 2 size pageAlign fresh = .ok (p, t) := by
  obtain ⟨bs, h⟩ := held_run hc hs hr
  exact h.wf.served hS hmax hsz hok fresh

end

theorem new_supplied : ∃ M s, Kernel.memoryInitialize 1 (fun _ => 0) 65536 (Kernel.image 0x200000) =
      .ok M ∧
    Heap.create 0xC0000000 0xC0100000 0xCFFFF000 false false (fun _ => 0) M.paging = .ok s ∧
    s.Supplied ∧ s.maxAddress = 0xCFFFF000 ∧ s.endAddress = 0xC0100000 ∧ s.index.size = 1 ∧
    s.index.capacity = 0x20000 ∧ s.lastSpace = (0xC0081000, 0x7F000) := by
  obtain ⟨M, hM, -, hinit, K, k, hb, hk⟩ := Kernel.image_initialized
  obtain ⟨s, hs⟩ := Heap.create_returns 0xCFFFF000 false false (fun _ => 0) M.paging
    (show 0xC0000000 % 4096 = 0 by decide) (show 0xC0100000 % 4096 = 0 by decide)
  obtain ⟨hwf, hpag, hst, hen, hmax, -⟩ := Heap.create_ok (by decide) (by decide) (by decide) hs
  have hit : s.index.items = [0xC0081000] := by
    have hp := hwf.index
    rw [hst] at hp
    exact List.perm_singleton.1 (by simpa [holes_cons] using hp)
  have hh : s.header 0xC0081000 = ⟨0x1FF, true, 0x7F000⟩ := by
    have ht := hwf.tags
    rw [allTagged_single, hst] at ht
    exact ht.header
  refine ⟨M, s, hM, hs, ⟨fun a h1 h2 => ?_, ?_, ?_⟩, hmax, hen, ?_, hwf.capacity,
    Kernel.lastSpace_one hit (congrArg Header.size hh) (by decide)⟩
  · rw [hen] at h1 h2
    rw [hpag]
    exact hinit.held _ ⟨by omega, by omega⟩
  · rw [hpag, Bitset.clearBits_from hb.bits, hinit.size]
    omega
  · rw [hen, hmax]
    decide
  · rw [← OrderedArray.length_items, hit]
    rfl

/-- A request that the new heap grows for. -/
theorem served_run_new : ∃ M s p t, Kernel.memoryInitialize 1 (fun _ => 0) 65536
      (Kernel.image 0x200000) = .ok M ∧
    Heap.create 0xC0000000 0xC0100000 0xCFFFF000 false false (fun _ => 0) M.paging = .ok s ∧
    s.allocN 2 0x80000 false (fun _ => 0) = .ok (p, t) := by
  obtain ⟨M, s, hM, hs, hS, hmax, hen, hsize, hcap, hsp⟩ := new_supplied
  have hok : s.ServeOk 0x80000 false := by
    refine ⟨by rw [hsize, hcap]; decide, fun _ => ?_⟩
    unfold HeapState.GrowOk HeapState.needed
    rw [hsp, hen]
    decide
  obtain ⟨p, t, h⟩ := served_run (by decide) hs .refl hS (by rw [hmax]; decide) (by decide) hok
    fun _ => 0
  exact ⟨M, s, p, t, hM, hs, h⟩

/-- **A request that `Alloc` accepts and never serves**, on the new kernel heap. -/
theorem never_served : ∃ M s, Kernel.memoryInitialize 1 (fun _ => 0) 65536 (Kernel.image 0x200000) =
      .ok M ∧
    Heap.create 0xC0000000 0xC0100000 0xCFFFF000 false false (fun _ => 0) M.paging = .ok s ∧
    s.Supplied ∧ ∀ rounds pageAlign fresh r, s.allocN rounds 0x400000 pageAlign fresh ≠ .ok r := by
  obtain ⟨M, s, hM, hs, hS, -⟩ := new_supplied
  exact ⟨M, s, hM, hs, hS, fun rounds pageAlign fresh r =>
    HeapState.never_returns pageAlign fresh r rounds s⟩

end Clients

end Dmanix
