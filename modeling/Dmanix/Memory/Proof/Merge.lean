import Dmanix.Memory.Clients
import Dmanix.Memory.Proof.FromHole
import Dmanix.Memory.Proof.Freed
import Mathlib.Data.List.Chain

/-!
# Freeing inside the heap

`Sound s bs`: the heap is laid out as the blocks `bs`, no two holes are neighbours, and the word below
the first block, in the page between the index and the heap, is zero. `Free` of a block whose merged
hole does not end at `end_address` keeps it, with one hole in place of the block and the holes next to
it (`Sound.free_ok`); and it undoes a plain `Alloc` (`Sound.alloc_free`).
-/

namespace Dmanix

open Word32 Bytes Tiling

/-- No two holes are neighbours. -/
def NoAdjacentHoles (bs : List Block) : Prop :=
  bs.IsChain fun a b => ¬ (a.hole = true ∧ b.hole = true)

/-- **A well-formed heap** (module doc), shorter than 4 MiB. -/
structure Sound (s : HeapState) (bs : List Block) : Prop extends Laid s bs where
  slot : read32 s.mem (s.startAddress - 4) = 0
  separate : NoAdjacentHoles bs
  region : extent Block.size bs < 4194304

/-! ## The blocks around -/

theorem length_holes : ∀ (a : Nat) (bs : List Block), (holes a bs).length = bs.countP (·.hole)
  | _, [] => rfl
  | a, b :: bs => by
    rw [holes_cons, List.length_append, length_holes (a + b.size) bs, List.countP_cons]
    cases b.hole <;> simp [Nat.add_comm]

section
variable {l r l' r' before after : List Block} {b c : Block} {n : Nat}

/-- A new block in the middle, next to a hole on neither side. -/
theorem noAdjacentHoles_insert :
    NoAdjacentHoles (l ++ b :: r) ↔ NoAdjacentHoles l ∧ NoAdjacentHoles r ∧
      (∀ a ∈ l.getLast?, ¬ (a.hole = true ∧ b.hole = true)) ∧
      ∀ c ∈ r.head?, ¬ (b.hole = true ∧ c.hole = true) := by
  unfold NoAdjacentHoles
  rw [List.isChain_append, List.isChain_cons]
  simp only [List.head?_cons, Option.mem_def, Option.some.injEq, forall_eq']
  constructor
  · rintro ⟨h1, ⟨h2, h3⟩, h4⟩
    exact ⟨h1, h3, h4, h2⟩
  · rintro ⟨h1, h2, h3, h4⟩
    exact ⟨h1, ⟨h4, h2⟩, h3⟩

theorem Piece.holes (h : Piece l) : l.countP (·.hole) = l.length := by
  rcases h with rfl | ⟨k, rfl⟩ <;> rfl

theorem HeadHole.eq (h : HeadHole r after r') (hr : ∀ a ∈ r.head?, a.hole = false) :
    after = [] ∧ r' = r := by
  rcases h.piece with rfl | ⟨k, rfl⟩
  · exact ⟨rfl, by rw [h.split, List.nil_append]⟩
  · have hhead := hr ⟨true, k⟩ (by rw [h.split]; rfl)
    cases hhead

theorem HeadHole.eq_cons (h : HeadHole (⟨true, n⟩ :: r) after r') : after = [⟨true, n⟩] ∧ r' = r := by
  have hs := h.split
  rcases h.piece with rfl | ⟨k, rfl⟩
  · have hnone := h.none rfl ⟨true, n⟩ (by rw [List.nil_append] at hs; rw [← hs]; rfl)
    cases hnone
  · rw [List.singleton_append, List.cons.injEq] at hs
    exact ⟨by rw [hs.1], hs.2.symm⟩

theorem HeadHole.unique {k k' : List Block} (h : HeadHole r before k) (h' : HeadHole r after k') :
    before = after ∧ k = k' := by
  have hs := h'.split
  rcases h'.piece with rfl | ⟨n, rfl⟩
  · rw [List.nil_append] at hs
    obtain ⟨h1, h2⟩ := h.eq fun a ha => h'.none rfl a (by rwa [← hs])
    exact ⟨h1, h2.trans hs⟩
  · rw [List.singleton_append] at hs
    subst hs
    exact h.eq_cons

end

/-! ## The merged hole -/

section
variable {s u v t : HeapState} {bs l r l' r' before after : List Block} {q m x n : Nat}

theorem Laid.first (h : Laid s bs) (hslot : read32 s.mem (s.startAddress - 4) = 0)
    (hq : q = s.startAddress + extent Block.size l) (hl : l = []) :
    (s.storeHeaderHole q true).holeBefore q = none := by
  obtain rfl : q = s.startAddress := by rw [hq, hl, extent_nil, Nat.add_zero]
  have hlow := h.low
  have htop := h.top
  have hf := h.fills
  have hoff : Off s.startAddress (s.startAddress + 4) s.mem
      (s.storeHeaderHole s.startAddress true).mem := off_setHeader _ _ _
  have hfoot : (s.storeHeaderHole s.startAddress true).footer (sub32 s.startAddress 4) =
      .ofWord 0 := by
    rw [sub32_eq (by omega) (by omega), HeapState.footer, footer_off hoff (by omega)]
    exact congrArg Footer.ofWord hslot
  unfold HeapState.holeBefore
  simp only [hfoot]
  exact if_neg fun hc => absurd hc.1 (by decide)

theorem HeapState.enter_hole {doAdd : Bool} (hs : u.index.size < u.index.capacity)
    (hroom : doAdd = true → u.index.size + 1 < u.index.capacity) :
    ∃ t, (if doAdd then u.indexInsert x else .ok u) = .ok t := by
  cases doAdd with
  | false => exact ⟨u, rfl⟩
  | true =>
    obtain ⟨idx, -, -, -, hins⟩ := indexInsert_eq x hs
    exact ⟨_, hins.trans (if_pos (hroom rfl))⟩

/-- **`Free` inside the heap**: the block and the holes next to it are one hole, which the index lists
with the other holes. -/
theorem Laid.free_merges (h : Laid s (l ++ ⟨false, m⟩ :: r))
    (first : l = [] → (s.storeHeaderHole q true).holeBefore q = none)
    (hregion : extent Block.size (l ++ ⟨false, m⟩ :: r) < 4194304)
    (hq : q = s.startAddress + extent Block.size l) (hr : r ≠ []) (hr' : ∀ k, r ≠ [⟨true, k⟩])
    (hroom : ∀ l' before after r', EndHole l l' before → HeadHole r after r' → before = [] →
      (l' ++ r').countP (·.hole) + 1 < s.index.capacity) :
    ∃ l' before after r' x n t, EndHole l l' before ∧ HeadHole r after r' ∧
      x = s.startAddress + extent Block.size l' ∧
      n = extent Block.size before + m + extent Block.size after ∧ s.free (q + 4) = .ok t ∧
      Laid t (l' ++ ⟨true, n⟩ :: r') ∧ t.startAddress = s.startAddress ∧
      t.endAddress = s.endAddress ∧ Off x (x + n) s.mem t.mem := by
  have hf := h.fills
  have htop := h.top
  have hlow := h.low
  have h8 : 8 ≤ m := h.tags.pos ⟨false, m⟩ (by simp)
  obtain ⟨l', before, after, r', x, n, v, idx, hends, hheads, hx, hn, hj, hidx, -, hcap, hsize, -, -,
    hc⟩ :=
    h.coalesce_ok hq first fun hr0 => absurd hr0 hr
  have hsplit : l ++ ⟨false, m⟩ :: r = l' ++ ((before ++ ⟨false, m⟩ :: after) ++ r') := by
    rw [hends.split, hheads.split]
    simp
  have hn' : n = extent Block.size before + m + extent Block.size after := by
    rw [hn, extent_append, extent_cons]
    simp only
    omega
  rw [hsplit] at h hf hregion
  have hext : s.startAddress + (extent Block.size l' + (n + extent Block.size r')) =
      s.endAddress := by
    rw [extent_append, extent_append, ← hn] at hf
    exact hf
  rw [extent_append, extent_append, ← hn] at hregion
  -- blocks are left above the merged hole
  have hrest : 8 ≤ extent Block.size r' := by
    cases hr0 : r' with
    | nil =>
      have hs := hheads.split
      rw [hr0, List.append_nil] at hs
      rcases hheads.piece with ha | ⟨k, ha⟩
      · exact absurd (hs.trans ha) hr
      · exact absurd (hs.trans ha) (hr' k)
    | cons b rest =>
      have hb := h.tags.pos b (by rw [hr0]; simp)
      rw [extent_cons]
      omega
  have hne : add32 (x + n - 4) 4 ≠ ({ v with index := idx } : HeapState).endAddress := by
    have he : v.endAddress = s.endAddress := (congrArg Heap.endAddress hj.heap :)
    rw [add32_eq (by omega)]
    show x + n - 4 + 4 ≠ v.endAddress
    omega
  have hlen : idx.size = (holes s.startAddress l' ++ ((if before = [] then [] else [x]) ++
      holes (x + n) r')).length := by
    rw [← hidx.length_eq]
    exact (OrderedArray.length_items idx).symm
  have hslots : idx.size < idx.capacity := by
    rw [hcap]
    exact Nat.lt_of_le_of_lt hsize h.slots
  obtain ⟨t, ht⟩ := @HeapState.enter_hole { v with index := idx } x before.isEmpty hslots fun hb => by
    rw [List.isEmpty_iff] at hb
    have := hroom l' before after r' hends hheads hb
    rw [hb, if_pos rfl, List.nil_append, List.length_append, length_holes, length_holes,
      ← List.countP_append] at hlen
    show idx.size + 1 < idx.capacity
    rw [hlen, hcap]
    exact this
  obtain ⟨hlaid, he⟩ := h.hole_laid hends.piece hx hn (by omega) hj hidx hcap hsize ht
  refine ⟨l', before, after, r', x, n, t, hends, hheads, hx, hn', ?_, hlaid,
    (congrArg Heap.startAddress he.heap :), (congrArg Heap.endAddress he.heap :), he.off⟩
  rw [HeapState.free_keep (by omega) hc hne, ht]

theorem Laid.free_returns (h : Laid s (l ++ ⟨false, m⟩ :: r))
    (first : l = [] → (s.storeHeaderHole q true).holeBefore q = none)
    (hregion : extent Block.size (l ++ ⟨false, m⟩ :: r) < 4194304)
    (hq : q = s.startAddress + extent Block.size l) (hr : r ≠ []) (hr' : ∀ k, r ≠ [⟨true, k⟩])
    (hroom : (l ++ r).length + 1 < s.index.capacity) :
    s.FreeOk (q + 4) ∧ ∃ l' before after r' t, EndHole l l' before ∧ HeadHole r after r' ∧
      s.free (q + 4) = .ok t ∧
      Laid t (l' ++ ⟨true, extent Block.size before + m + extent Block.size after⟩ :: r') ∧
      t.startAddress = s.startAddress ∧ t.endAddress = s.endAddress ∧
      Off s.startAddress s.endAddress s.mem t.mem := by
  obtain ⟨l', before, after, r', x, n, t, hl, hr₁, hx, hn, ht, hlaid, hst, hen, hoff⟩ :=
    h.free_merges first hregion hq hr hr' fun l' before after r' hl hr _ => by
      have hc := List.countP_le_length (p := fun b : Block => b.hole) (l := l' ++ r')
      rw [hl.split, hr.split] at hroom
      simp only [List.length_append] at hroom hc
      omega
  have hn' : n = extent Block.size (before ++ ⟨false, m⟩ :: after) := by
    rw [hn, extent_append, extent_cons]
    simp only
    omega
  have hm := h.merged_eq hq first (fun h0 => absurd h0 hr) hl hr₁ hx hn'
  have hfills := hlaid.fills
  have hfills' := h.fills
  rw [extent_append, extent_cons, hst, hen] at hfills
  simp only at hfills
  -- a block is left above
  have hrest : 8 ≤ extent Block.size r' := by
    cases hr0 : r' with
    | nil =>
      have hs := hr₁.split
      rw [hr0, List.append_nil] at hs
      rcases hr₁.piece with ha | ⟨k, ha⟩
      · exact absurd (hs.trans ha) hr
      · exact absurd (hs.trans ha) (hr' k)
    | cons b rest =>
      have hb := hlaid.tags.pos b (by rw [hr0]; simp)
      rw [extent_cons]
      omega
  refine ⟨⟨fun h0 => ?_, ?_, fun he => ?_⟩, l', before, after, r', t, hl, hr₁, ht, hn ▸ hlaid, hst, hen,
    hoff.mono (by omega) (by omega)⟩
  · rw [Nat.add_sub_cancel] at h0 ⊢
    refine first (List.length_eq_zero_iff.1 ?_)
    cases l with
    | nil => rfl
    | cons b l =>
      have hb := h.tags.pos b (by simp)
      rw [extent_cons] at hq
      omega
  · rw [hm]
    show n < _
    omega
  · rw [hm] at he
    simp only at he
    omega

end

/-! ## A heap with blocks freed -/

/-- The blocks of a well-formed heap, found otherwise. -/
theorem WF.relaid {t : HeapState} {bs bs' : List Block} (h : WF t bs) (hl : Laid t bs') : WF t bs' where
  tags := hl.tags
  fills := hl.fills
  top := hl.top
  low := hl.low
  room := h.room
  startPage := h.startPage
  endPage := h.endPage
  slots := hl.slots
  capacity := h.capacity
  stored := h.stored
  index := hl.index

section
variable {s t : HeapState} {bs l r l' r' before after : List Block} {m : Nat}

/-- What writes inside the heap keeps the word below it. -/
theorem WF.slot_kept {lo hi : Nat} (h : WF s bs) (hst : t.startAddress = s.startAddress)
    (ho : Off lo hi s.mem t.mem) (hlo : s.startAddress ≤ lo)
    (hslot : read32 s.mem (s.startAddress - 4) = 0) : read32 t.mem (t.startAddress - 4) = 0 := by
  have := h.low
  rw [hst, ho.read32 (.inl (by omega))]
  exact hslot

theorem WF.free_at (h : WF s (l ++ ⟨false, m⟩ :: r)) (hslot : read32 s.mem (s.startAddress - 4) = 0)
    (hl : EndHole l l' before) (hr : HeadHole r after r') (hr0 : r ≠ []) (hr1 : ∀ k, r ≠ [⟨true, k⟩])
    (hregion : extent Block.size (l ++ ⟨false, m⟩ :: r) < 4194304)
    (hroom : (l ++ r).length + 1 < 0x20000) :
    s.FreeOk (s.startAddress + extent Block.size l + 4) ∧
    ∃ t, s.free (s.startAddress + extent Block.size l + 4) = .ok t ∧
      WF t (l' ++ ⟨true, extent Block.size before + m + extent Block.size after⟩ :: r') ∧
      read32 t.mem (t.startAddress - 4) = 0 ∧ t.startAddress = s.startAddress ∧
      t.endAddress = s.endAddress := by
  obtain ⟨hok, l₁, before₁, after₁, r₁, t, hl₁, hr₁, ht, hlaid, hst, hen, hoff⟩ :=
    h.laid.free_returns (h.laid.first hslot rfl) hregion rfl hr0 hr1 (by rwa [h.capacity])
  obtain ⟨rfl, rfl⟩ := hl.unique hl₁
  obtain ⟨rfl, rfl⟩ := hr.unique hr₁
  have hq : (s.startAddress + extent Block.size l, m) ∈ allocs s.startAddress (l ++ ⟨false, m⟩ :: r) := by
    rw [allocs_append, allocs_cons]
    simp
  obtain ⟨bs', hF⟩ := h.freed hq hok ht
  exact ⟨hok, t, ht, hF.wf.relaid hlaid, h.slot_kept hst hoff (Nat.le_refl _) hslot, hst, hen⟩

end

/-- The blocks of a kernel heap from which five were taken, the second and the fourth freed. -/
def freedBlocks : List Block :=
  [⟨false, 24⟩, ⟨true, 108⟩, ⟨false, 24⟩, ⟨true, 68⟩, ⟨false, 24⟩, ⟨true, 519944⟩]

section
variable {c d : Clients} {s t : HeapState} {size rounds p : Nat} {pageAlign : Bool} {fresh : Mem}

theorem Clients.run_alloc (hr : Guarded.Run Step CallOk c d) (hok : d.heap.AllocOk size pageAlign)
    (ha : d.heap.allocN rounds size pageAlign fresh = .ok (p, t)) :
    Guarded.Run Step CallOk c ⟨t, (p, size) :: d.live⟩ :=
  hr.tail (i := .alloc size pageAlign rounds fresh) hok (.alloc ha)

theorem Clients.run_free {live live' : List (Nat × Nat)} (hr : Guarded.Run Step CallOk c ⟨s, live⟩)
    (hp : (p, size) ∈ live) (hl : live.erase (p, size) = live') (hok : s.FreeOk p)
    (hf : s.free p = .ok t) : Guarded.Run Step CallOk c ⟨t, live'⟩ := by
  subst hl
  exact hr.tail (i := .free p) hok (.free hp hf)

end

theorem run_freed : ∃ s c, Heap.create 0xC0000000 0xC0100000 0xCFFFF000 false false (fun _ => 0)
      Frames.blank = .ok s ∧ Guarded.Run Clients.Step Clients.CallOk ⟨s, []⟩ c ∧
    c.live = [(0xC00810E4, 16), (0xC0081088, 16), (0xC0081004, 16)] ∧
    c.heap.startAddress = 0xC0081000 ∧ c.heap.endAddress = 0xC0100000 ∧ WF c.heap freedBlocks ∧
    Sound c.heap freedBlocks := by
  obtain ⟨s₀, hs₀⟩ := Heap.create_returns 0xCFFFF000 false false (fun _ => 0) Frames.blank
    (show 0xC0000000 % 4096 = 0 by decide) (show 0xC0100000 % 4096 = 0 by decide)
  obtain ⟨h₀, -, hst₀, hen₀, -, hoff₀⟩ := Heap.create_ok (by decide) (by decide) (by decide) hs₀
  have hslot₀ : read32 s₀.mem (s₀.startAddress - 4) = 0 := by
    rw [hst₀, hoff₀.read32 (by decide)]
    rfl
  -- the five blocks
  obtain ⟨ok₁, s₁, ha₁, w₁, h₁⟩ := @WF.alloc_last s₀ [] _ h₀ 16 nofun (by decide) (by decide)
  obtain ⟨ok₂, s₂, ha₂, w₂, h₂⟩ := h₁.alloc_last 100 (by simp) (by decide) (by decide)
  obtain ⟨ok₃, s₃, ha₃, w₃, h₃⟩ := h₂.alloc_last 16 (by simp) (by decide) (by decide)
  obtain ⟨ok₄, s₄, ha₄, w₄, h₄⟩ := h₃.alloc_last 60 (by simp) (by decide) (by decide)
  obtain ⟨ok₅, s₅, ha₅, w₅, h₅⟩ := h₄.alloc_last 16 (by simp) (by decide) (by decide)
  have e₁ := w₁.startAddress.trans hst₀
  have e₂ := w₂.startAddress.trans e₁
  have e₃ := w₃.startAddress.trans e₂
  have e₄ := w₄.startAddress.trans e₃
  have e₅ := w₅.startAddress.trans e₄
  have hslot₁ := h₀.slot_kept w₁.startAddress w₁.off (Nat.le_add_right _ _) hslot₀
  have hslot₂ := h₁.slot_kept w₂.startAddress w₂.off (Nat.le_add_right _ _) hslot₁
  have hslot₃ := h₂.slot_kept w₃.startAddress w₃.off (Nat.le_add_right _ _) hslot₂
  have hslot₄ := h₃.slot_kept w₄.startAddress w₄.off (Nat.le_add_right _ _) hslot₃
  have hslot₅ := h₄.slot_kept w₅.startAddress w₅.off (Nat.le_add_right _ _) hslot₄
  -- the second and the fourth are freed: a hole between two blocks each
  obtain ⟨ok₆, s₆, hf₆, h₆, hslot₆, hst₆, hen₆⟩ := @WF.free_at s₅ [⟨false, 24⟩] _ [⟨false, 24⟩] _ [] []
    108 h₅ hslot₅ ⟨rfl, .inl rfl, by simp⟩ ⟨rfl, .inl rfl, by simp⟩ (by simp) (by simp) (by decide)
    (by decide)
  obtain ⟨ok₇, s₇, hf₇, h₇, hslot₇, hst₇, hen₇⟩ := @WF.free_at s₆ [⟨false, 24⟩, ⟨true, 108⟩, ⟨false, 24⟩]
    _ [⟨false, 24⟩, ⟨true, 108⟩, ⟨false, 24⟩] _ [] [] 68 h₆ hslot₆ ⟨rfl, .inl rfl, by simp⟩
    ⟨rfl, .inl rfl, by simp⟩ (by simp) (by simp) (by decide) (by decide)
  rw [e₅] at ok₆ hf₆ hst₆
  rw [hst₆] at ok₇ hf₇ hst₇
  have hwf : WF s₇ freedBlocks := by simpa [freedBlocks] using h₇
  rw [hst₀] at ha₁
  rw [e₁] at ha₂
  rw [e₂] at ha₃
  rw [e₃] at ha₄
  rw [e₄] at ha₅
  have r₀ : Guarded.Run Clients.Step Clients.CallOk ⟨s₀, []⟩ ⟨s₀, []⟩ := .refl
  have r₁ := Clients.run_alloc r₀ ok₁ ha₁
  have r₂ := Clients.run_alloc r₁ ok₂ ha₂
  have r₃ := Clients.run_alloc r₂ ok₃ ha₃
  have r₄ := Clients.run_alloc r₃ ok₄ ha₄
  have r₅ : Guarded.Run Clients.Step Clients.CallOk ⟨s₀, []⟩ ⟨s₅, [(0xC00810E4, 16),
      (0xC00810A0, 60), (0xC0081088, 16), (0xC008101C, 100), (0xC0081004, 16)]⟩ :=
    Clients.run_alloc r₄ ok₅ ha₅
  have r₆ : Guarded.Run Clients.Step Clients.CallOk ⟨s₀, []⟩
      ⟨s₆, [(0xC00810E4, 16), (0xC00810A0, 60), (0xC0081088, 16), (0xC0081004, 16)]⟩ :=
    Clients.run_free r₅ (show (0xC008101C, 100) ∈ _ by decide) (by decide) ok₆ hf₆
  have r₇ : Guarded.Run Clients.Step Clients.CallOk ⟨s₀, []⟩
      ⟨s₇, [(0xC00810E4, 16), (0xC0081088, 16), (0xC0081004, 16)]⟩ :=
    Clients.run_free r₆ (show (0xC00810A0, 60) ∈ _ by decide) (by decide) ok₇ hf₇
  have hen : s₇.endAddress = 0xC0100000 := by
    rw [hen₇, hen₆, w₅.endAddress, w₄.endAddress, w₃.endAddress, w₂.endAddress, w₁.endAddress, hen₀]
  have hsep : NoAdjacentHoles freedBlocks := by simp [NoAdjacentHoles, freedBlocks]
  have hs : Sound s₇ freedBlocks := ⟨hwf.laid, hslot₇, hsep, by decide⟩
  exact ⟨s₀, _, hs₀, r₇, rfl, hst₇, hen, hwf, hs⟩

/-! ## What is left -/

section
variable {s u v t : HeapState} {bs l r l' r' before after : List Block} {q m x n : Nat}

theorem holes_bounds {a y : Nat} (h : y ∈ holes a bs) (hpos : ∀ b ∈ bs, 8 ≤ b.size) :
    a ≤ y ∧ y + 8 ≤ a + extent Block.size bs := by
  obtain ⟨k, hk⟩ := mem_holes.1 h
  have h8 := hpos _ (mem_of_mem_place hk)
  have hb := place_bounds hk
  simp only at h8 hb
  omega

theorem allocs_bounds {a y k : Nat} (h : (y, k) ∈ allocs a bs) :
    a ≤ y ∧ y + k ≤ a + extent Block.size bs := place_bounds (mem_allocs.1 h)

theorem holes_nodup {a : Nat} (hpos : ∀ b ∈ bs, 8 ≤ b.size) : (holes a bs).Nodup := by
  have hn := @place_nodup _ Block.size a bs fun b hb => Nat.lt_of_lt_of_le (by decide) (hpos b hb)
  exact hn.sublist (List.filter_sublist.map _)

/-- The parts of a block's place: the block and the holes next to it become the hole of `n` bytes at
`x`. -/
structure MergedAt (a : Nat) (l r : List Block) (m x n : Nat) (l' before after r' : List Block) :
    Prop where
  left : EndHole l l' before
  right : HeadHole r after r'
  start : x = a + extent Block.size l'
  size : n = extent Block.size before + m + extent Block.size after

namespace MergedAt

variable {a : Nat}

/-- Next to the merged hole there is no hole. -/
theorem separate (h : MergedAt a l r m x n l' before after r')
    (hsep : NoAdjacentHoles (l ++ ⟨false, m⟩ :: r)) : NoAdjacentHoles (l' ++ ⟨true, n⟩ :: r') := by
  have hl := h.left.split
  have hr := h.right.split
  rw [noAdjacentHoles_insert] at hsep ⊢
  obtain ⟨hsl, hsr, -, -⟩ := hsep
  have hlast : ∀ a ∈ l'.getLast?, a.hole = false := by
    rcases h.left.piece with hb | ⟨k, hb⟩
    · exact h.left.none hb
    · intro a ha
      rw [hl, hb, noAdjacentHoles_insert] at hsl
      exact Bool.eq_false_iff.2 fun hc => hsl.2.2.1 a ha ⟨hc, rfl⟩
  have hhead : ∀ a ∈ r'.head?, a.hole = false := by
    rcases h.right.piece with hb | ⟨k, hb⟩
    · exact h.right.none hb
    · intro a ha
      rw [hr, hb, List.singleton_append, ← List.nil_append (_ :: r'), noAdjacentHoles_insert] at hsr
      exact Bool.eq_false_iff.2 fun hc => hsr.2.2.2 a ha ⟨rfl, hc⟩
  refine ⟨?_, ?_, fun a ha hc => ?_, fun a ha hc => ?_⟩
  · rw [hl] at hsl
    exact hsl.left_of_append
  · rw [hr] at hsr
    exact hsr.right_of_append
  · rw [hlast a ha] at hc
    exact absurd hc.1 Bool.false_ne_true
  · rw [hhead a ha] at hc
    exact absurd hc.2 Bool.false_ne_true

/-- The allocations before and after. -/
theorem allocs_eq (h : MergedAt a l r m x n l' before after r') (hq : q = a + extent Block.size l) :
    allocs a (l ++ ⟨false, m⟩ :: r) = allocs a l' ++ (q, m) :: allocs (x + n) r' ∧
      allocs a (l' ++ ⟨true, n⟩ :: r') = allocs a l' ++ allocs (x + n) r' := by
  obtain ⟨hl, hr, hx, hn⟩ := h
  have hqx : q = x + extent Block.size before := by
    rw [hq, hl.split, extent_append, hx]
    omega
  have hxn : x + n = q + m + extent Block.size after := by omega
  constructor
  · rw [hl.split, hr.split, List.append_assoc, allocs_append, allocs_append, allocs_cons,
      allocs_append, ← hx, ← hqx, hl.piece.allocs, hr.piece.allocs, ← hxn]
    rfl
  · rw [allocs_append, allocs_cons, if_pos rfl, ← hx]
    rfl

/-- The holes after are those before outside the merged hole, and that one. -/
theorem mem_holes (h : MergedAt a l r m x n l' before after r')
    (hpos : ∀ b ∈ l ++ ⟨false, m⟩ :: r, 8 ≤ b.size) (y : Nat) :
    y ∈ holes a (l' ++ ⟨true, n⟩ :: r') ↔
      y = x ∨ y ∈ holes a (l ++ ⟨false, m⟩ :: r) ∧ (y < x ∨ x + n ≤ y) := by
  obtain ⟨hl, hr, hx, hn⟩ := h
  have hxn : x + n = x + extent Block.size before + m + extent Block.size after := by omega
  have hnew : y ∈ holes a (l' ++ ⟨true, n⟩ :: r') ↔
      y ∈ holes a l' ∨ y = x ∨ y ∈ holes (x + n) r' := by
    rw [holes_append, holes_cons, if_pos rfl, ← hx]
    simp
  have hold : y ∈ holes a (l ++ ⟨false, m⟩ :: r) ↔ y ∈ holes a l' ∨ y ∈ holes x before ∨
      y ∈ holes (x + extent Block.size before + m) after ∨ y ∈ holes (x + n) r' := by
    rw [hl.split, hr.split, List.append_assoc, holes_append, holes_append, holes_cons, holes_append,
      ← hx, ← hxn]
    simp
  have hp (bs : List Block) (hbs : ∀ b ∈ bs, b ∈ l ++ ⟨false, m⟩ :: r) : ∀ b ∈ bs, 8 ≤ b.size :=
    fun b hb => hpos b (hbs b hb)
  have hpl := hp l' fun b hb => by rw [hl.split]; simp [hb]
  have hpb := hp before fun b hb => by rw [hl.split]; simp [hb]
  have hpa := hp after fun b hb => by rw [hr.split]; simp [hb]
  have hpr := hp r' fun b hb => by rw [hr.split]; simp [hb]
  rw [hnew, hold]
  constructor
  · rintro (hy | rfl | hy)
    · have := holes_bounds hy hpl
      exact .inr ⟨.inl hy, .inl (by omega)⟩
    · exact .inl rfl
    · exact .inr ⟨.inr (.inr (.inr hy)), .inr (holes_bounds hy hpr).1⟩
  · rintro (rfl | ⟨hy | hy | hy | hy, hout⟩)
    · exact .inr (.inl rfl)
    · exact .inl hy
    · have := holes_bounds hy hpb
      omega
    · have := holes_bounds hy hpa
      omega
    · exact .inr (.inr hy)

end MergedAt

/-- **`t` is `s` after the block of `m` bytes at `q` became part of the hole of `n` bytes at `x`**:
the heap is well formed, the hole takes in the holes next to the block, in their entries' place, and is
listed once; the other entries of the index and the other allocations are as they were. -/
structure Merged (s t : HeapState) (l r : List Block) (q m x n : Nat) : Prop where
  limits : t.startAddress = s.startAddress ∧ t.endAddress = s.endAddress
  blocks : ∃ l' before after r', EndHole l l' before ∧ HeadHole r after r' ∧
    x = s.startAddress + extent Block.size l' ∧
    n = extent Block.size before + m + extent Block.size after ∧ Sound t (l' ++ ⟨true, n⟩ :: r') ∧
    t.index.size + before.length + after.length = s.index.size + 1 ∧
    (allocs s.startAddress (l ++ ⟨false, m⟩ :: r)).Perm
      ((q, m) :: allocs t.startAddress (l' ++ ⟨true, n⟩ :: r'))
  once : t.index.items.count x = 1
  entries : ∀ y, y ∈ t.index.items ↔ y = x ∨ y ∈ s.index.items ∧ (y < x ∨ x + n ≤ y)
  payloads : ∀ a k, (a, k) ∈ allocs s.startAddress (l ++ ⟨false, m⟩ :: r) → (a, k) ≠ (q, m) →
    ∀ y, a ≤ y → y < a + k → t.mem y = s.mem y

/-- **`Free` with coalescing** keeps the heap: for every well-formed heap with two free slots in its
index and every block whose merged hole does not end at `end_address`. -/
theorem Sound.free_ok (h : Sound s (l ++ ⟨false, m⟩ :: r))
    (hroom : s.index.size + 2 ≤ s.index.capacity) (hq : q = s.startAddress + extent Block.size l)
    (hr : r ≠ []) (hr' : ∀ k, r ≠ [⟨true, k⟩]) :
    ∃ x n t, s.free (q + 4) = .ok t ∧ Merged s t l r q m x n := by
  have hlow := h.low
  have hpos := h.tags.pos
  have hitems : s.index.items.length = (l ++ ⟨false, m⟩ :: r).countP (·.hole) := by
    rw [h.index.length_eq, length_holes]
  rw [OrderedArray.length_items] at hitems
  obtain ⟨l', before, after, r', x, n, t, hends, hheads, hx, hn, ht, hlaid, hst, hen, hoff⟩ :=
    h.toLaid.free_merges (h.toLaid.first h.slot hq) h.region hq hr hr' fun l' before after r' hl hr _ => by
      rw [hl.split, hr.split] at hitems
      simp only [List.countP_append, List.countP_cons] at hitems ⊢
      omega
  have hM : MergedAt s.startAddress l r m x n l' before after r' := ⟨hends, hheads, hx, hn⟩
  have hl := hends.split
  have hrs := hheads.split
  have hqx : q = x + extent Block.size before := by
    rw [hq, hl, extent_append, hx]
    omega
  obtain ⟨hallocs, hallocs'⟩ := hM.allocs_eq hq
  have hxt : x ∈ t.index.items := by
    rw [hlaid.index.mem_iff, hst]
    exact (hM.mem_holes hpos x).2 (.inl rfl)
  refine ⟨x, n, t, ht, ⟨hst, hen⟩, ⟨l', before, after, r', hends, hheads, hx, hn,
    ⟨hlaid, ?_, hM.separate h.separate, ?_⟩, ?_, ?_⟩, ?_, fun y => ?_, fun a k ha hne y hy hyk => ?_⟩
  · rw [hst, hoff.read32 (by omega)]
    exact h.slot
  · have hregion := h.region
    rw [hl, hrs] at hregion
    simp only [extent_append, extent_cons] at hregion ⊢
    omega
  · have hlen := hlaid.index.length_eq
    rw [length_holes, OrderedArray.length_items] at hlen
    rw [hl, hrs] at hitems
    simp only [List.countP_append, List.countP_cons, hends.piece.holes, hheads.piece.holes, if_true,
      Bool.false_eq_true, if_false] at hlen hitems
    omega
  · rw [hallocs, hst, hallocs']
    exact List.perm_middle
  · exact List.count_eq_one_of_mem (hlaid.index.nodup_iff.2 (holes_nodup hlaid.tags.pos)) hxt
  · rw [hlaid.index.mem_iff, h.index.mem_iff, hst]
    exact hM.mem_holes hpos y
  · refine hoff y ?_
    rw [hallocs, List.mem_append, List.mem_cons] at ha
    rcases ha with ha | ha | ha
    · have := allocs_bounds ha
      omega
    · exact absurd ha hne
    · have := (allocs_bounds ha).1
      omega

/-- The third block of `run_freed` is freed: the holes on both sides become part of its hole. -/
theorem free_ok_between : ∃ s x n t, Sound s freedBlocks ∧ s.free 0xC0081088 = .ok t ∧
    Merged s t [⟨false, 24⟩, ⟨true, 108⟩] [⟨true, 68⟩, ⟨false, 24⟩, ⟨true, 519944⟩] 0xC0081084 24
      x n := by
  obtain ⟨-, ⟨s, live⟩, -, -, -, hst, -, hwf, hs⟩ := run_freed
  have hs : Sound s freedBlocks := hs
  have hcap : s.index.capacity = 0x20000 := hwf.capacity
  have hsize : s.index.size = 3 := by
    rw [← OrderedArray.length_items, hs.index.length_eq, length_holes]
    rfl
  obtain ⟨x, n, t, ht, hm⟩ := @Sound.free_ok s [⟨false, 24⟩, ⟨true, 108⟩] _ 0xC0081084 24 hs
    (by rw [hsize, hcap]; decide) (by rw [show s.startAddress = _ from hst]; rfl) (by simp) (by simp)
  exact ⟨s, x, n, t, hs, ht, hm⟩

/-! ## `Free` undoes `Alloc` -/

theorem Laid.free_pieces {rest : List Block} {b : Nat} (h : Laid s (l ++ ⟨false, b⟩ :: (rest ++ r)))
    (hslot : read32 s.mem (s.startAddress - 4) = 0)
    (hregion : extent Block.size (l ++ ⟨false, b⟩ :: (rest ++ r)) < 4194304)
    (hq : q = s.startAddress + extent Block.size l) (hrest : Piece rest) (hr : r ≠ [])
    (hl : ∀ a ∈ l.getLast?, a.hole = false) (hr' : ∀ a ∈ r.head?, a.hole = false)
    (hroom : (l ++ r).countP (·.hole) + 1 < s.index.capacity) :
    ∃ t, s.free (q + 4) = .ok t ∧ Laid t (l ++ ⟨true, b + extent Block.size rest⟩ :: r) ∧
      t.startAddress = s.startAddress ∧ t.endAddress = s.endAddress ∧
      Off q s.endAddress s.mem t.mem := by
  have hf := h.fills
  have habove : ∀ after r', HeadHole (rest ++ r) after r' → after = rest ∧ r' = r := by
    intro after r' ha
    rcases hrest with rfl | ⟨k, rfl⟩
    · exact ha.eq hr'
    · exact ha.eq_cons
  obtain ⟨l', before, after, r', x, n, t, hends, hheads, hx, hn, ht, hlaid, hst, hen, hoff⟩ :=
    h.free_merges (h.first hslot hq) hregion hq (by simp [hr]) (fun k hk => by
      rcases hrest with rfl | ⟨j, rfl⟩
      · have := hr' ⟨true, k⟩ (by rw [← List.nil_append r, hk]; rfl)
        cases this
      · rw [List.singleton_append, List.cons.injEq] at hk
        exact hr hk.2) fun l' before after r' hb ha _ => by
      rw [(hb.eq hl).2, (habove _ _ ha).2]
      exact hroom
  obtain ⟨rfl, rfl⟩ := hends.eq hl
  obtain ⟨rfl, rfl⟩ := habove _ _ hheads
  rw [extent_nil, Nat.zero_add] at hn
  subst hn
  obtain rfl : x = q := hx.trans hq.symm
  refine ⟨t, ht, hlaid, hst, hen, hoff.mono (Nat.le_refl _) ?_⟩
  simp only [extent_append, extent_cons] at hf
  omega

/-- **`Free` undoes `Alloc`**: a block that a plain `Alloc` cut from a hole which does not end at
`end_address` is freed to the same blocks and holes. -/
theorem Sound.alloc_free {i size : Nat} (h : Sound s bs)
    (hf : s.findSmallestHole (size + 8) false = some i)
    (hend : s.index.array i + (s.header (s.index.array i)).size ≠ s.endAddress) (rounds : Nat)
    (fresh : Mem) : ∃ p s' t, s.allocN rounds size false fresh = .ok (p, s') ∧ s'.free p = .ok t ∧
      Sound t bs ∧ t.startAddress = s.startAddress ∧ t.endAddress = s.endAddress := by
  obtain ⟨l, r, n, p, s', rfl, hx, hw, ha, rfl, hlaid, hrw⟩ := h.toLaid.plain_cut hf rounds fresh
  have hst := hrw.startAddress
  have hen := hrw.endAddress
  have hlow := h.low
  have hfills := h.fills
  have hregion := h.region
  have hsep := h.separate
  have hslot := h.slot
  have htag := h.tags (s.index.array i, ⟨true, n⟩) (mem_place_iff.2 ⟨l, r, rfl, hx⟩)
  have hhead : (s.header (s.index.array i)).size = n := congrArg Header.size htag.header
  rw [hhead] at hend
  simp only [extent_append, extent_cons] at hfills hregion
  -- the blocks around the hole are no holes, and there is one above
  have hr : r ≠ [] := by
    rintro rfl
    rw [extent_nil] at hfills
    omega
  rw [noAdjacentHoles_insert] at hsep
  obtain ⟨-, -, hlast, hnext⟩ := hsep
  have hl : ∀ a ∈ l.getLast?, a.hole = false := fun a ha => by
    exact Bool.eq_false_iff.2 fun hc => hlast a ha ⟨hc, rfl⟩
  have hr' : ∀ a ∈ r.head?, a.hole = false := fun a ha => by
    exact Bool.eq_false_iff.2 fun hc => hnext a ha ⟨rfl, hc⟩
  have hroom : (l ++ r).countP (·.hole) + 1 < s'.index.capacity := by
    have hlen := h.index.length_eq
    have hslots := h.slots
    rw [length_holes, OrderedArray.length_items] at hlen
    simp only [List.countP_append, List.countP_cons] at hlen ⊢
    rw [hrw.capacity]
    simp only [if_true] at hlen
    omega
  have hslot' : read32 s'.mem (s'.startAddress - 4) = 0 := by
    rw [hst, hrw.off.read32 (by omega)]
    exact hslot
  -- the block, and what is left of the hole
  obtain ⟨b, rest, hpiece, hb, hlaid'⟩ : ∃ b rest, Piece rest ∧ b + extent Block.size rest = n ∧
      Laid s' (l ++ ⟨false, b⟩ :: (rest ++ r)) := by
    by_cases h8 : n - (size + 8) < 8
    · rw [if_pos h8] at hlaid
      exact ⟨n, [], .inl rfl, rfl, hlaid⟩
    · rw [if_neg h8] at hlaid
      refine ⟨size + 8, [⟨true, n - (size + 8)⟩], .inr ⟨_, rfl⟩, ?_, hlaid⟩
      show size + 8 + (n - (size + 8) + 0) = n
      omega
  obtain ⟨t, ht, htl, hts, hte, hoff⟩ := hlaid'.free_pieces hslot' (by
    simp only [extent_append, extent_cons]
    omega) (hx.trans (by rw [hst])) hpiece hr hl hr' hroom
  rw [hb] at htl
  refine ⟨_, s', t, ha, ht, ⟨htl, ?_, h.separate, h.region⟩, hts.trans hst, hte.trans hen⟩
  rw [hts, hoff.read32 (by omega)]
  exact hslot'

/-- The heap of `run_freed`, its last hole given away: a block is cut from a hole between two others
and freed, with what was left of the hole. -/
theorem alloc_free_between : ∃ s p s' t,
    Sound s [⟨false, 24⟩, ⟨true, 108⟩, ⟨false, 24⟩, ⟨true, 68⟩, ⟨false, 24⟩, ⟨false, 519944⟩] ∧
    s.allocN 0 64 false (fun _ => 0) = .ok (p, s') ∧ s'.free p = .ok t ∧
    Sound t [⟨false, 24⟩, ⟨true, 108⟩, ⟨false, 24⟩, ⟨true, 68⟩, ⟨false, 24⟩, ⟨false, 519944⟩] := by
  obtain ⟨-, ⟨s₀, live⟩, -, -, -, hst₀, hen₀, hwf₀, hs₀⟩ := run_freed
  simp only at hst₀ hen₀ hwf₀ hs₀
  obtain ⟨s, -, hr, hwf⟩ := @WF.alloc_at s₀ [⟨false, 24⟩, ⟨true, 108⟩, ⟨false, 24⟩, ⟨true, 68⟩,
    ⟨false, 24⟩] [] _ 519944 519936 false 0 (fun _ => 0) hwf₀ rfl (by decide)
    (show 519936 + 8 + 0 ≤ 519944 by decide) nofun (by simp) (by decide)
  rw [show gapSize false _ = 0 from rfl, carved_zero, if_pos (by decide)] at hwf
  have hst : s.startAddress = 0xC0081000 := hr.startAddress.trans hst₀
  have hs : Sound s [⟨false, 24⟩, ⟨true, 108⟩, ⟨false, 24⟩, ⟨true, 68⟩, ⟨false, 24⟩, ⟨false, 519944⟩] := by
    refine ⟨hwf.laid, ?_, by simp [NoAdjacentHoles], by decide⟩
    exact hwf₀.slot_kept hr.startAddress hr.off (Nat.le_add_right _ _) hs₀.slot
  -- of its holes only the one of 108 bytes can hold the request
  obtain ⟨i, hi, hpos, hf⟩ := @WF.found s [⟨false, 24⟩] [⟨false, 24⟩, ⟨true, 68⟩, ⟨false, 24⟩,
    ⟨false, 519944⟩] _ 108 64 false hwf rfl (by decide)
    (show 64 + 8 + 0 ≤ 108 by decide) (by simp)
  rw [OrderedArray.items_getElem hi, hst] at hpos
  have hhead : (s.header 0xC0081018).size = 108 := by
    have ht := hs.tags (0xC0081018, ⟨true, 108⟩) (by rw [hst]; simp)
    exact congrArg Header.size ht.header
  obtain ⟨p, s', t, ha, ht, hts, -⟩ := Sound.alloc_free hs hf (by
    rw [hpos]
    show 0xC0081018 + (s.header 0xC0081018).size ≠ _
    rw [hhead, hr.endAddress, hen₀]
    decide) 0 fun _ => 0
  exact ⟨s, p, s', t, hs, ha, ht, hts⟩

end

end Dmanix
