import Dmanix.Memory.Proof.Clients
import Dmanix.Memory.Proof.Merge

/-!
# The tags `Free` reads

`Free` reads the words on both sides of the block without a test of the heap's limits
(`free_reads`), so it stays inside the heap only for a block that neither starts nor ends it: exactly
then, as long as a merged hole that ends the heap is cut (`Laid.free_inside_iff`, `inside_run`).
-/

namespace Dmanix

open Word32 Bytes Tiling

namespace HeapState

/-! ## What is always read -/

/-- The tag at `a` is touched on the way from `s` to `t`, with the limits of `s`. -/
def Reads (s t : HeapState) (a : Nat) : Prop :=
  ∃ ts, t.touched = ts ++ s.touched ∧ ⟨a, s.startAddress, s.endAddress⟩ ∈ ts

/-- The tags touched so far stay. -/
abbrev Goes (s t : HeapState) : Prop := Touches (fun _ => True) s t

section
variable {s t u : HeapState} {a b f p x y : Nat}

theorem at_any (s : HeapState) (a : Nat) : At (fun _ => True) s a := trivial

theorem Reads.of_touch (h : Goes (s.touch a) t) : Reads s t a := by
  obtain ⟨ts, ht, -⟩ := h
  refine ⟨ts ++ [⟨a, s.startAddress, s.endAddress⟩], ?_, by simp⟩
  rw [ht, List.append_assoc]
  rfl

theorem Reads.goes (h : Reads s t a) (h' : Goes t u) : Reads s u a := by
  obtain ⟨ts, ht, ha⟩ := h
  obtain ⟨us, hu, -⟩ := h'
  exact ⟨us ++ ts, by rw [hu, ht, List.append_assoc], List.mem_append_right _ ha⟩

theorem Reads.after (h : Goes s t) (hh : t.toHeap = s.toHeap) (h' : Reads t u a) : Reads s u a := by
  obtain ⟨ts, ht, -⟩ := h
  obtain ⟨us, hu, ha⟩ := h'
  rw [show t.startAddress = s.startAddress from congrArg Heap.startAddress hh,
    show t.endAddress = s.endAddress from congrArg Heap.endAddress hh] at ha
  exact ⟨us ++ ts, by rw [hu, ht, List.append_assoc], List.mem_append_left _ ha⟩

theorem Reads.of_touches {Q : Touch → Prop} (h : Reads s t a) (hq : Touches Q s t) : At Q s a := by
  obtain ⟨ts, ht, ha⟩ := h
  obtain ⟨us, hu, hall⟩ := hq
  rw [ht, List.append_left_inj] at hu
  exact hall _ (hu ▸ ha)

theorem coalesceLeft_reads : Goes (s.touch (sub32 a 4)) (s.coalesceLeft a f).1 := by
  cases hb : s.holeBefore a with
  | none =>
    rw [coalesceLeft_none hb]
    split
    · exact .touch (at_any _ _) rfl
    · exact .refl _
  | some x =>
    rw [coalesceLeft_some hb]
    have h1 : Goes (s.touch (sub32 a 4)) (((s.touch (sub32 a 4)).touch x).touch a) :=
      Touches.trans (.touch (t := (s.touch (sub32 a 4)).touch x) (at_any _ _) rfl)
        (.touch (at_any _ _) rfl)
    exact h1.trans ((storeHeaderSize_touches _ (at_any _ _)).trans
      (storeFooterSize_touches _ (at_any _ _)))

theorem coalesceRight_reads {r : HeapState × Nat} (h : s.coalesceRight x f = .ok r) :
    Goes (s.touch (add32 f 4)) r.1 := by
  unfold coalesceRight at h
  dsimp only at h
  split at h
  · obtain ⟨_, -, h⟩ := bind_ok.1 h
    obtain ⟨v, hv, h⟩ := bind_ok.1 h
    cases h
    exact (mergeRight_touches (at_any _ _) (at_any _ _) (at_any _ _)).trans (indexRemove_ghosts hv).2
  · cases h
    exact .refl _

theorem shrink_goes (h : u.shrink x y = .ok t) : Goes u t := by
  unfold shrink at h
  obtain ⟨⟨k, w⟩, hw, h⟩ := bind_ok.1 h
  obtain ⟨rfl, P, rfl⟩ := contract_ok hw
  dsimp only at h
  generalize add32 u.startAddress (contractSize (sub32 x u.startAddress)) = e at h
  have h1 : Goes u (u.moveEnd P e) := .of_eq rfl
  have h2 : Goes u ((u.moveEnd P e).touch x) := h1.trans (.touch (at_any _ _) rfl)
  split at h
  · cases h
    exact h2.trans ((storeHeaderSize_touches _ (at_any _ _)).trans (sealFooter_touches (at_any _ _) _))
  · split at h
    · exact h2.trans (indexRemove_ghosts h).2
    · cases h
      exact h2

theorem entered_goes {d : Bool} (h : (if d then u.indexInsert x else .ok u) = .ok t) :
    Goes u t := by
  cases d with
  | false =>
    cases h
    exact .refl _
  | true => exact indexInsert_touches (fun _ _ => at_any _ _) (at_any _ _) h

theorem toHeap_coalesceLeft (s : HeapState) (a f : Nat) :
    (s.coalesceLeft a f).1.toHeap = s.toHeap := by
  cases hb : s.holeBefore a with
  | none =>
    rw [coalesceLeft_none hb]
    split
    · rfl
    · rfl
  | some x =>
    rw [coalesceLeft_some hb]
    rfl

theorem coalesce_reads {c : HeapState × Nat × Nat × Nat × Bool} (h : s.coalesce p = .ok c) :
    Reads s c.1 (sub32 (sub32 p 4) 4) ∧
      Reads s c.1 (add32 (sub32 (add32 (sub32 p 4) (s.header (sub32 p 4)).size) 4) 4) := by
  unfold coalesce at h
  generalize sub32 p 4 = a at h ⊢
  dsimp only at h
  simp only [header_touch] at h
  generalize sub32 (add32 a (s.header a).size) 4 = f at h ⊢
  simp only [← marked_def] at h
  obtain ⟨_, -, h⟩ := bind_ok.1 h
  obtain ⟨_, -, h⟩ := bind_ok.1 h
  obtain ⟨_, -, h⟩ := bind_ok.1 h
  obtain ⟨⟨v, g⟩, hr, h⟩ := bind_ok.1 h
  have hc : c.1 = v := (congrArg Prod.fst (Except.ok.inj h)).symm
  rw [hc]
  have hmark : Goes s (s.marked a f) := marked_touches (at_any _ _) (at_any _ _)
  have hleft : Goes (s.marked a f) ((s.marked a f).coalesceLeft a f).1 :=
    coalesceLeft_touches (at_any _ _) (fun _ => at_any _ _) (at_any _ _) (at_any _ _)
  have hbelow : Reads (s.marked a f) ((s.marked a f).coalesceLeft a f).1 (sub32 a 4) :=
    .of_touch coalesceLeft_reads
  have hright := coalesceRight_reads hr
  have hheap := toHeap_coalesceLeft (s.marked a f) a f
  generalize ((s.marked a f).coalesceLeft a f).1 = w at *
  have h1 : Goes w (w.touch (add32 f 4)) := .touch (at_any _ _) rfl
  have hm : (s.marked a f).toHeap = s.toHeap := by
    rw [marked_def, toHeap_storeHeaderHole, toHeap_touch, toHeap_touch]
  exact ⟨(hbelow.goes (h1.trans hright)).after hmark hm,
    (Reads.of_touch hright).after (hmark.trans hleft) (hheap.trans hm)⟩

/-- **`Free` reads the words on both sides of the block.** -/
theorem free_reads (hp : p ≠ 0) (h : s.free p = .ok t) : Reads s t (sub32 (sub32 p 4) 4) ∧
    Reads s t (add32 (sub32 (add32 (sub32 p 4) (s.header (sub32 p 4)).size) 4) 4) := by
  unfold free at h
  rw [if_neg hp] at h
  obtain ⟨⟨u, x, g, y, doAdd⟩, hc, h⟩ := bind_ok.1 h
  dsimp only at h
  have hgo : Goes u t := by
    split at h
    · obtain ⟨w, hw, h⟩ := bind_ok.1 h
      refine (shrink_goes hw).trans (entered_goes (x := x) (d := doAdd) ?_)
      exact h
    · exact entered_goes (x := x) (d := doAdd) h
  exact (coalesce_reads hc).imp (·.goes hgo) (·.goes hgo)

/-- The cut of the last hole touches its tags, as the heap then ends. -/
theorem shrink_inside {n e : Nat} (hx : u.startAddress ≤ x)
    (hmin : x + 8 ≤ u.startAddress + 0x70000) (hle : u.startAddress + 0x70000 ≤ u.endAddress)
    (hend : x + n = u.endAddress) (htop : u.endAddress < 4294967296)
    (hn : (u.header x).size = n % 4194304) (h : u.shrink x e = .ok t) :
    Touches Touch.Inside u t := by
  rw [shrink_eq hx hmin hle hend htop hn] at h
  obtain ⟨P, -, h⟩ := bind_ok.1 h
  cases h
  unfold shrunk
  have h1 : Touches Touch.Inside u (u.moveEnd P (u.startAddress + 0x70000)) := .of_eq rfl
  have hxin : At Touch.Inside (u.moveEnd P (u.startAddress + 0x70000)) x :=
    at_inside hx (show x + 4 ≤ u.startAddress + 0x70000 by omega)
  have hxin' : At Touch.Inside ((u.moveEnd P (u.startAddress + 0x70000)).touch x) x :=
    hxin.congr rfl
  refine (h1.trans (.touch hxin rfl)).trans ((storeHeaderSize_touches _ hxin').trans
    (sealFooter_touches (at_inside ?_ ?_) _))
  · show u.startAddress ≤ u.startAddress + 0x70000 - 4
    omega
  · show u.startAddress + 0x70000 - 4 + 4 ≤ u.startAddress + 0x70000
    omega

theorem entered_inside {d : Bool} (hi : ∀ y ∈ u.index.items, At Touch.Inside u y)
    (hx : At Touch.Inside u x) (h : (if d then u.indexInsert x else .ok u) = .ok t) :
    Touches Touch.Inside u t := by
  cases d with
  | false =>
    cases h
    exact .refl _
  | true => exact indexInsert_touches hi hx h

end

end HeapState

/-! ## Inside -/

section
variable {s t : HeapState} {l r : List Block} {q m : Nat}

/-- A merged hole that ends the heap is cut. -/
def HeapState.Shrinks (s : HeapState) (p : Nat) : Prop :=
  (s.merged p).1 + (s.merged p).2 = s.endAddress →
    (s.merged p).1 + 8 ≤ s.startAddress + 0x70000 ∧ s.startAddress + 0x70000 ≤ s.endAddress

theorem Laid.free_inside (h : Laid s (l ++ ⟨false, m⟩ :: r))
    (hq : q = s.startAddress + extent Block.size l) (hl : l ≠ []) (hr : r ≠ [])
    (hs : s.Shrinks (q + 4)) (hf : s.free (q + 4) = .ok t) : s.Touches Touch.Inside t := by
  obtain ⟨l', before, after, r', x, n, v, idx, hM, hcase⟩ := h.free_cases hq (fun h => absurd h hl) hf
  have hx := hM.addr
  have hn8 : 8 ≤ n := by
    have h8 := h.tags.pos ⟨false, m⟩ (by simp)
    rw [hM.size, extent_append, extent_cons]
    omega
  have hpos := h.tags.pos
  have hfills := h.fills
  rw [hM.blocks] at hpos hfills
  rw [extent_append, extent_append, ← hM.size] at hfills
  have hst : v.startAddress = s.startAddress := (congrArg Heap.startAddress hM.joined.heap :)
  have hen : v.endAddress = s.endAddress := (congrArg Heap.endAddress hM.joined.heap :)
  have hgo : s.Touches Touch.Inside { v with index := idx } := (hM.touches hl hr).trans (.of_eq rfl)
  rcases hcase with ⟨-, ht⟩ | ⟨he, rfl, w, hw, ht⟩
  · refine hgo.trans (HeapState.entered_inside (fun y hy => ?_) ?_ ht)
    · have hb := h.hole_bounds (hM.sub.subset hy)
      exact HeapState.at_inside (by show v.startAddress ≤ _; omega) (by show _ ≤ v.endAddress; omega)
    · exact HeapState.at_inside (by show v.startAddress ≤ _; omega) (by show _ ≤ v.endAddress; omega)
  · obtain ⟨hmin, hle⟩ := hs (by rw [hM.merged]; exact he)
    rw [hM.merged] at hmin
    simp only at hmin
    have htop := h.top
    have hx' : ({ v with index := idx } : HeapState).startAddress ≤ x := by
      show v.startAddress ≤ x
      omega
    have hmin' : x + 8 ≤ ({ v with index := idx } : HeapState).startAddress + 0x70000 := by
      show _ ≤ v.startAddress + _
      omega
    have hle' : ({ v with index := idx } : HeapState).startAddress + 0x70000 ≤
        ({ v with index := idx } : HeapState).endAddress := by
      show v.startAddress + _ ≤ v.endAddress
      omega
    have hend' : x + n = ({ v with index := idx } : HeapState).endAddress := by
      show _ = v.endAddress
      omega
    have htop' : ({ v with index := idx } : HeapState).endAddress < 4294967296 := by
      show v.endAddress < _
      omega
    have hhd := hM.joined.header
    obtain ⟨hheap, -, -⟩ := HeapState.shrink_ok hx' hmin' hle' hend' htop' hhd hw
    have hwst : w.startAddress = s.startAddress := (congrArg Heap.startAddress hheap :).trans hst
    have hwen : w.endAddress = s.startAddress + 0x70000 :=
      (congrArg Heap.endAddress hheap :).trans (congrArg (· + 0x70000) hst)
    have hwi : w.index = idx := (congrArg Heap.index hheap :)
    refine (hgo.trans (HeapState.shrink_inside hx' hmin' hle' hend' htop'
      (congrArg Header.size hhd) hw)).trans (HeapState.entered_inside (fun y hy => ?_) ?_ ht)
    · -- the entries are the holes below the merged one, and perhaps it
      rw [hwi] at hy
      have hy' := hM.index.mem_iff.1 hy
      rw [holes_nil, List.append_nil] at hy'
      have hyx : s.startAddress ≤ y ∧ y ≤ x := by
        rcases List.mem_append.1 hy' with hy' | hy'
        · have := holes_bounds hy' fun b hb => hpos b (List.mem_append_left _ hb)
          omega
        · split at hy'
          · cases hy'
          · rw [List.mem_singleton] at hy'
            omega
      exact HeapState.at_inside (by omega) (by omega)
    · exact HeapState.at_inside (by omega) (by omega)

/-- **`Free` stays inside the heap exactly for a block that neither starts nor ends it.** -/
theorem Laid.free_inside_iff (h : Laid s (l ++ ⟨false, m⟩ :: r))
    (hq : q = s.startAddress + extent Block.size l) (hs : s.Shrinks (q + 4))
    (hf : s.free (q + 4) = .ok t) :
    s.Touches Touch.Inside t ↔ q ≠ s.startAddress ∧ q + m ≠ s.endAddress := by
  have hlow := h.low
  have htop := h.top
  have hpos := h.tags.pos
  have hfills := h.fills
  have ht : Tagged s.mem q ⟨false, m⟩ := by
    have htags := h.tags
    rw [allTagged_append, allTagged_cons, ← hq] at htags
    exact htags.2.1
  have h8 := ht.least
  rw [extent_append, extent_cons] at hfills
  simp only at h8 hfills
  constructor
  · intro hin
    obtain ⟨hbelow, habove⟩ := HeapState.free_reads (by omega) hf
    have hsz : (s.header q).size = m := congrArg Header.size ht.header
    rw [show sub32 (q + 4) 4 = q by rw [sub32_eq (by omega) (by omega)]; omega] at hbelow habove
    rw [hsz, show sub32 (add32 q m) 4 = q + m - 4 by
      rw [add32_eq (by omega), sub32_eq (by omega) (by omega)],
      show add32 (q + m - 4) 4 = q + m by rw [add32_eq (by omega)]; omega] at habove
    rw [sub32_eq (by omega) (by omega)] at hbelow
    have hb := (hbelow.of_touches hin).1
    have ha := (habove.of_touches hin).2
    simp only at hb ha
    exact ⟨by omega, by omega⟩
  · rintro ⟨hfirst, hlast⟩
    refine h.free_inside hq ?_ ?_ hs hf
    · rintro rfl
      exact hfirst hq
    · rintro rfl
      rw [extent_nil] at hfills
      omega

end

/-! ## Along a run -/

namespace Clients

theorem run_three : ∃ s t, Heap.create 0xC0000000 0xC0100000 0xCFFFF000 false false (fun _ => 0)
      Frames.blank = .ok s ∧
    Guarded.Run Step CallOk ⟨s, []⟩ ⟨t, [(0xC0081034, 16), (0xC008101C, 16), (0xC0081004, 16)]⟩ ∧
    WF t [⟨false, 24⟩, ⟨false, 24⟩, ⟨false, 24⟩, ⟨true, 0x7EFB8⟩] ∧
    t.startAddress = 0xC0081000 ∧ t.endAddress = 0xC0100000 ∧
    read32 t.mem (t.startAddress - 4) = 0 := by
  obtain ⟨s₀, hs₀⟩ := Heap.create_returns 0xCFFFF000 false false (fun _ => 0) Frames.blank
    (show 0xC0000000 % 4096 = 0 by decide) (show 0xC0100000 % 4096 = 0 by decide)
  obtain ⟨hwf₀, -, hst, hen, -, hoff⟩ := Heap.create_ok (by decide) (by decide) (by decide) hs₀
  have hslot₀ : read32 s₀.mem (s₀.startAddress - 4) = 0 := by
    rw [hst, hoff.read32 (by decide)]
    rfl
  obtain ⟨hok₁, s₁, ha₁, hr₁, hwf₁⟩ := @WF.alloc_last s₀ [] _ hwf₀ 16 nofun (by decide) (by decide)
  obtain ⟨hok₂, s₂, ha₂, hr₂, hwf₂⟩ := hwf₁.alloc_last 16 (by simp) (by decide) (by decide)
  obtain ⟨hok₃, s₃, ha₃, hr₃, hwf₃⟩ := hwf₂.alloc_last 16 (by simp) (by decide) (by decide)
  have hst₁ : s₁.startAddress = 0xC0081000 := hr₁.startAddress.trans hst
  have hst₂ : s₂.startAddress = 0xC0081000 := hr₂.startAddress.trans hst₁
  have hslot₁ := hwf₀.slot_kept hr₁.startAddress hr₁.off (Nat.le_add_right _ _) hslot₀
  have hslot₂ := hwf₁.slot_kept hr₂.startAddress hr₂.off (Nat.le_add_right _ _) hslot₁
  have hslot₃ := hwf₂.slot_kept hr₃.startAddress hr₃.off (Nat.le_add_right _ _) hslot₂
  rw [hst] at ha₁
  rw [hst₁] at ha₂
  rw [hst₂] at ha₃
  have r₀ : Guarded.Run Step CallOk ⟨s₀, []⟩ ⟨s₀, []⟩ := .refl
  have r₁ := run_alloc r₀ hok₁ ha₁
  have r₂ := run_alloc r₁ hok₂ ha₂
  exact ⟨s₀, s₃, hs₀, run_alloc r₂ hok₃ ha₃, hwf₃, hr₃.startAddress.trans hst₂,
    hr₃.endAddress.trans (hr₂.endAddress.trans (hr₁.endAddress.trans hen)), hslot₃⟩

section
variable {c : Clients} {start endAddr max p size : Nat} {supervisor readonly : Bool} {mem : Mem}
  {P : Paging} {s t : HeapState}

/-- **`Free` and the limits of the heap**, in every state that a run of good calls on a new heap
reaches: every tag it touches lies inside exactly when the block neither starts nor ends the heap. -/
theorem inside_run (hc : Heap.CreateOk start endAddr)
    (hs : Heap.create start endAddr max supervisor readonly mem P = .ok s)
    (hr : Guarded.Run Step CallOk ⟨s, []⟩ c) (hp : (p, size) ∈ c.live) (hok : c.heap.Shrinks p)
    (hf : c.heap.free p = .ok t) : c.heap.Touches Touch.Inside t ↔
      p - 4 ≠ c.heap.startAddress ∧ p - 4 + (c.heap.header (p - 4)).size ≠ c.heap.endAddress := by
  obtain ⟨bs, h⟩ := held_run hc hs hr
  obtain ⟨h4, n, -, hn⟩ := h.room _ hp
  obtain ⟨q, rfl⟩ : ∃ q, p = q + 4 := ⟨p - 4, by simp only at h4; omega⟩
  rw [Nat.add_sub_cancel] at hn ⊢
  obtain ⟨l, r, rfl, hq⟩ := mem_place_iff.1 (mem_allocs.1 hn)
  have hsz : (c.heap.header q).size = n :=
    congrArg Header.size (h.wf.tags _ (mem_allocs.1 hn)).header
  rw [hsz]
  exact h.wf.laid.free_inside_iff hq hok hf

end

/-- A block between two others is freed, inside the heap. -/
theorem inside_run_three : ∃ s t u, Heap.create 0xC0000000 0xC0100000 0xCFFFF000 false false
      (fun _ => 0) Frames.blank = .ok s ∧
    Guarded.Run Step CallOk ⟨s, []⟩ ⟨t, [(0xC0081034, 16), (0xC008101C, 16), (0xC0081004, 16)]⟩ ∧
    t.free 0xC008101C = .ok u ∧ t.Touches Touch.Inside u := by
  obtain ⟨s, t, hs, hr, hwf, hst, hen, hslot⟩ := run_three
  have hq : 0xC0081018 = t.startAddress + extent Block.size [⟨false, 24⟩] := by rw [hst]; rfl
  have hlaid : Laid t ([⟨false, 24⟩] ++ ⟨false, 24⟩ :: [⟨false, 24⟩, ⟨true, 0x7EFB8⟩]) := hwf.laid
  obtain ⟨hok, _, _, _, _, u, -, -, hu, -⟩ := hlaid.free_returns (hlaid.first hslot hq) (by decide) hq
    (by simp) (by simp) (by rw [hwf.capacity]; decide)
  have hsz : (t.header 0xC0081018).size = 24 := by
    have ht := hlaid.tags (0xC0081018, ⟨false, 24⟩) (by rw [hst]; simp)
    exact congrArg Header.size ht.header
  have hlive : (0xC008101C, 16) ∈ [(0xC0081034, 16), (0xC008101C, 16), (0xC0081004, 16)] := by simp
  refine ⟨s, t, u, hs, hr, hu, (inside_run (by decide) hs hr hlive hok.shrinks hu).2 ⟨?_, ?_⟩⟩
  · rw [hst]
    decide
  · rw [hsz, hen]
    decide

/-- **A word below the heap is read** for the first block. -/
theorem reads_below : ∃ s c u, Heap.create 0xC0000000 0xC0100000 0xCFFFF000 false false (fun _ => 0)
      Frames.blank = .ok s ∧ Guarded.Run Step CallOk ⟨s, []⟩ c ∧
    (0xC0081004, 16) ∈ c.live ∧ c.heap.free 0xC0081004 = .ok u ∧
    ¬ c.heap.Touches Touch.Inside u := by
  obtain ⟨s, t, hs, hr, hwf, hst, hen, hslot⟩ := run_three
  have hlaid : Laid t ([] ++ ⟨false, 24⟩ :: [⟨false, 24⟩, ⟨false, 24⟩, ⟨true, 0x7EFB8⟩]) := hwf.laid
  have hq : 0xC0081000 = t.startAddress + extent Block.size [] := by rw [hst]; rfl
  obtain ⟨-, _, _, _, _, u, -, -, hu, -⟩ := hlaid.free_returns (hlaid.first hslot hq) (by decide) hq
    (by simp) (by simp) (by rw [hwf.capacity]; decide)
  refine ⟨s, _, u, hs, hr, by simp, hu, fun hin => ?_⟩
  have hbelow := ((HeapState.free_reads (by decide) hu).1.of_touches hin).1
  rw [show sub32 (sub32 0xC0081004 4) 4 = 0xC0080FFC by decide] at hbelow
  have hlo : t.startAddress ≤ 0xC0080FFC := hbelow
  rw [hst] at hlo
  exact absurd hlo (by decide)

end Clients

end Dmanix
