import Dmanix.Memory.Proof.Search
import Dmanix.Memory.Proof.Ghosts
import Mathlib.Data.List.Perm.Basic

/-!
# Merging a freed block

`Free` makes a hole of the block and of the holes next to it. `Joined s u x n`: the bytes
`[x, x + n)` of `u` have the tags of one hole, whose size is cut to its field of 22 bits, and the
rest of `s` is as it was. Each store of `coalesce` keeps it for a larger `n` (`joined_resize`), so
that it holds of the merged hole however large it is (`Laid.coalesce_ok`).

`coalesce_inv` is what a call says of the index and of the merged hole's place without looking at
the blocks: the hole below is the one `holeBefore` reads.
-/

namespace Dmanix

open Word32 Bytes Tiling

/-- The bytes `[x, x + n)` have the tags of one hole, its size cut to the field; nothing else of `s`
changed. -/
structure Joined (s u : HeapState) (x n : Nat) : Prop where
  heap : u.toHeap = s.toHeap
  paging : u.paging = s.paging
  off : Off x (x + n) s.mem u.mem
  header : u.header x = ⟨0x1FF, true, n % 4194304⟩
  magic : (u.footer (x + n - 4)).magic = 0x1FF
  size : (u.footer (x + n - 4)).size = n % 4194304

theorem Joined.congr {s u v : HeapState} {x n : Nat} (h : Joined s u x n)
    (hh : v.toHeap = u.toHeap) (hp : v.paging = u.paging) (hm : v.mem = u.mem) : Joined s v x n := by
  refine ⟨hh.trans h.heap, hp.trans h.paging, hm ▸ h.off, ?_, ?_, ?_⟩
  · rw [HeapState.header, hm]
    exact h.header
  · rw [HeapState.footer, hm]
    exact h.magic
  · rw [HeapState.footer, hm]
    exact h.size

namespace HeapState

variable {s u : HeapState} {x n v k : Nat}

theorem header_resize (hh : u.header x = ⟨0x1FF, true, k⟩) :
    (u.storeHeaderSize x v).header x = ⟨0x1FF, true, v % 4194304⟩ := by
  show Dmanix.header (setHeader u.mem x _) x = _
  rw [header_setHeader, hh]
  rfl

/-- **A new size** in the header of a hole and in the footer at its new end. -/
theorem joined_resize (hh : u.header x = ⟨0x1FF, true, k⟩)
    (hmag : (u.footer (x + n - 4)).magic = 0x1FF) (hv : v % 4194304 = n % 4194304) (h8 : 8 ≤ n)
    (hheap : u.toHeap = s.toHeap) (hp : u.paging = s.paging) (ho : Off x (x + n) s.mem u.mem) :
    Joined s ((u.storeHeaderSize x v).storeFooterSize (x + n - 4)
      ((u.storeHeaderSize x v).header x).size) x n := by
  have hhd := header_resize (v := v) hh
  have hmag' : ((u.storeHeaderSize x v).footer (x + n - 4)).magic = 0x1FF := by
    refine (congrArg Footer.magic ?_).trans hmag
    exact footer_setHeader_apart (by omega)
  refine ⟨hheap, hp, ho.trans ?_, ?_, ?_, ?_⟩
  · exact ((off_setHeader u.mem x _).mono (Nat.le_refl _) (by omega)).trans
      ((off_setFooter _ (x + n - 4) _).mono (by omega) (by omega))
  · refine (header_setFooter_apart (by omega)).trans (hhd.trans ?_)
    rw [hv]
  · show (Dmanix.footer (setFooter _ _ _) _).magic = _
    rw [footer_setFooter]
    exact (congrArg (· % 512) hmag').trans rfl
  · show (Dmanix.footer (setFooter _ _ _) _).size = _
    rw [footer_setFooter, hhd]
    show v % 4194304 % 4194304 = _
    rw [Nat.mod_mod, hv]

theorem joined_mark (ht : Tagged s.mem x ⟨false, n⟩) : Joined s (s.storeHeaderHole x true) x n := by
  have h8 := ht.least
  have hn : n % 4194304 = n := Nat.mod_eq_of_lt ht.lt
  simp only at h8
  have hoff : Off x (x + 4) s.mem (s.storeHeaderHole x true).mem := off_setHeader s.mem x _
  have hf : (s.storeHeaderHole x true).footer (x + n - 4) = s.footer (x + n - 4) :=
    footer_off hoff (by omega)
  refine ⟨rfl, rfl, hoff.mono (Nat.le_refl _) (by omega), ?_, ?_, ?_⟩
  · show Dmanix.header (setHeader s.mem x _) x = _
    rw [header_setHeader]
    show (⟨(Dmanix.header s.mem x).magic % 512, true, (Dmanix.header s.mem x).size % 4194304⟩ :
      Header) = _
    rw [ht.header]
    rfl
  · rw [hf]
    exact ht.magic
  · rw [hf, hn]
    exact ht.size

/-! ## To the left -/

theorem holeBefore_congr {q : Nat} (hm : u.mem = s.mem) : u.holeBefore q = s.holeBefore q := by
  unfold holeBefore footer header
  rw [hm]

theorem joined_read {q m f : Nat} (hj : Joined s u q m) (h : u.holeBefore q = none) :
    ∃ v, u.coalesceLeft q f = (v, q, true) ∧ Joined s v q m := by
  refine ⟨_, coalesceLeft_none h, hj.congr ?_ ?_ ?_⟩ <;> split <;> rfl

/-- **The hole below takes the block.** -/
theorem joined_left {q m : Nat} (hj : Joined s u q m) (h8 : 8 ≤ m) (hm : m < 4194304)
    (ht : Tagged s.mem x ⟨true, k⟩) (hq : q = x + k) (hleft : u.holeBefore q = some x) :
    ∃ v, u.coalesceLeft q (q + m - 4) = (v, x, false) ∧ Joined s v x (k + m) := by
  have he := coalesceLeft_some (f := q + m - 4) hleft
  dsimp only at he
  generalize hw : ((u.touch (sub32 q 4)).touch x).touch q = w at he
  have hwm : w.mem = u.mem := by rw [← hw]; rfl
  have hwh : w.toHeap = u.toHeap := by rw [← hw]; rfl
  have hwp : w.paging = u.paging := by rw [← hw]; rfl
  have hk := ht.lt
  simp only at hk
  have hux : u.header x = ⟨0x1FF, true, k⟩ := by
    have h8' := ht.least
    exact (header_off hj.off (.inl (by simp only at h8'; omega))).trans ht.header
  have hwx : w.header x = ⟨0x1FF, true, k⟩ := by
    rw [header, hwm]
    exact hux
  have hadd : add32 (u.header x).size (u.header q).size = k + m := by
    rw [hux, hj.header, Nat.mod_eq_of_lt hm]
    exact add32_eq (show k + m < 4294967296 by omega)
  rw [hadd] at he
  refine ⟨_, he, ?_⟩
  rw [show q + m - 4 = x + (k + m) - 4 by omega]
  refine joined_resize hwx ?_ rfl (by omega) (hwh.trans hj.heap) (hwp.trans hj.paging) ?_
  · rw [footer, hwm, show x + (k + m) - 4 = q + m - 4 by omega]
    exact hj.magic
  · rw [hwm]
    exact hj.off.mono (by omega) (by omega)

/-! ## To the right -/

/-- **The hole above is taken.** -/
theorem joined_right (hj : Joined s u x n) (h8 : 8 ≤ n) (ht : Tagged s.mem (x + n) ⟨true, k⟩)
    (hb : x + n + k < 4294967296) : Joined s (u.mergeRight x (x + n)).1 x (n + k) ∧
      (u.mergeRight x (x + n)).2 = x + (n + k) - 4 := by
  have hk := ht.lt
  have hk8 := ht.least
  simp only at hk hk8
  have hur : u.header (x + n) = ⟨0x1FF, true, k⟩ :=
    (header_off hj.off (.inr (Nat.le_refl _))).trans ht.header
  have hfr : (u.footer (x + n + k - 4)).magic = 0x1FF :=
    (congrArg Footer.magic (footer_off hj.off (.inr (by omega)))).trans ht.magic
  have hadd : add32 (u.header x).size (u.header (x + n)).size = n % 4194304 + k := by
    rw [hj.header, hur]
    exact add32_eq (show n % 4194304 + k < 4294967296 by omega)
  have hkeep : (u.storeHeaderSize x (n % 4194304 + k)).header (x + n) = ⟨0x1FF, true, k⟩ :=
    (header_setHeader_apart (by omega)).trans hur
  have hf : sub32 (add32 (x + n) k) 4 = x + (n + k) - 4 := by
    rw [add32_eq hb, sub32_eq (by omega) hb]
    omega
  have hr := joined_resize (n := n + k) (v := n % 4194304 + k) hj.header
    (by rw [← Nat.add_assoc]; exact hfr) (by omega) (by omega) hj.heap hj.paging
    (hj.off.mono (Nat.le_refl _) (by omega))
  unfold mergeRight
  simp only [hadd, header_touch, hkeep, hf]
  exact ⟨hr.congr rfl rfl rfl, trivial⟩

theorem remove_entry {y : Nat} (hy : y ∈ s.index.items) (hs : s.index.size < s.index.capacity)
    (hc : s.index.capacity ≤ 0x20000) : s.index.items.findIdx (· == y) < s.index.size ∧
      ∃ idx : OrderedArray Nat, s.indexRemove (s.index.items.findIdx (· == y)) =
        .ok { s with index := idx } ∧ s.index.items.Perm (y :: idx.items) ∧
        idx.items.Sublist s.index.items ∧ idx.capacity = s.index.capacity ∧
        idx.size = s.index.size - 1 := by
  have hlt : s.index.items.findIdx (· == y) < s.index.items.length :=
    List.findIdx_lt_length.2 ⟨y, hy, by simp⟩
  have hget : s.index.items[s.index.items.findIdx (· == y)] = y := by
    simpa using List.findIdx_getElem (w := hlt)
  have hsz : s.index.items.findIdx (· == y) < s.index.size := by simpa using hlt
  obtain ⟨idx, hit, hcap, hsize, he⟩ := indexRemove_eq hsz hs hc
  refine ⟨hsz, idx, he, ?_, hit ▸ List.eraseIdx_sublist _ _, hcap, hsize⟩
  rw [hit]
  have hp := List.getElem_cons_eraseIdx_perm hlt
  rw [hget] at hp
  exact hp.symm

theorem coalesceRight_removed {f y : Nat} (hy : add32 f 4 = y) (h : u.holeAt y = true)
    (hmem : y ∈ u.index.items) (hs : u.index.size < u.index.capacity)
    (hc : u.index.capacity ≤ 0x20000) : ∃ idx : OrderedArray Nat,
      u.coalesceRight x f = .ok ({ ((u.touch y).mergeRight x y).1 with index := idx },
        ((u.touch y).mergeRight x y).2) ∧
      u.index.items.Perm (y :: idx.items) ∧ idx.items.Sublist u.index.items ∧
      idx.capacity = u.index.capacity ∧ idx.size = u.index.size - 1 := by
  have hidx : ((u.touch y).mergeRight x y).1.index = u.index := by
    rw [toHeap_mergeRight, toHeap_touch]
  obtain ⟨-, idx, he, hp, hsub, hcap, hsz⟩ :=
    remove_entry (s := ((u.touch y).mergeRight x y).1) (y := y)
      (by rw [hidx]; exact hmem) (by rw [hidx]; exact hs) (by rw [hidx]; exact hc)
  rw [hidx] at he hp hsub hcap hsz
  refine ⟨idx, ?_, hp, hsub, hcap, hsz⟩
  rw [coalesceRight_some hy h hmem, he, ok_bind]
  rfl

theorem coalesceRight_mem {f y : Nat} {w : HeapState × Nat} (hy : add32 f 4 = y)
    (h : u.holeAt y = true) (hw : u.coalesceRight x f = .ok w) : y ∈ u.index.items := by
  by_contra hne
  obtain ⟨e, he⟩ := coalesceRight_stop (x := x) hy h hne
  rw [he] at hw
  cases hw

end HeapState

/-! ## The blocks around -/

/-- No blocks, or one hole. -/
def Piece (l : List Block) : Prop := l = [] ∨ ∃ k, l = [⟨true, k⟩]

theorem Piece.allocs {l : List Block} (h : Piece l) (a : Nat) : allocs a l = [] := by
  rcases h with rfl | ⟨k, rfl⟩
  · rfl
  · simp [allocs_cons]

section
variable {s u : HeapState} {l r : List Block} {q m : Nat}

/-- `l` is `kept` and its last block, if that is a hole. -/
structure EndHole (l kept before : List Block) : Prop where
  split : l = kept ++ before
  piece : Piece before
  none : before = [] → ∀ b ∈ kept.getLast?, b.hole = false

/-- `r` is its first block, if that is a hole, and `rest`. -/
structure HeadHole (r after rest : List Block) : Prop where
  split : r = after ++ rest
  piece : Piece after
  none : after = [] → ∀ b ∈ rest.head?, b.hole = false

theorem EndHole.unique {k k' b b' : List Block} (h : EndHole l k b) (h' : EndHole l k' b') :
    b = b' ∧ k = k' := by
  have hs := h.split
  have hs' := h'.split
  have hlast {j : Nat} {k₁ k₂ : List Block} (h₁ : EndHole l k₁ []) (hl : l = k₂ ++ [⟨true, j⟩]) :
      False := by
    have hb := h₁.none rfl ⟨true, j⟩ (by
      rw [← show l = k₁ by simpa using h₁.split, hl, List.getLast?_concat]
      rfl)
    cases hb
  rcases h.piece with rfl | ⟨j, rfl⟩ <;> rcases h'.piece with rfl | ⟨j', rfl⟩
  · exact ⟨rfl, by simpa using hs.symm.trans hs'⟩
  · exact (hlast h hs').elim
  · exact (hlast h' hs).elim
  · have hj := List.append_inj' (hs.symm.trans hs') rfl
    exact ⟨hj.2, hj.1⟩

theorem EndHole.eq {k b : List Block} (h : EndHole l k b) (hl : ∀ a ∈ l.getLast?, a.hole = false) :
    b = [] ∧ k = l :=
  h.unique ⟨(List.append_nil l).symm, .inl rfl, fun _ => hl⟩

theorem AllTagged.last_footer {a : Nat} {M : Mem} (h : AllTagged M a l)
    (hq : q = a + extent Block.size l) (hl : l ≠ []) :
    ∃ k, 8 ≤ k ∧ a + k ≤ q ∧ (footer M (q - 4)).size = k := by
  rcases List.eq_nil_or_concat l with rfl | ⟨l', ⟨hole, k⟩, rfl⟩
  · exact absurd rfl hl
  · rw [List.concat_eq_append, allTagged_append, allTagged_single] at h
    rw [List.concat_eq_append, extent_append, extent_cons, extent_nil] at hq
    have h8 := h.2.least
    have hsize := h.2.size
    simp only at h8 hq hsize
    refine ⟨k, h8, by omega, ?_⟩
    rw [show q - 4 = a + extent Block.size l' + k - 4 by omega]
    exact hsize

/-- **The hole below** is read from the footer of the block before. -/
theorem AllTagged.holeBefore_cases {hi : Nat} (h : AllTagged s.mem s.startAddress l)
    (hq : q = s.startAddress + extent Block.size l) (hlow : 4096 ≤ s.startAddress)
    (hq32 : q < 4294967296) (hoff : Off q hi s.mem u.mem) (first : l = [] → u.holeBefore q = none) :
    ∃ l' before x, EndHole l l' before ∧ x = s.startAddress + extent Block.size l' ∧
      ((before = [] ∧ u.holeBefore q = none) ∨
        ∃ k, before = [⟨true, k⟩] ∧ u.holeBefore q = some x) := by
  rcases List.eq_nil_or_concat l with rfl | ⟨l', ⟨hole, k⟩, rfl⟩
  · exact ⟨[], [], q, ⟨rfl, .inl rfl, fun _ => nofun⟩, hq, .inl ⟨rfl, first rfl⟩⟩
  · rw [List.concat_eq_append, allTagged_append, allTagged_single] at h
    rw [List.concat_eq_append, extent_append, extent_cons, extent_nil] at hq
    have ht := h.2
    have h8 := ht.least
    simp only at h8 hq
    have hf : u.footer (sub32 q 4) =
        s.footer (s.startAddress + extent Block.size l' + k - 4) := by
      rw [sub32_eq (by omega) hq32, show q - 4 = s.startAddress + extent Block.size l' + k - 4 by
        omega]
      exact footer_off hoff (.inl (by omega))
    have hh : u.header (s.startAddress + extent Block.size l') = ⟨0x1FF, hole, k⟩ :=
      (header_off hoff (.inl (by omega))).trans ht.header
    have hmag : (u.footer (sub32 q 4)).magic = 0x1FF := by rw [hf]; exact ht.magic
    have hsize : (u.footer (sub32 q 4)).size = k := by rw [hf]; exact ht.size
    have hx : sub32 q k = s.startAddress + extent Block.size l' := by
      rw [sub32_eq (by omega) hq32]
      omega
    unfold HeapState.holeBefore
    simp only [hmag, hsize, hx, hh, true_and]
    cases hole with
    | true =>
      exact ⟨l', [⟨true, k⟩], _, ⟨by simp, .inr ⟨k, rfl⟩, nofun⟩, rfl, .inr ⟨k, rfl, if_pos rfl⟩⟩
    | false =>
      refine ⟨l'.concat ⟨false, k⟩, [], q, ⟨by simp, .inl rfl, fun _ b hb => ?_⟩, ?_,
        .inl ⟨rfl, if_neg (by simp)⟩⟩
      · simp only [List.concat_eq_append, List.getLast?_append, List.getLast?_singleton,
          Option.some_or, Option.mem_def, Option.some.injEq] at hb
        rw [← hb]
      · rw [List.concat_eq_append, extent_append, extent_cons, extent_nil]
        exact hq.trans (by simp)

/-- **The hole above** is read from its header. -/
theorem AllTagged.holeAt_cases {lo : Nat} (h : AllTagged s.mem q r) (hoff : Off lo q s.mem u.mem)
    (last : r = [] → u.holeAt q = false) :
    ∃ after r', HeadHole r after r' ∧ ((after = [] ∧ u.holeAt q = false) ∨
      ∃ k, after = [⟨true, k⟩] ∧ Tagged s.mem q ⟨true, k⟩ ∧ u.holeAt q = true) := by
  cases r with
  | nil => exact ⟨[], [], ⟨rfl, .inl rfl, fun _ => nofun⟩, .inl ⟨rfl, last rfl⟩⟩
  | cons b r =>
    obtain ⟨hole, k⟩ := b
    have ht := (allTagged_cons.1 h).1
    have hh : u.header q = ⟨0x1FF, hole, k⟩ :=
      (header_off hoff (.inr (Nat.le_refl _))).trans ht.header
    unfold HeapState.holeAt
    rw [hh]
    cases hole with
    | true =>
      exact ⟨[⟨true, k⟩], r, ⟨rfl, .inr ⟨k, rfl⟩, nofun⟩, .inr ⟨k, rfl, ht, rfl⟩⟩
    | false =>
      refine ⟨[], ⟨false, k⟩ :: r, ⟨rfl, .inl rfl, fun _ b hb => ?_⟩, .inl ⟨rfl, rfl⟩⟩
      cases hb
      rfl

theorem HeapState.coalesce_tagged (ht : Tagged s.mem q ⟨false, m⟩) (hb : q + m < 4294967296) :
    s.coalesce (q + 4) = (do
      let left := (s.marked q (q + m - 4)).coalesceLeft q (q + m - 4)
      let w ← left.1.coalesceRight left.2.1 (q + m - 4)
      return (w.1, left.2.1, w.2, q + m, left.2.2)) := by
  have h8 := ht.least
  simp only at h8
  have hr : add32 (q + m - 4) 4 = q + m := by
    rw [add32_eq (by omega)]
    omega
  rw [coalesce_eq rfl ht.header h8 rfl hb ht.magic ht.size, hr]

end

section
variable {s : HeapState} {bs l r : List Block} {q m : Nat}

/-- **`coalesce` to the left**: the bytes from the hole below on, or from the block on, are one hole's,
and what is left to do is the merge to the right. -/
theorem Laid.coalesce_left (h : Laid s (l ++ ⟨false, m⟩ :: r))
    (hq : q = s.startAddress + extent Block.size l)
    (first : l = [] → (s.storeHeaderHole q true).holeBefore q = none) :
    ∃ l' before x v, EndHole l l' before ∧
      x = s.startAddress + extent Block.size l' ∧ Joined s v x (extent Block.size before + m) ∧
      (extent Block.size before + m < 4194304 → HeapState.Fits s v) ∧
      (l ≠ [] → HeapState.Touches Touch.Inside s v) ∧
      s.coalesce (q + 4) = (do
        let w ← v.coalesceRight x (q + m - 4)
        return (w.1, x, w.2, q + m, before.isEmpty)) := by
  have hlow := h.low
  have htop := h.top
  have hf := h.fills
  rw [extent_append, extent_cons] at hf
  simp only at hf
  have htags := h.tags
  rw [allTagged_append, allTagged_cons, ← hq] at htags
  obtain ⟨htl, ht, -⟩ := htags
  have h8 := ht.least
  have h22 := ht.lt
  simp only at h8 h22
  have he := HeapState.coalesce_tagged ht (by omega)
  have hj : Joined s (s.marked q (q + m - 4)) q m :=
    (HeapState.joined_mark ht).congr rfl rfl rfl
  have hbefore : (s.marked q (q + m - 4)).holeBefore q =
      (s.storeHeaderHole q true).holeBefore q := HeapState.holeBefore_congr rfl
  obtain ⟨l', before, x, hend, hx, hcase⟩ := htl.holeBefore_cases hq hlow (by omega) hj.off
    fun hl => hbefore.trans (first hl)
  have hl := hend.split
  -- what the merge to the left touches lies in the heap
  have hreach : l ≠ [] → HeapState.Touches Touch.Inside s
      ((s.marked q (q + m - 4)).coalesceLeft q (q + m - 4)).1 := by
    intro hne
    obtain ⟨k, hk8, hkl, hsize⟩ := htl.last_footer hq hne
    have h4 : sub32 q 4 = q - 4 := sub32_eq (by omega) (by omega)
    have hfoot : ((s.marked q (q + m - 4)).footer (q - 4)).size = k :=
      (congrArg Footer.size (footer_off hj.off (.inl (by omega)))).trans hsize
    have hwithin : ∀ a, s.startAddress ≤ a → a + 4 ≤ q + m → HeapState.At Touch.Inside s a :=
      fun a h1 h2 => HeapState.at_inside h1 (by omega)
    refine (HeapState.marked_touches (hwithin q (by omega) (by omega))
      (hwithin _ (by omega) (by omega))).trans (HeapState.coalesceLeft_touches ?_ (fun _ => ?_)
        ((hwithin q (by omega) (by omega)).congr rfl) ((hwithin _ (by omega) (by omega)).congr rfl))
    · rw [h4]
      exact (hwithin _ (by omega) (by omega)).congr rfl
    · rw [h4, hfoot, sub32_eq (by omega) (by omega)]
      exact (hwithin _ (by omega) (by omega)).congr rfl
  rcases hcase with ⟨rfl, hnone⟩ | ⟨k, rfl, hsome⟩
  · obtain ⟨v, hleft, hv⟩ := HeapState.joined_read (f := q + m - 4) hj hnone
    rw [List.append_nil] at hl
    have hxq : x = q := by rw [hx, hq, hl]
    subst hxq
    rw [hleft] at hreach
    refine ⟨l', [], x, v, hend, hx, ?_, fun _ => ?_, hreach, ?_⟩
    · rw [extent_nil, Nat.zero_add]
      exact hv
    · have hfits := (HeapState.marked_fits x (x + m - 4)).trans
        (HeapState.coalesceLeft_fits (f := x + m - 4) fun y hy => by rw [hnone] at hy; cases hy)
      rwa [hleft] at hfits
    · rw [he, hleft]
      rfl
  · have htk : Tagged s.mem x ⟨true, k⟩ := by
      rw [hl, allTagged_append, allTagged_single, ← hx] at htl
      exact htl.2
    have hqx : q = x + k := by
      rw [hq, hl, extent_append, extent_cons, extent_nil, hx]
      simp only
      omega
    obtain ⟨w, hleft, hw⟩ := HeapState.joined_left hj h8 h22 htk hqx hsome
    rw [hleft] at hreach
    refine ⟨l', [⟨true, k⟩], x, w, hend, hx, ?_, fun hlt => ?_, hreach, ?_⟩
    · rw [extent_cons, extent_nil, Nat.add_zero]
      exact hw
    · have hxk : ((s.marked q (q + m - 4)).header x).size = k := by
        have hk8 := htk.least
        simp only at hk8
        exact congrArg Header.size ((header_off hj.off (.inl (by omega))).trans htk.header)
      have hqm : ((s.marked q (q + m - 4)).header q).size = m := by
        rw [hj.header]
        exact Nat.mod_eq_of_lt h22
      have hfits := (HeapState.marked_fits q (q + m - 4)).trans
        (HeapState.coalesceLeft_fits (f := q + m - 4) fun y hy => by
          rw [hsome] at hy
          cases hy
          rw [hxk, hqm]
          simpa using hlt)
      rwa [hleft] at hfits
    · rw [he, hleft]
      rfl

/-- A call that returned has not taken the word at `end_address` for a hole. -/
theorem Laid.coalesce_last {res : HeapState × Nat × Nat × Nat × Bool}
    (h : Laid s (l ++ ⟨false, m⟩ :: r)) (hq : q = s.startAddress + extent Block.size l)
    (first : l = [] → (s.storeHeaderHole q true).holeBefore q = none)
    (hc : s.coalesce (q + 4) = .ok res) (hr : r = []) : s.holeAt (q + m) = false := by
  have hf := h.fills
  have htop := h.top
  have h8 : 8 ≤ m := h.tags.pos ⟨false, m⟩ (by simp)
  rw [hr, extent_append, extent_cons, extent_nil] at hf
  simp only at hf
  obtain ⟨l', before, x, v, ⟨hl, -, -⟩, hx, hj, -, -, he⟩ := h.coalesce_left hq first
  have hlq : q = x + extent Block.size before := by
    rw [hq, hl, extent_append, hx]
    omega
  rw [he] at hc
  obtain ⟨w, hw, -⟩ := bind_ok.1 hc
  by_contra hne
  have hat : v.holeAt (q + m) = true := by
    have hh : v.header (q + m) = s.header (q + m) := header_off hj.off (.inr (by omega))
    unfold HeapState.holeAt at hne ⊢
    rw [hh]
    simpa using hne
  have hmem := HeapState.coalesceRight_mem (by rw [add32_eq] <;> omega) hat hw
  rw [hj.heap] at hmem
  have := h.hole_bounds hmem
  omega

/-- **`coalesce` to the right**: the hole behind the joined bytes, if there is one, becomes part of
theirs, and its entry leaves the index. -/
theorem Joined.coalesce_right {v : HeapState} {x n : Nat} {below : List Nat} (hj : Joined s v x n)
    (h8 : 8 ≤ n) (hx : s.startAddress ≤ x) (ht : AllTagged s.mem (x + n) r)
    (hf : x + n + extent Block.size r = s.endAddress) (htop : s.endAddress < 4294967296)
    (hslots : s.index.size < s.index.capacity) (hcapacity : s.index.capacity ≤ 0x20000)
    (hi : s.index.items.Perm (below ++ holes (x + n) r)) (last : r = [] → s.holeAt (x + n) = false) :
    ∃ after r' w idx, HeadHole r after r' ∧ Joined s w x (n + extent Block.size after) ∧
      idx.items.Perm (below ++ holes (x + (n + extent Block.size after)) r') ∧
      idx.items.Sublist s.index.items ∧ idx.capacity = s.index.capacity ∧ idx.size ≤ s.index.size ∧
      (n + extent Block.size after < 4194304 → HeapState.Fits v w) ∧
      (r ≠ [] → HeapState.Touches Touch.Inside v w) ∧
      v.coalesceRight x (x + n - 4) =
        .ok ({ w with index := idx }, x + (n + extent Block.size after) - 4) := by
  have hy : add32 (x + n - 4) 4 = x + n := by
    rw [add32_eq (by omega)]
    omega
  have hidx : v.index = s.index := congrArg Heap.index hj.heap
  have hh : v.header (x + n) = s.header (x + n) := header_off hj.off (.inr (Nat.le_refl _))
  have habove : r ≠ [] → HeapState.At Touch.Inside v (x + n) := fun hne => by
    obtain ⟨b, r₀, rfl⟩ := List.exists_cons_of_ne_nil hne
    have hb := (allTagged_cons.1 ht).1.least
    rw [extent_cons] at hf
    exact (HeapState.at_inside (by omega) (by omega)).congr hj.heap
  obtain ⟨after, r', hheads, hcase⟩ := ht.holeAt_cases hj.off fun hr => by
    have hlast := last hr
    unfold HeapState.holeAt at hlast ⊢
    rw [hh]
    exact hlast
  rcases hcase with ⟨rfl, hnone⟩ | ⟨k, rfl, htk, hsome⟩
  · have hr : r = r' := hheads.split
    refine ⟨[], r', v.touch (x + n), v.index, hheads, hj.congr rfl rfl rfl, ?_, ?_, ?_, ?_,
      fun _ => .of_eq rfl, fun hne => .touch (habove hne) rfl, ?_⟩
    · rw [hidx, ← hr]
      exact hi
    · rw [hidx]
    · rw [hidx]
    · rw [hidx]
    · rw [HeapState.coalesceRight_none hy hnone]
      rfl
  · have hr : r = ⟨true, k⟩ :: r' := hheads.split
    rw [hr, extent_cons] at hf
    rw [hr, holes_cons, if_pos rfl] at hi
    simp only at hf hi
    have hmem : x + n ∈ v.index.items := by
      rw [hidx]
      exact hi.mem_iff.2 (by simp)
    obtain ⟨idx, hright, hp, hsub, hcap, hsz⟩ := HeapState.coalesceRight_removed (x := x) hy hsome hmem
      (by rw [hidx]; exact hslots) (by rw [hidx]; exact hcapacity)
    rw [hidx] at hp hsub hcap hsz
    obtain ⟨hj', hfoot⟩ := HeapState.joined_right (u := v.touch (x + n)) (hj.congr rfl rfl rfl) h8 htk
      (by omega)
    have hext : extent Block.size [⟨true, k⟩] = k := by simp
    refine ⟨[⟨true, k⟩], r', _, idx, hheads, hext.symm ▸ hj', ?_, hsub, hcap, by omega, fun hlt => ?_,
      fun hne => ?_, ?_⟩
    · refine (List.perm_cons (x + n)).1 (hp.symm.trans (hi.trans ?_))
      rw [hext, ← Nat.add_assoc]
      exact List.perm_middle
    · refine HeapState.Fits.trans (t := v.touch (x + n)) (.of_eq rfl) (HeapState.mergeRight_fits ?_)
      have hxs : ((v.touch (x + n)).header x).size = n := by
        rw [HeapState.header_touch, hj.header]
        exact Nat.mod_eq_of_lt (by omega)
      have hys : ((v.touch (x + n)).header (x + n)).size = k := by
        rw [HeapState.header_touch, hh]
        exact congrArg Header.size htk.header
      rw [hxs, hys]
      exact hext ▸ hlt
    · have hy := habove hne
      refine HeapState.Touches.trans (t := v.touch (x + n)) (.touch hy rfl) ?_
      refine HeapState.mergeRight_touches ((HeapState.at_inside (s := s) hx (by omega)).congr hj.heap)
        (hy.congr rfl) ?_
      rw [hfoot]
      exact (HeapState.at_inside (s := s) (by omega) (by omega)).congr hj.heap
    · rw [hright, hfoot, hext]

/-- **`coalesce`**: the block and the holes next to it are one hole, and the index lists the holes
apart from the one above, which is merged, and from a new one. -/
theorem Laid.coalesce_ok (h : Laid s (l ++ ⟨false, m⟩ :: r))
    (hq : q = s.startAddress + extent Block.size l)
    (first : l = [] → (s.storeHeaderHole q true).holeBefore q = none)
    (last : r = [] → s.holeAt (q + m) = false) :
    ∃ l' before after r' x n v idx, EndHole l l' before ∧ HeadHole r after r' ∧
      x = s.startAddress + extent Block.size l' ∧
      n = extent Block.size (before ++ ⟨false, m⟩ :: after) ∧ Joined s v x n ∧
      idx.items.Perm (holes s.startAddress l' ++ ((if before = [] then [] else [x]) ++
        holes (x + n) r')) ∧ idx.items.Sublist s.index.items ∧
      idx.capacity = s.index.capacity ∧ idx.size ≤ s.index.size ∧
      (n < 4194304 → HeapState.Fits s v) ∧ (l ≠ [] → r ≠ [] → HeapState.Touches Touch.Inside s v) ∧
      s.coalesce (q + 4) = .ok ({ v with index := idx }, x, x + n - 4, q + m, before.isEmpty) := by
  have hf := h.fills
  have htags := h.tags
  have hi := h.index
  rw [extent_append, extent_cons] at hf
  rw [allTagged_append, allTagged_cons, ← hq] at htags
  simp only at hf htags
  have h8 : 8 ≤ m := htags.2.1.least
  obtain ⟨l', before, x, v, hends, hx, hj, hfits, hreach, he⟩ := h.coalesce_left hq first
  have hl := hends.split
  have hlq : q = x + extent Block.size before := by
    rw [hq, hl, extent_append, hx]
    omega
  have hqx : q + m = x + (extent Block.size before + m) := by omega
  -- the holes with the parts named
  have hbefore : holes x before = if before = [] then [] else [x] := by
    rcases hends.piece with rfl | ⟨k, rfl⟩
    · rfl
    · rw [if_neg (by simp)]
      simp [holes_cons]
  rw [hl, List.append_assoc, holes_append, holes_append, ← hx, holes_cons, ← hlq, hbefore, hqx] at hi
  simp only [Bool.false_eq_true, if_false, List.nil_append] at hi
  rw [← List.append_assoc] at hi
  rw [hqx] at htags last
  obtain ⟨after, r', w, idx, hheads, hjw, hp, hsub, hcap, hsz, hfw, htw, hright⟩ := hj.coalesce_right
    (by omega) (by omega) htags.2.2 (by omega) h.top h.slots h.capacity hi last
  have hn : extent Block.size (before ++ ⟨false, m⟩ :: after) =
      extent Block.size before + m + extent Block.size after := by
    rw [extent_append, extent_cons, Nat.add_assoc]
  refine ⟨l', before, after, r', x, _, w, idx, hends, hheads, hx, hn.symm, hjw, ?_, hsub, hcap, hsz,
    fun hlt => (hfits (by omega)).trans (hfw hlt), fun h1 h2 => (hreach h1).trans (htw h2), ?_⟩
  · rw [← List.append_assoc]
    exact hp
  · rw [he, hqx, hright]
    rfl

end

theorem HeapState.free_keep {s u : HeapState} {p x f right : Nat} {doAdd : Bool} (hp : p ≠ 0)
    (hc : s.coalesce p = .ok (u, x, f, right, doAdd)) (he : add32 f 4 ≠ u.endAddress) :
    s.free p = if doAdd then u.indexInsert x else .ok u := by
  unfold free
  rw [if_neg hp, hc]
  simp only [ok_bind]
  rw [if_neg he]
  cases doAdd <;> rfl

theorem HeapState.entered {u t : HeapState} {x : Nat} {doAdd : Bool} {old : List Nat}
    (hs : u.index.size < u.index.capacity) (hp : u.index.items.Perm old)
    (h : (if doAdd then u.indexInsert x else .ok u) = .ok t) :
    Rewrote u t x x ∧ t.mem = u.mem ∧ t.index.size < t.index.capacity ∧
      t.index.items.Perm (if doAdd then x :: old else old) := by
  cases doAdd with
  | false =>
    cases h
    exact ⟨.refl _ _ _, rfl, hs, hp⟩
  | true =>
    obtain ⟨hr, hm, hlt, hit⟩ := HeapState.indexInsert_ok hs h x x
    refine ⟨hr, hm, hlt, ?_⟩
    rw [hit]
    exact (List.perm_orderedInsert _ _ _).trans (hp.cons x)

/-! ## The merged hole -/

theorem Joined.tagged {s v : HeapState} {x n : Nat} (h : Joined s v x n) (h8 : 8 ≤ n)
    (h22 : n < 4194304) : Tagged v.mem x ⟨true, n⟩ := by
  have hmod : n % 4194304 = n := Nat.mod_eq_of_lt h22
  refine ⟨h8, h22, ?_, h.magic, ?_⟩
  · have hh := h.header
    rwa [hmod] at hh
  · have hs := h.size
    rwa [hmod] at hs

/-- `t` is `s` with the merged hole at `x` in its memory: the limits stay, and nothing outside the
hole is written. -/
structure Entered (s v t : HeapState) (x n : Nat) : Prop where
  heap : t.toHeap = { s.toHeap with index := t.index }
  mem : t.mem = v.mem
  paging : t.paging = s.paging
  off : Off x (x + n) s.mem t.mem
  stored : ∀ w ∈ t.stored, w ∈ v.stored ∨ w < 4194304
  capacity : t.index.capacity = s.index.capacity

/-- **The merged hole in the heap**: it takes the place of the block and of the holes next to it. -/
theorem Laid.hole_laid {s v t : HeapState} {l' before after r' : List Block} {m x n : Nat}
    {idx : OrderedArray Nat} (h : Laid s (l' ++ ((before ++ ⟨false, m⟩ :: after) ++ r')))
    (hb : Piece before) (hx : x = s.startAddress + extent Block.size l')
    (hn : n = extent Block.size (before ++ ⟨false, m⟩ :: after)) (h22 : n < 4194304)
    (hj : Joined s v x n) (hi : idx.items.Perm (holes s.startAddress l' ++
      ((if before = [] then [] else [x]) ++ holes (x + n) r')))
    (hcap : idx.capacity = s.index.capacity) (hsize : idx.size ≤ s.index.size)
    (ht : (if before.isEmpty then ({ v with index := idx } : HeapState).indexInsert x
      else .ok { v with index := idx }) = .ok t) :
    Laid t (l' ++ ⟨true, n⟩ :: r') ∧ Entered s v t x n := by
  have hf := h.fills
  have h8 : 8 ≤ m := h.tags.pos ⟨false, m⟩ (by simp)
  have hn8 : 8 ≤ n := by
    rw [hn, extent_append, extent_cons]
    simp only
    omega
  rw [extent_append, extent_append, ← hn] at hf
  obtain ⟨hr, hm, hslots, hitems⟩ := HeapState.entered (u := { v with index := idx })
    (show idx.size < idx.capacity by
      rw [hcap]
      exact Nat.lt_of_le_of_lt hsize h.slots) hi ht
  have hheap : t.toHeap = { s.toHeap with index := t.index } := by
    rw [hr.heap]
    show ({ v.toHeap with index := t.index } : Heap) = _
    rw [hj.heap]
  have hst : t.startAddress = s.startAddress := (congrArg Heap.startAddress hheap :)
  have hen : t.endAddress = s.endAddress := (congrArg Heap.endAddress hheap :)
  have hm' : t.mem = v.mem := hm
  have hcap' : t.index.capacity = s.index.capacity := hr.capacity.trans hcap
  have hoff : Off x (x + n) s.mem t.mem := hm' ▸ hj.off
  refine ⟨⟨?_, ?_, ?_, ?_, hslots, ?_, ?_⟩, hheap, hm', hr.paging.trans hj.paging, hoff, hr.stored,
    hcap'⟩
  · have he : extent Block.size [⟨true, n⟩] =
        extent Block.size (before ++ ⟨false, m⟩ :: after) := by
      rw [← hn, extent_cons, extent_nil]
      rfl
    rw [hst]
    refine h.tags.edit he ?_ ?_
    · rw [← hx, ← hn]
      exact hoff
    · rw [allTagged_single, ← hx, hm']
      exact hj.tagged hn8 h22
  · rw [hst, hen, extent_append, extent_cons]
    exact hf
  · rw [hen]
    exact h.top
  · rw [hst]
    exact h.low
  · rw [hcap']
    exact h.capacity
  · rw [hst, holes_append, holes_cons, if_pos rfl, ← hx]
    refine hitems.trans ?_
    rcases hb with rfl | ⟨k, rfl⟩
    · exact (List.perm_middle (a := x)).symm
    · exact .refl _

end Dmanix
