import Dmanix.Lib.Keyed
import Dmanix.Memory.Proof.Clients
import Dmanix.Memory.Proof.Merge

/-!
# Best fit

The index holds header addresses, and its order is that of sizes which lie in the headers. Four places
change the size of a hole that is in the index: the gap `Alloc` leaves before a page-aligned block,
growth, the merge of a freed block into the hole below, and contraction. Growth ends with the grown
hole being cut, so it disturbs nothing; the other three leave the hole in its place. `GapInOrder` and
`MergeInOrder` say that its new size belongs there.

Along every run of such calls the index lists the holes, each once, by size, so that
`FindSmallestHole` finds a smallest hole that can hold the request, and finds none only when there is
none (`best_fit_run`).
-/

namespace Dmanix

open Word32 Bytes Tiling Keyed

/-- The sizes in the headers. -/
abbrev sizes (m : Mem) (x : Nat) : Nat := (header m x).size

namespace HeapState

/-- The index is in the order of the sizes. -/
def Sorted (s : HeapState) : Prop := SortedBy (sizes s.mem) s.index.items

/-- `Alloc` takes the hole `x`: the first that fits, or, after growth, the highest one. -/
def Takes (s : HeapState) (newSize : Nat) (pageAlign : Bool) (x : Nat) : Prop :=
  ∃ a b, s.index.items = a ++ x :: b ∧
    ((s.fits newSize pageAlign x = true ∧ ∀ y ∈ a, s.fits newSize pageAlign y = false) ∨
      ∀ y ∈ s.index.items, s.fits newSize pageAlign y = false ∧ y ≤ x)

/-- The gap before a page-aligned block belongs where its hole is listed. -/
def GapInOrder (s : HeapState) (size : Nat) (pageAlign : Bool) : Prop :=
  pageAlign = true → ∀ x, s.Takes (size + 8) pageAlign x →
    Between (sizes s.mem) x (gapSize pageAlign x) s.index.items

/-- The size of the hole `Free(p)` makes, once the heap is contracted. -/
def leftSize (s : HeapState) (p : Nat) : Nat :=
  if (s.merged p).1 + (s.merged p).2 = s.endAddress
  then s.startAddress + 0x70000 - (s.merged p).1 else (s.merged p).2

/-- The hole `Free(p)` makes belongs where the hole below is listed, when there is one; the hole above
leaves the index. -/
def MergeInOrder (s : HeapState) (p : Nat) : Prop :=
  Between (sizes s.mem) (s.merged p).1 (s.leftSize p)
    (s.index.items.filter (· ≠ p - 4 + (s.header (p - 4)).size))

/-- The hole at `h` can hold `size` bytes behind what is set aside for alignment. -/
def CanHold (s : HeapState) (size : Nat) (pageAlign : Bool) (h : Nat) : Prop :=
  size + gapOffset pageAlign h ≤ (s.header h).size

/-- **Best fit**: the index lists the holes among the headers `hs`, each once, in the order of their
sizes, and a search returns the place of a smallest hole that can hold the request. -/
structure BestFit (s : HeapState) (hs : List Nat) : Prop where
  exact : s.index.items.Perm (hs.filter fun h => (s.header h).isHole)
  once : s.index.items.Nodup
  sorted : s.Sorted
  found : ∀ size pageAlign i, size < 2147483648 → s.findSmallestHole size pageAlign = some i →
    ∃ h, s.index.items[i]? = some h ∧ s.CanHold size pageAlign h ∧
      ∀ x ∈ s.index.items, s.CanHold size pageAlign x → (s.header h).size ≤ (s.header x).size
  none : ∀ size pageAlign, size < 2147483648 → (s.findSmallestHole size pageAlign = none ↔
    ∀ x ∈ s.index.items, ¬ s.CanHold size pageAlign x)

end HeapState

/-! ## The search in a sorted index -/

section
variable {s s' t : HeapState} {bs : List Block}

theorem Laid.index_nodup (h : Laid s bs) : s.index.items.Nodup :=
  h.index.nodup_iff.2 (holes_nodup h.tags.pos)

theorem AllTagged.holes_eq {m : Mem} {a : Nat} (h : AllTagged m a bs) :
    holes a bs = (headers a bs).filter fun x => (header m x).isHole := by
  unfold holes headers
  rw [List.filter_map]
  congr 1
  refine List.filter_congr fun p hp => ?_
  exact (congrArg Header.isHole (h p hp).header).symm

/-- **A sorted index is searched for the best fit.** -/
theorem Laid.bestFit (h : Laid s bs) (hs : s.Sorted) : s.BestFit (headers s.startAddress bs) where
  exact := h.tags.holes_eq ▸ h.index
  once := h.index_nodup
  sorted := hs
  found size pageAlign i hsz hf := by
    obtain ⟨x, hx, hfit, hleast⟩ := hs.first_least hf
    have hmem := List.mem_of_getElem? hx
    exact ⟨x, hx, (h.fits_iff hmem hsz).1 hfit, fun y hy hc =>
      hleast y hy ((h.fits_iff hy hsz).2 hc)⟩
  none size pageAlign hsz := by
    rw [HeapState.findSmallestHole_none]
    exact forall₂_congr fun x hx => not_congr (h.fits_iff hx hsz)

/-! ## Alloc -/

theorem Laid.sizes_off (h : Laid s bs) {x n : Nat} {m : Mem} (hx : x ∈ s.index.items)
    (hn : (s.header x).size = n) (ho : Off x (x + n) s.mem m) {y : Nat} (hy : y ∈ s.index.items)
    (hne : y ≠ x) : sizes m y = sizes s.mem y := by
  have hb := h.hole_bounds hy
  refine congrArg Header.size (header_off ho ?_)
  rcases Nat.lt_or_gt_of_ne hne with hlt | hgt
  · have := h.hole_apart hy hx hlt
    omega
  · have hap : x + (header s.mem x).size ≤ y := h.hole_apart hx hy hgt
    exact .inr (hn ▸ hap)

/-- **A cut** leaves the index in order: the gap belongs in the hole's place, the rest is inserted. -/
theorem Laid.carve_sorted (h : Laid s bs) {i size pos n gap p : Nat} {pageAlign : Bool}
    (hi : i < s.index.items.length) (hpos : s.index.items[i] = pos) (hn : (s.header pos).size = n)
    (hgap : gap = gapSize pageAlign pos) (hw : gap + (size + 8) ≤ n)
    (hs : SplitOk pageAlign pos n (size + 8))
    (hc : s.carve i size (size + 8) pageAlign = .ok (p, s'))
    (hbut : SortedBut (sizes s.mem) pos s.index.items)
    (hin : pageAlign = true → Between (sizes s.mem) pos gap s.index.items) : s'.Sorted := by
  have hx : pos ∈ s.index.items := hpos ▸ List.getElem_mem hi
  obtain ⟨l, r, -, hl, -, hr, hlaid, hit⟩ := h.carve_ok hi hpos hn hgap hw hs hc
  have hkeep : ∀ y ∈ s.index.items, y ≠ pos → sizes s'.mem y = sizes s.mem y :=
    fun y hy hne => h.sizes_off hx hn hr.off hy hne
  have hkept : SortedBy (sizes s'.mem)
      (if gap = 0 then s.index.items.eraseIdx i else s.index.items) := by
    by_cases h0 : gap = 0
    · rw [if_pos h0]
      exact (hbut.congr hkeep).erase h.index_nodup hi hpos
    · rw [if_neg h0]
      have halign : pageAlign = true := by
        cases pageAlign with
        | true => rfl
        | false => exact absurd hgap h0
      have hmem : (pos, ⟨true, gap⟩) ∈ place Block.size s'.startAddress
          (l ++ (carved n (size + 8) gap ++ r)) := by
        unfold carved
        rw [if_neg h0]
        exact mem_place_iff.2 ⟨l, _, rfl, hr.startAddress ▸ hl⟩
      have hsize : sizes s'.mem pos = gap := congrArg Header.size (hlaid.tags _ hmem).header
      exact hbut.rekey h.index_nodup hkeep (hsize.symm ▸ hin halign)
  unfold HeapState.Sorted
  rw [hit]
  unfold carvedIndex
  dsimp only
  split
  · exact hkept
  · exact hkept.insert _

theorem HeapState.takes_found {newSize i : Nat} {pageAlign : Bool}
    (hf : s.findSmallestHole newSize pageAlign = some i) :
    s.Takes newSize pageAlign (s.index.array i) := by
  obtain ⟨hi, hfit, hbefore⟩ := HeapState.findSmallestHole_some.1 hf
  have hit : s.index.items[i] = s.index.array i := OrderedArray.items_getElem hi
  rw [hit] at hfit
  refine ⟨s.index.items.take i, s.index.items.drop (i + 1), ?_, .inl ⟨hfit, fun y hy => ?_⟩⟩
  · rw [← hit, List.getElem_cons_drop, List.take_append_drop]
  · obtain ⟨j, hj, rfl⟩ := List.mem_take_iff_getElem.1 hy
    exact Bool.eq_false_iff.2 (hbefore j (by omega))

/-- The index is in order but for the hole that `Alloc` takes, whose gap belongs there. -/
structure HeapState.Settled (s : HeapState) (size : Nat) (pageAlign : Bool) : Prop where
  sorted : ∀ x, s.Takes (size + 8) pageAlign x → SortedBut (sizes s.mem) x s.index.items
  gap : s.GapInOrder size pageAlign

/-- **Growth** disturbs the hole that is taken next and no other. -/
theorem WF.grow_settled (h : WF s bs) {size : Nat} {pageAlign : Bool} {fresh : Mem}
    (hsz : size ≤ 4194304) (hf : s.findSmallestHole (size + 8) pageAlign = none)
    (hok : s.AllocOk size pageAlign) (hS : s.Settled size pageAlign)
    (hg : s.grow (size + 8) fresh = .ok t) : t.Settled size pageAlign := by
  have hgw : growth (size + 8) = ((size + 8) / 4096 + 1) * 4096 := rfl
  have hnone := HeapState.findSmallestHole_none.1 hf
  unfold HeapState.AllocOk at hok
  rw [hf] at hok
  obtain ⟨⟨he, h22, h32⟩, -⟩ := hok
  have hneed : growth (size + 8) ≤ s.needed (size + 8) pageAlign := by
    unfold HeapState.needed
    split <;> omega
  obtain ⟨l, rfl, hl, hwf, hgr, hit⟩ := h.grow_ok (x := s.lastSpace.1) (n := s.lastSpace.2) (by omega)
    rfl he (by omega) (by omega) hg
  generalize hx : s.lastSpace.1 = x at *
  generalize hn : s.lastSpace.2 = n at *
  obtain ⟨hxt, hmax⟩ := HeapState.lastHole_some hgr.last
  by_cases h0 : n = 0
  · -- the new hole is the only one
    rw [if_pos h0] at hit
    have hone : t.index.items.length ≤ 1 := by rw [hit, List.length_singleton]
    exact ⟨fun y _ => (SortedBy.of_short hone).but y, fun _ _ _ => .of_short hone⟩
  · rw [if_neg h0] at hit
    have hxs : x ∈ s.index.items := hit ▸ hxt
    have htakes : s.Takes (size + 8) pageAlign x := by
      obtain ⟨a, b, hab⟩ := List.append_of_mem hxs
      exact ⟨a, b, hab, .inr fun y hy => ⟨Bool.eq_false_iff.2 (hnone y hy), hmax y (hit ▸ hy)⟩⟩
    -- the other holes have the sizes they had
    have hkeep : ∀ y ∈ s.index.items, y ≠ x → sizes t.mem y = sizes s.mem y := by
      intro y hy hne
      have hle := hmax y (hit ▸ hy)
      have hb := hwf.laid.hole_bounds (hit ▸ hy)
      have hap := hwf.laid.hole_apart (hit ▸ hy) hxt (by omega)
      exact congrArg Header.size (header_off hgr.off (.inl (by omega)))
    have hother : ∀ y ∈ t.index.items, y ≠ x → t.fits (size + 8) pageAlign y = false := by
      intro y hy hne
      have hys : y ∈ s.index.items := hit ▸ hy
      rw [Bool.eq_false_iff, Ne, hwf.laid.fits_iff hy (by omega)]
      have hno := hnone y hys
      rw [h.laid.fits_iff hys (by omega)] at hno
      rw [show (header t.mem y).size = (header s.mem y).size from hkeep y hys hne]
      exact hno
    have hsame : ∀ y, t.Takes (size + 8) pageAlign y → y = x := by
      rintro y ⟨a, b, hab, ⟨hfit, -⟩ | hall⟩
      · by_contra hne
        rw [hother y (by rw [hab]; simp) hne] at hfit
        cases hfit
      · exact Nat.le_antisymm (hmax y (by rw [hab]; simp)) (hall x hxt).2
    refine ⟨fun y hy => ?_, fun ha y hy => ?_⟩
    · rw [hsame y hy, hit]
      exact (hS.sorted x htakes).congr hkeep
    · rw [hsame y hy, hit]
      exact (hS.gap ha x htakes).congr h.laid.index_nodup hkeep

/-- **`Alloc` leaves the index in order.** -/
theorem WF.allocN_sorted {size p : Nat} {pageAlign : Bool} {fresh : Mem} : ∀ (rounds : Nat)
    {s : HeapState} {bs : List Block}, WF s bs → s.AllocOk size pageAlign →
    s.Settled size pageAlign → s.allocN rounds size pageAlign fresh = .ok (p, s') → s'.Sorted := by
  -- a hole is found
  have hfound : ∀ {s : HeapState} {bs : List Block} {i rounds : Nat}, WF s bs →
      s.AllocOk size pageAlign → s.Settled size pageAlign → size ≤ 4194304 →
      s.findSmallestHole (size + 8) pageAlign = some i →
      s.allocN rounds size pageAlign fresh = .ok (p, s') → s'.Sorted := by
    intro s bs i rounds h hok hS hsz hf ha
    unfold HeapState.AllocOk at hok
    rw [hf] at hok
    rw [HeapState.allocN_some hsz hf] at ha
    obtain ⟨hi, hit, -, hfit⟩ := h.laid.found_hole hsz hf
    have hgap := gapSize_le pageAlign (s.index.array i)
    have htakes := HeapState.takes_found hf
    exact h.laid.carve_sorted hi hit rfl rfl (by omega) hok ha (hS.sorted _ htakes)
      fun hal => hS.gap hal _ htakes
  intro rounds
  induction rounds with
  | zero =>
    intro s bs h hok hS ha
    have hsz := HeapState.size_le_of_allocN ha
    cases hf : s.findSmallestHole (size + 8) pageAlign with
    | some i => exact hfound h hok hS hsz hf ha
    | none =>
      rw [HeapState.allocN_zero hsz hf] at ha
      cases ha
  | succ rounds ih =>
    intro s bs h hok hS ha
    have hsz := HeapState.size_le_of_allocN ha
    cases hf : s.findSmallestHole (size + 8) pageAlign with
    | some i => exact hfound h hok hS hsz hf ha
    | none =>
      rw [HeapState.allocN_succ hsz hf] at ha
      obtain ⟨t, hg, ha⟩ := bind_ok.1 ha
      obtain ⟨hok', bs', hwf, -⟩ := h.allocOk_grow hsz hf hok hg
      exact ih hwf hok' (h.grow_settled hsz hf hok hS hg) ha

/-! ## Free -/

variable {l r l' before after r' : List Block} {q m x n e : Nat} {v : HeapState}
  {idx : OrderedArray Nat}

theorem HeapState.entered_items {u : HeapState} {doAdd : Bool} (hs : u.index.size < u.index.capacity)
    (h : (if doAdd then u.indexInsert x else .ok u) = .ok t) :
    t.index.items = if doAdd then u.index.items.orderedInsert (SizeLe t.mem) x else u.index.items := by
  cases doAdd with
  | false =>
    cases h
    rfl
  | true =>
    obtain ⟨-, -, -, hit⟩ := HeapState.indexInsert_ok hs h 0 0
    exact hit

/-- The entries that stay are the hole below and the holes outside the merged one. -/
theorem Merging.entries (hM : Merging s l r q m l' before after r' x n v idx)
    (h : Laid s (l ++ ⟨false, m⟩ :: r)) {y : Nat} (hy : y ∈ idx.items) :
    (y = x ∧ before ≠ []) ∨ y + 8 ≤ x ∨ (x + n ≤ y ∧ y ∈ holes (x + n) r') := by
  have hpos : ∀ b ∈ l ++ ⟨false, m⟩ :: r, 8 ≤ b.size := h.tags.pos
  have hx := hM.addr
  rcases List.mem_append.1 (hM.index.mem_iff.1 hy) with hy | hy
  · have hb := holes_bounds hy fun b hb => hpos b (by rw [hM.left.split]; simp [hb])
    exact .inr (.inl (by omega))
  · rcases List.mem_append.1 hy with hy | hy
    · by_cases hb : before = []
      · rw [if_pos hb] at hy
        exact (List.not_mem_nil hy).elim
      · rw [if_neg hb] at hy
        exact .inl ⟨List.mem_singleton.1 hy, hb⟩
    · have hb := holes_bounds hy fun b hb => hpos b (by rw [hM.right.split]; simp [hb])
      exact .inr (.inr ⟨hb.1, hy⟩)

theorem Merging.right_gone (hM : Merging s l r q m l' before after r' x n v idx)
    (h : Laid s (l ++ ⟨false, m⟩ :: r)) (hq : q = s.startAddress + extent Block.size l) :
    q + m ∉ idx.items := by
  intro hy
  have h8 : 8 ≤ m := h.tags.pos ⟨false, m⟩ (by simp)
  have hpos : ∀ b ∈ r', 8 ≤ b.size := fun b hb => h.tags.pos b (by rw [hM.right.split]; simp [hb])
  have hxq : q = x + extent Block.size before := by
    rw [hq, hM.left.split, extent_append, hM.addr]
    omega
  have hn := hM.size
  rw [extent_append, extent_cons] at hn
  simp only at hn
  rcases hM.entries h hy with ⟨he, -⟩ | hlt | ⟨hge, hy⟩
  · omega
  · omega
  · -- there is no hole above, so the next block is none
    have hafter : after = [] := by
      rcases hM.right.piece with ha | ⟨k, rfl⟩
      · exact ha
      · have := h.tags.pos ⟨true, k⟩ (by rw [hM.right.split]; simp)
        rw [extent_cons, extent_nil] at hn
        simp only at this hn
        omega
    subst hafter
    rw [extent_nil] at hn
    rw [show q + m = x + n by omega] at hy
    obtain ⟨k, hk⟩ := mem_holes.1 hy
    cases r' with
    | nil => exact List.not_mem_nil hk
    | cons b r' =>
      have hb := place_inj (fun b hb => Nat.lt_of_lt_of_le (by decide) (hpos b hb)) hk
        (show (x + n, b) ∈ place Block.size (x + n) (b :: r') from List.mem_cons_self)
      have hno := hM.right.none rfl b rfl
      rw [← hb] at hno
      cases hno

/-- **The merged hole** enters the index in order, or has kept the place of the hole below. -/
theorem Merging.sorted (hM : Merging s l r q m l' before after r' x n v idx)
    (h : Laid s (l ++ ⟨false, m⟩ :: r)) (hq : q = s.startAddress + extent Block.size l)
    (hS : s.Sorted) {u : HeapState} (hu : u.index = idx)
    (ht : (if before.isEmpty then u.indexInsert x else .ok u) = .ok t)
    (ho : Off x e s.mem t.mem) (he : e = x + n ∨ r' = [])
    (hin : Between (sizes s.mem) x (sizes t.mem x) (s.index.items.filter (· ≠ q + m))) :
    t.Sorted := by
  have hslots := h.slots
  have hcap := hM.capacity
  have hless := hM.smaller
  have hsub := hM.sub
  have hkeep : ∀ y ∈ idx.items, y ≠ x → sizes t.mem y = sizes s.mem y := by
    intro y hy hne
    refine congrArg Header.size (header_off ho ?_)
    rcases hM.entries h hy with ⟨rfl, -⟩ | hlt | ⟨hge, hy⟩
    · exact absurd rfl hne
    · exact .inl (by omega)
    · rcases he with rfl | rfl
      · exact .inr hge
      · exact (List.not_mem_nil hy).elim
  have hsorted : SortedBy (sizes s.mem) idx.items := SortedBy.sublist hS hsub
  have hgone := hM.right_gone h hq
  have hfilter : idx.items.Sublist (s.index.items.filter (· ≠ q + m)) := by
    have hall := hsub.filter (· ≠ q + m)
    have hstay : ∀ y ∈ idx.items, decide (y ≠ q + m) = true := fun y hy =>
      decide_eq_true fun he => hgone (he ▸ hy)
    rwa [List.filter_eq_self.2 hstay] at hall
  have hnew : SortedBy (sizes t.mem) idx.items :=
    (hsorted.but x).rekey (h.index_nodup.sublist hsub) hkeep (hin.sublist hfilter)
  unfold HeapState.Sorted
  rw [HeapState.entered_items (by rw [hu]; omega) ht, hu]
  split
  · exact hnew.insert x
  · exact hnew

/-- **`Free` leaves the index in order.** -/
theorem WF.free_sorted (h : WF s bs) (hq : (q, m) ∈ allocs s.startAddress bs)
    (hok : s.FreeOk (q + 4)) (hS : s.Sorted) (hin : s.MergeInOrder (q + 4))
    (hf : s.free (q + 4) = .ok t) : t.Sorted := by
  obtain ⟨l, r, rfl, hql⟩ := mem_place_iff.1 (mem_allocs.1 hq)
  obtain ⟨hfirst, hfits, hshrinks⟩ := hok
  have hm : (s.header q).size = m := congrArg Header.size (h.tags _ (mem_allocs.1 hq)).header
  rw [Nat.add_sub_cancel] at hfirst
  obtain ⟨l', before, after, r', x, n, v, idx, hM, hcase⟩ := h.laid.free_cases hql
    (fun hl => hfirst (by rw [hql, hl]; rfl)) hf
  unfold HeapState.MergeInOrder HeapState.leftSize at hin
  rw [hM.merged] at hfits hshrinks hin
  rw [Nat.add_sub_cancel, hm] at hin
  have hx := hM.addr
  have hlaid := h.laid
  rw [hM.blocks] at hlaid
  rcases hcase with ⟨hne, ht⟩ | ⟨he, rfl, w, hw, ht⟩
  · obtain ⟨ht', hE⟩ := hlaid.hole_laid hM.left.piece hx hM.size hfits hM.joined hM.index hM.capacity
      hM.smaller ht
    have hst : t.startAddress = s.startAddress := (congrArg Heap.startAddress hE.heap :)
    have hsize : sizes t.mem x = n := congrArg Header.size (ht'.tags (x, ⟨true, n⟩)
      (mem_place_iff.2 ⟨l', r', rfl, by rw [hst, ← hx]⟩)).header
    rw [if_neg hne] at hin
    exact hM.sorted h.laid hql hS rfl ht hE.off (.inl rfl) (hsize.symm ▸ hin)
  · obtain ⟨hmin, hle⟩ := hshrinks he
    rw [List.append_nil] at hlaid
    have hi := hM.index
    rw [holes_nil, List.append_nil] at hi
    obtain ⟨ht', hC⟩ := hlaid.shrunk_laid hM.left.piece hx he hmin hle hM.joined hi hM.capacity
      hM.smaller hw ht
    have hst : t.startAddress = s.startAddress := (congrArg Heap.startAddress hC.heap :)
    have hust : v.startAddress = s.startAddress := (congrArg Heap.startAddress hM.joined.heap :)
    have huend : v.endAddress = s.endAddress := (congrArg Heap.endAddress hM.joined.heap :)
    have htop := h.top
    have hsize : sizes t.mem x = s.startAddress + 0x70000 - x :=
      congrArg Header.size (ht'.tags (x, ⟨true, s.startAddress + 0x70000 - x⟩)
        (mem_place_iff.2 ⟨l', [], rfl, by rw [hst, ← hx]⟩)).header
    obtain ⟨hheap, -⟩ := HeapState.shrink_ok (u := { v with index := idx }) (x := x) (n := n)
      (by show v.startAddress ≤ x; omega) (by show x + 8 ≤ v.startAddress + _; omega)
      (by show v.startAddress + _ ≤ v.endAddress; omega) (by show x + n = v.endAddress; omega)
      (by show v.endAddress < _; omega) hM.joined.header hw
    have hwidx : w.index = idx := (congrArg Heap.index hheap :)
    rw [if_pos he] at hin
    exact hM.sorted h.laid hql hS hwidx ht hC.off (.inr rfl) (hsize.symm ▸ hin)

end

/-! ## Along a run -/

namespace Clients

/-- The call computes the tags it means to, and a hole that keeps its place in the index gets a size that
belongs there. -/
def InOrder (c : Clients) : Call → Prop
  | .alloc size pageAlign _ _ => c.heap.AllocOk size pageAlign ∧ c.heap.GapInOrder size pageAlign
  | .free p => c.heap.FreeOk p ∧ c.heap.MergeInOrder p
  | .write _ => True

theorem InOrder.callOk {c : Clients} {i : Call} (h : c.InOrder i) : c.CallOk i := by
  cases i with
  | alloc => exact h.1
  | free => exact h.1
  | write => trivial

variable {c d : Clients} {bs : List Block}

/-- **A step leaves the index in order.** -/
theorem Held.sorted (h : Held c bs) (hS : c.heap.Sorted) {i : Call} (hok : c.InOrder i)
    (hs : Step c i d) : d.heap.Sorted := by
  cases hs with
  | alloc ha =>
    exact h.wf.allocN_sorted _ hok.1 ⟨fun x _ => SortedBy.but hS x, hok.2⟩ ha
  | free hp hf =>
    obtain ⟨h4, m, -, hm⟩ := h.room _ hp
    obtain ⟨q, rfl⟩ := Nat.exists_eq_add_of_le' h4
    rw [Nat.add_sub_cancel] at hm
    exact h.wf.free_sorted hm hok.1 hS hok.2 hf
  | write hm =>
    -- the headers are those of the same blocks
    have hw := h.write hm
    refine SortedBy.congr hS fun x hx => ?_
    obtain ⟨n, hn⟩ := h.wf.laid.hole_mem hx
    have hnew := (hw.wf.tags _ hn).header
    exact congrArg Header.size (hnew.trans (h.wf.tags _ hn).header.symm)

section
variable {start endAddr max : Nat} {supervisor readonly : Bool} {mem : Mem} {P : Paging}
  {s : HeapState}

/-- **The search is a best fit**, along every run of calls on a new heap that leave the index in
order. -/
theorem best_fit_run (hc : Heap.CreateOk start endAddr)
    (hs : Heap.create start endAddr max supervisor readonly mem P = .ok s)
    (hr : Guarded.Run Step InOrder ⟨s, []⟩ c) : ∃ hs, c.heap.Walk hs ∧ c.heap.BestFit hs := by
  have hinit := held_create hc hs
  have hone : s.Sorted := by
    have hlen := hinit.wf.index_size_le
    rw [← OrderedArray.length_items, List.length_singleton] at hlen
    exact .of_short hlen
  obtain ⟨bs, h, hS⟩ := hr.invariant (P := fun c => ∃ bs, Held c bs ∧ c.heap.Sorted)
    ⟨_, hinit, hone⟩ fun t i u ⟨bs, h, hS⟩ hok hstep => by
      obtain ⟨bs', h'⟩ := h.step hok.callOk hstep
      exact ⟨bs', h', h.sorted hS hok hstep⟩
  exact ⟨_, h.wf.laid.walk, h.wf.laid.bestFit hS⟩

end

/-- A page-aligned block from a new kernel heap: its gap is listed where the hole was. -/
theorem best_fit_run_gap : ∃ s t p, Heap.create 0xC0000000 0xC0100000 0xCFFFF000 false false
      (fun _ => 0) Frames.blank = .ok s ∧ Guarded.Run Step InOrder ⟨s, []⟩ ⟨t, [(p, 16)]⟩ ∧
    ∃ hs, t.Walk hs ∧ t.BestFit hs := by
  obtain ⟨s, hst, hwf, hs⟩ := new_heap
  obtain ⟨t, ha, -, -⟩ := @WF.alloc_at s [] [] _ _ 16 true 0 (fun _ => 0) hwf
    (hst.symm : 0xC0081000 = _) (by decide) (show 16 + 8 + gapOffset true 0xC0081000 ≤ _ by decide)
    (by decide) (by simp) (by decide)
  obtain ⟨i, hi, hpos, hf⟩ := @WF.found s [] [] _ _ 16 true hwf (hst.symm : 0xC0081000 = _)
    (by decide) (show 16 + 8 + gapOffset true 0xC0081000 ≤ _ by decide) (by simp)
  have hn := (WF.mem_index (l := []) (r := []) hwf (hst.symm : 0xC0081000 = _)).2
  rw [OrderedArray.items_getElem] at hpos
  have hok : s.AllocOk 16 true := by
    unfold HeapState.AllocOk
    rw [hf]
    dsimp only
    rw [hpos, hn]
    decide
  have hgap : s.GapInOrder 16 true := by
    have hone := hwf.index_size_le
    rw [← OrderedArray.length_items, List.length_singleton] at hone
    exact fun _ _ _ => .of_short hone
  have hr : Guarded.Run Step InOrder ⟨s, []⟩ ⟨t, [(_, 16)]⟩ :=
    .tail (i := .alloc 16 true 0 fun _ => 0) .refl ⟨hok, hgap⟩ (.alloc ha)
  exact ⟨s, t, _, hs, hr, best_fit_run (by decide) hs hr⟩

end Clients

end Dmanix
