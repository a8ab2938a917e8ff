import Dmanix.Memory.Proof.Served
import Dmanix.Memory.Proof.Inside

/-!
# The pages of a heap

`MappedTo P base e max`: of the pages from `base` to `max` those below `e` have a frame. `Expand` keeps
it with the new end (`WF.grow_mapped`). `Contract` walks down to the new end and stops above its page,
which keeps its frame: a `Free` keeps the extent exactly when it does not make the heap shorter
(`WF.free_exact_iff`), and a run without such calls does (`mapped_run`).
-/

namespace Dmanix

open Word32 Bytes Tiling Outcome

namespace Paging

/-! ## Frames given and taken -/

/-- Each table of `kernel_directory` has one slot. -/
def OwnSlots (P : Paging) : Prop :=
  ∀ i < 1024, ∀ j < 1024, P.kernelTable i ≠ 0 → P.kernelTable i = P.kernelTable j → i = j

/-- Moreover frame 0 is in use, and frame numbers fit their field. -/
structure OwnTables (P : Paging) : Prop where
  apart : OwnSlots P
  zero : P.frames.bit 0 = true
  size : 32 * P.frames.size ≤ 0x100000

/-- Page number `v` has a frame. -/
def Framed (P : Paging) (v : Nat) : Prop := (P.page (P.pageAt v)).frame ≠ 0

section
variable {P P' : Paging} {u v : Nat} {k w : Bool}

theorem OwnSlots.same (h : OwnSlots P) (hs : SameTables P P') : OwnSlots P' := fun i hi j hj => by
  rw [hs.kernelTable, hs.kernelTable]
  exact h i hi j hj

theorem OwnSlots.pageAt_ne (h : OwnSlots P) (hu : u < 0x100000) (hv : v < 0x100000)
    (hT : P.kernelTable (u / 1024) ≠ 0) (hne : v ≠ u) : P.pageAt v ≠ P.pageAt u := fun he => by
  have h1 : P.kernelTable (v / 1024) = P.kernelTable (u / 1024) := congrArg PagePtr.table he
  have h2 : v % 1024 = u % 1024 := congrArg PagePtr.entry he
  have := h (u / 1024) (by omega) (v / 1024) (by omega) hT h1.symm
  omega

theorem OwnTables.alloc (h : OwnTables P) (hu : u < 0x100000) (hT : P.kernelTable (u / 1024) ≠ 0)
    (ha : P.allocFrame (P.pageAt u) k w = .ok P') : OwnTables P' ∧ P'.Framed u ∧
      ∀ v < 0x100000, v ≠ u → P'.page (P'.pageAt v) = P.page (P.pageAt v) := by
  have hs := allocFrame_same ha
  have hothers : ∀ v < 0x100000, v ≠ u → P'.page (P'.pageAt v) = P.page (P.pageAt v) :=
    fun v hv hne => by
      rw [hs.pageAt]
      exact allocFrame_page ha (h.apart.pageAt_ne hu hv hT hne)
  have hapart := h.apart.same hs
  have hsz := h.size
  by_cases h0 : (P.page (P.pageAt u)).frame = 0
  · obtain ⟨f, -, hlt, hclear, hsize, hbit, hpage⟩ := allocFrame_gives ha h0
    have hf : f ≠ 0 := by
      rintro rfl
      rw [h.zero] at hclear
      cases hclear
    refine ⟨⟨hapart, ?_, by omega⟩, ?_, hothers⟩
    · rw [hbit, h.zero, Bool.or_true]
    · rw [Framed, hs.pageAt, hpage]
      show f % 0x100000 ≠ 0
      rw [Nat.mod_eq_of_lt (by omega)]
      exact hf
  · rcases allocFrame_cases ha with ⟨-, rfl⟩ | ⟨h0', -⟩
    · exact ⟨h, h0, hothers⟩
    · exact absurd h0' h0

theorem getPage_ok {a : Nat} {make : Bool} {q : PagePtr}
    (h : P.getPage P.kernelDirectory a make = .ok q) :
    P.kernelTable (a / 0x1000 / 1024) ≠ 0 ∧ q = P.pageAt (a / 0x1000) := by
  unfold getPage at h
  dsimp only at h
  split at h
  · split at h
    · cases h
    · cases h
  · rename_i hT
    cases h
    exact ⟨hT, rfl⟩

end

end Paging

open Paging

namespace HeapState

/-- **`Expand`'s loop** gives its pages frames and leaves the others alone. -/
theorem expandPages_frames {lo newSize : Nat} {supervisor readonly : Bool} (hlo : lo % 4096 = 0)
    (hn : newSize % 4096 = 0) (hhi : lo + newSize < 4294967296) : ∀ {n i : Nat} {P P' : Paging},
    OwnTables P → i % 4096 = 0 →
    expandPages lo newSize supervisor readonly n i P = .ok P' →
      SameTables P P' ∧ OwnTables P' ∧
        (∀ v, lo + i ≤ 4096 * v → 4096 * v < lo + newSize → P'.Framed v) ∧
        ∀ v < 0x100000, (4096 * v < lo + i ∨ lo + newSize ≤ 4096 * v) →
          P'.page (P'.pageAt v) = P.page (P.pageAt v)
  | 0, _, _, _, _, _, h => by cases h
  | n + 1, i, P, P', hP, hi, h => by
    unfold expandPages at h
    split at h
    · rename_i hlt
      rw [add32_eq (by omega), show add32 i 0x1000 = i + 0x1000 from add32_eq (by omega)] at h
      obtain ⟨q, hq, h⟩ := bind_ok.1 h
      obtain ⟨hT, rfl⟩ := getPage_ok hq
      obtain ⟨P₁, h₁, h⟩ := bind_ok.1 h
      obtain ⟨hP₁, hu, hothers⟩ := hP.alloc (by omega) hT h₁
      have hs := allocFrame_same h₁
      obtain ⟨hs', hP', hin, hout⟩ := expandPages_frames hlo hn hhi hP₁ (by omega) h
      refine ⟨hs.trans hs', hP', fun v h1 h2 => ?_, fun v hv hvo => ?_⟩
      · by_cases hv : v = (lo + i) / 0x1000
        · subst hv
          rw [Framed, hout _ (by omega) (.inl (by omega))]
          exact hu
        · exact hin v (by omega) h2
      · rw [hout v hv (by omega), hothers v hv (by omega)]
    · cases h
      exact ⟨.refl P, hP, fun v h1 h2 => by omega, fun _ _ _ => rfl⟩

/-- **`Contract`'s loop** leaves the pages up to the new end alone. -/
theorem contractPages_frames {lo newSize : Nat} (hlo : lo % 4096 = 0) (hn : newSize % 4096 = 0) :
    ∀ {n i : Nat} {P P' : Paging}, OwnSlots P → i % 4096 = 0 → lo + i < 4294967296 →
    contractPages lo newSize n i P = .ok P' →
      ∀ v < 0x100000, 4096 * v ≤ lo + newSize → P'.page (P'.pageAt v) = P.page (P.pageAt v)
  | 0, _, _, _, _, _, _, h => by cases h
  | n + 1, i, P, P', hP, hi, hlt, h => by
    unfold contractPages at h
    split at h
    · rw [add32_eq hlt, show sub32 i 0x1000 = i - 0x1000 from sub32_eq (by omega) (by omega)] at h
      obtain ⟨q, hq, h⟩ := bind_ok.1 h
      obtain ⟨hT, rfl⟩ := getPage_ok hq
      obtain ⟨P₁, h₁, h⟩ := bind_ok.1 h
      have hs := freeFrame_same h₁
      intro v hv hle
      rw [contractPages_frames hlo hn (hP.same hs) (by omega) (by omega) h v hv hle, hs.pageAt]
      exact freeFrame_page h₁ (hP.pageAt_ne (by omega) hv hT (by omega))
    · cases h
      exact fun _ _ _ => rfl

/-- `Contract`'s loop returns, where the pages have tables and the frame bits are in the table. -/
theorem contractPages_returns {lo newSize : Nat} (hn : 0x1000 ≤ newSize) : ∀ (n i : Nat) (P : Paging),
    OwnSlots P → lo + i < 4294967296 → i < 4096 * n → 8 ≤ P.frames.size →
    (∀ v < 0x100000, P.kernelTable (v / 1024) ≠ 0 → (P.page (P.pageAt v)).frame < 0x100000) →
    (∀ a, lo ≤ a → a ≤ lo + i → P.kernelTable (a / 0x1000 / 1024) ≠ 0) →
    ∃ P', contractPages lo newSize n i P = .ok P'
  | 0, _, _, _, _, h, _, _, _ => by omega
  | n + 1, i, P, hP, hlt, hi, hsz, hf, hT => by
    unfold contractPages
    by_cases hni : newSize < i
    · have hT' := hT (lo + i) (by omega) (Nat.le_refl _)
      rw [if_pos hni, add32_eq hlt, getPage_kernel hT', ok_bind,
        show sub32 i 0x1000 = i - 0x1000 from sub32_eq (by omega) (by omega)]
      have hv := hf ((lo + i) / 0x1000) (by omega) hT'
      obtain ⟨P₁, hP₁⟩ : ∃ P₁, P.freeFrame (P.pageAt ((lo + i) / 0x1000)) = .ok P₁ := by
        unfold freeFrame
        dsimp only
        split
        · exact ⟨P, rfl⟩
        · obtain ⟨b, hb, -⟩ := Bitset.clear_ok (b := P.frames)
            (f := (P.page (P.pageAt ((lo + i) / 0x1000))).frame / 0x1000) (by omega)
          rw [hb]
          exact ⟨_, rfl⟩
      have hs := freeFrame_same hP₁
      rw [hP₁, ok_bind]
      refine contractPages_returns hn n (i - 0x1000) P₁ (hP.same hs) (by omega) (by omega)
        (by rw [hs.size]; exact hsz) (fun v hv hvT => ?_) fun a h1 h2 => ?_
      · rw [hs.kernelTable] at hvT
        rw [hs.pageAt]
        by_cases hq : P.pageAt v = P.pageAt ((lo + i) / 0x1000)
        · rw [hq]
          rcases freeFrame_cases hP₁ with ⟨h0, rfl⟩ | ⟨-, b, -, rfl⟩
          · omega
          · rw [page_setPage_self]
            exact (by decide : 0 < 0x100000)
        · rw [freeFrame_page hP₁ hq]
          exact hf v hv hvT
      · rw [hs.kernelTable]
        exact hT a h1 (by omega)
    · rw [if_neg hni]
      exact ⟨P, rfl⟩

end HeapState

/-! ## The extent -/

/-- **The pages from `base` to `max` have frames exactly below `e`** (module doc). -/
structure Paging.MappedTo (P : Paging) (base e max : Nat) : Prop extends OwnTables P where
  limit : e ≤ max
  top : max < 4294967296
  tables : ∀ v, base ≤ 4096 * v → 4096 * v < max → P.kernelTable (v / 1024) ≠ 0
  frames : ∀ v, base ≤ 4096 * v → 4096 * v < max → (P.Framed v ↔ 4096 * v < e)

section
variable {s t : HeapState} {bs : List Block} {base max w : Nat} {fresh : Mem}

/-- The pages of the heap. -/
def HeapState.Mapped (s : HeapState) (base : Nat) : Prop :=
  s.paging.MappedTo base s.endAddress s.maxAddress

/-- A page from `base` to `max_address` has a frame exactly below `end_address`. -/
def HeapState.Exact (s : HeapState) (base : Nat) : Prop :=
  ∀ v, base ≤ 4096 * v → 4096 * v < s.maxAddress → (s.paging.Framed v ↔ 4096 * v < s.endAddress)

theorem HeapState.Mapped.same (h : s.Mapped base) (hs : HeapState.SamePages s t) : t.Mapped base := by
  unfold HeapState.Mapped
  rw [hs.paging, hs.endAddress, hs.maxAddress]
  exact h

/-- **Growth keeps the extent.** -/
theorem PageBounds.grow_mapped (hb : PageBounds s) (h : s.Mapped base) (hw : 0 < w)
    (h32 : s.endAddress + growth w < 4294967296) (hg : s.grow w fresh = .ok t) : t.Mapped base := by
  have hroom := hb.room
  have hsp := hb.startPage
  have hep := hb.endPage
  have hgw : growth w = (w / 4096 + 1) * 4096 := rfl
  rw [hb.grow_eq hw h32] at hg
  obtain ⟨_, hlim, hg⟩ := bind_ok.1 hg
  rw [HeapState.assert_ok, decide_eq_true_iff] at hlim
  obtain ⟨P, hP, hg⟩ := bind_ok.1 hg
  obtain ⟨hs, hown, hin, hout⟩ := HeapState.expandPages_frames hsp (by omega) (by omega)
    h.toOwnTables (by omega) (HeapState.lift_ok.1 hP)
  refine HeapState.Mapped.same (s := s.extended P (growth w) fresh) ?_
    ((HeapState.addSpace_pages _ _).ok hg)
  have htop := h.top
  refine ⟨hown, hlim, htop, fun v h1 h2 => ?_, fun v h1 h2 => ?_⟩
  · show P.kernelTable (v / 1024) ≠ 0
    rw [hs.kernelTable]
    exact h.tables v h1 h2
  · show P.Framed v ↔ 4096 * v < s.endAddress + growth w
    replace h2 : 4096 * v < s.maxAddress := h2
    by_cases hv : s.endAddress ≤ 4096 * v ∧ 4096 * v < s.endAddress + growth w
    · exact iff_of_true (hin v (by omega) (by omega)) hv.2
    · have hsame : P.Framed v ↔ s.paging.Framed v := by
        rw [Framed, Framed, hout v (by omega) (by omega)]
      rw [hsame, h.frames v h1 h2]
      omega

/-- **`Alloc` keeps the extent.** -/
theorem WF.allocN_mapped {size p : Nat} {pageAlign : Bool} : ∀ (rounds : Nat) {s : HeapState}
    {bs : List Block}, WF s bs → s.Mapped base → s.AllocOk size pageAlign →
    s.allocN rounds size pageAlign fresh = .ok (p, t) → t.Mapped base := by
  intro rounds
  induction rounds with
  | zero =>
    intro s bs h hm hok ha
    have hsz := HeapState.size_le_of_allocN ha
    cases hf : s.findSmallestHole (size + 8) pageAlign with
    | some i =>
      rw [HeapState.allocN_some hsz hf] at ha
      exact hm.same ((HeapState.carve_pages _ _ _ _).ok ha)
    | none =>
      rw [HeapState.allocN_zero hsz hf] at ha
      cases ha
  | succ rounds ih =>
    intro s bs h hm hok ha
    have hsz := HeapState.size_le_of_allocN ha
    cases hf : s.findSmallestHole (size + 8) pageAlign with
    | some i =>
      rw [HeapState.allocN_some hsz hf] at ha
      exact hm.same ((HeapState.carve_pages _ _ _ _).ok ha)
    | none =>
      rw [HeapState.allocN_succ hsz hf] at ha
      obtain ⟨u, hg, ha⟩ := bind_ok.1 ha
      obtain ⟨hok', bs', hwf, -⟩ := h.allocOk_grow hsz hf hok hg
      have h32 : s.endAddress + growth (size + 8) < 4294967296 := by
        unfold HeapState.AllocOk at hok
        rw [hf] at hok
        obtain ⟨⟨-, -, h32⟩, -⟩ := hok
        unfold HeapState.needed at h32
        split at h32 <;> omega
      exact ih hwf (h.toTiled.pageBounds.grow_mapped hm (by omega) h32 hg) hok' ha

/-- A call of `Free` that does not make the heap shorter. -/
def HeapState.EndKept (s : HeapState) (p : Nat) : Prop :=
  (s.merged p).1 + (s.merged p).2 = s.endAddress → s.endAddress = s.startAddress + 0x70000

theorem HeapState.entered_pages {u : HeapState} {x : Nat} {d : Bool}
    (h : (if d then u.indexInsert x else .ok u) = .ok t) : HeapState.SamePages u t := by
  cases d with
  | false =>
    cases h
    exact .refl _
  | true => exact (HeapState.indexInsert_pages _).ok h

theorem HeapState.shrink_pages {u : HeapState} {x n e : Nat} (hx : u.startAddress ≤ x)
    (hmin : x + 8 ≤ u.startAddress + 0x70000) (hle : u.startAddress + 0x70000 ≤ u.endAddress)
    (hend : x + n = u.endAddress) (htop : u.endAddress < 4294967296)
    (hn : (u.header x).size = n % 4194304) (h : u.shrink x e = .ok t) :
    ∃ P, HeapState.contractPages u.startAddress 0x70000 0x100001
        (u.endAddress - u.startAddress - 0x1000) u.paging = .ok P ∧ t.paging = P ∧
      t.endAddress = u.startAddress + 0x70000 ∧ t.maxAddress = u.maxAddress := by
  rw [HeapState.shrink_eq hx hmin hle hend htop hn] at h
  obtain ⟨P, hP, h⟩ := bind_ok.1 h
  cases h
  exact ⟨P, HeapState.lift_ok.1 hP, rfl, rfl, rfl⟩

/-- `Free` that keeps the end keeps the extent; one that does not leaves the page at the new end its
frame. -/
theorem WF.free_pages {q m : Nat} (h : WF s bs) (hm : s.Mapped base)
    (hbase : base ≤ s.startAddress) (hq : (q, m) ∈ allocs s.startAddress bs)
    (hok : s.FreeOk (q + 4)) (hf : s.free (q + 4) = .ok t) :
    (s.EndKept (q + 4) ∧ t.Mapped base) ∨ (¬ s.EndKept (q + 4) ∧ ¬ t.Exact base) := by
  obtain ⟨l, r, rfl, hql⟩ := mem_place_iff.1 (mem_allocs.1 hq)
  obtain ⟨hfirst, hfits, hshrinks⟩ := hok
  rw [Nat.add_sub_cancel] at hfirst
  obtain ⟨l', before, after, r', x, n, v, idx, hM, hcase⟩ := h.laid.free_cases hql
    (fun hl => hfirst (by rw [hql, hl]; rfl)) hf
  rw [hM.merged] at hshrinks
  unfold HeapState.EndKept
  rw [hM.merged]
  have hst : v.startAddress = s.startAddress := (congrArg Heap.startAddress hM.joined.heap :)
  have hen : v.endAddress = s.endAddress := (congrArg Heap.endAddress hM.joined.heap :)
  have hmx : v.maxAddress = s.maxAddress := (congrArg Heap.maxAddress hM.joined.heap :)
  have hpag := hM.joined.paging
  rcases hcase with ⟨hne, ht⟩ | ⟨he, -, w, hw, ht⟩
  · have hs := HeapState.entered_pages ht
    refine .inl ⟨fun he => absurd he hne, ?_⟩
    unfold HeapState.Mapped
    rw [hs.paging, hs.endAddress, hs.maxAddress]
    show v.paging.MappedTo base v.endAddress v.maxAddress
    rw [hpag, hen, hmx]
    exact hm
  · obtain ⟨hmin, hle⟩ := hshrinks he
    have hx := hM.addr
    have htop := h.top
    have hlo := h.startPage
    have hep := h.endPage
    simp only at hmin
    obtain ⟨P, hP, hwp, hwe, hwm⟩ := HeapState.shrink_pages (u := { v with index := idx }) (x := x)
      (n := n) (by show v.startAddress ≤ x; omega) (by show _ ≤ v.startAddress + _; omega)
      (by show v.startAddress + _ ≤ v.endAddress; omega) (by show _ = v.endAddress; omega)
      (by show v.endAddress < _; omega) (congrArg Header.size hM.joined.header) hw
    replace hP : HeapState.contractPages v.startAddress 0x70000 0x100001
        (v.endAddress - v.startAddress - 0x1000) v.paging = .ok P := hP
    replace hwe : w.endAddress = v.startAddress + 0x70000 := hwe
    replace hwm : w.maxAddress = v.maxAddress := hwm
    rw [hst, hen, hpag] at hP
    have hs := HeapState.entered_pages ht
    unfold HeapState.Mapped HeapState.Exact
    rw [hs.paging, hs.endAddress, hs.maxAddress, hwp, hwe, hwm, hst, hmx]
    by_cases hsame : s.endAddress = s.startAddress + 0x70000
    · rw [HeapState.contractPages_none (by omega)] at hP
      cases hP
      refine .inl ⟨fun _ => hsame, ?_⟩
      rw [← hsame]
      exact hm
    · refine .inr ⟨fun hkept => hsame (hkept he), fun hmap => ?_⟩
      -- the page at the new end
      have hlim := hm.limit
      have hpage := HeapState.contractPages_frames hlo (by decide) hm.apart (by omega) (by omega) hP
        ((s.startAddress + 0x70000) / 4096) (by omega) (by omega)
      have hframed := (hm.frames ((s.startAddress + 0x70000) / 4096) (by omega) (by omega)).2 (by omega)
      have hgone := (hmap ((s.startAddress + 0x70000) / 4096) (by omega) (by omega)).1
        (by rw [Framed, hpage]; exact hframed)
      omega

/-- **`Free` keeps the extent exactly when it does not make the heap shorter.** -/
theorem WF.free_exact_iff {q m : Nat} (h : WF s bs) (hm : s.Mapped base)
    (hbase : base ≤ s.startAddress) (hq : (q, m) ∈ allocs s.startAddress bs)
    (hok : s.FreeOk (q + 4)) (hf : s.free (q + 4) = .ok t) :
    t.Exact base ↔ s.EndKept (q + 4) := by
  rcases h.free_pages hm hbase hq hok hf with ⟨hk, ht⟩ | ⟨hk, ht⟩
  · exact iff_of_true ht.frames hk
  · exact iff_of_false ht hk

end

/-! ## Along a run -/

namespace Clients

/-- The call does not make the heap shorter. -/
def EndOk (c : Clients) : Call → Prop
  | .free p => c.heap.EndKept p
  | _ => True

section
variable {c : Clients} {start endAddr max : Nat} {supervisor readonly : Bool} {mem : Mem} {P : Paging}
  {s : HeapState}

/-- A heap whose pages are mapped up to its end, with what is held. -/
structure Extends (c : Clients) (base max : Nat) : Prop where
  held : ∃ bs, Held c bs
  mapped : c.heap.Mapped base
  base : base ≤ c.heap.startAddress
  max : c.heap.maxAddress = max

/-- **A step that does not make the heap shorter keeps the extent.** -/
theorem Extends.step {base : Nat} {d : Clients} {i : Call} (h : Extends c base max)
    (hok : c.CallOk i) (hend : c.EndOk i) (hs : Step c i d) : Extends d base max := by
  obtain ⟨bs, hh⟩ := h.held
  have hheld := hh.step hok hs
  have hbase := h.base
  cases hs with
  | alloc ha =>
    obtain ⟨bs', hA⟩ := hh.wf.allocN_ok _ hok ha
    exact ⟨hheld, hh.wf.allocN_mapped _ h.mapped hok ha, hbase.trans hA.start.ge,
      hA.max.trans h.max⟩
  | free hp hf =>
    obtain ⟨h4, n, -, hn⟩ := hh.room _ hp
    rename_i p size t
    obtain ⟨q, rfl⟩ : ∃ q, p = q + 4 := ⟨p - 4, by simp only at h4; omega⟩
    rw [Nat.add_sub_cancel] at hn
    obtain ⟨bs', hF⟩ := hh.wf.freed hn hok hf
    refine ⟨hheld, ?_, hbase.trans hF.start.ge, hF.max.trans h.max⟩
    rcases hh.wf.free_pages h.mapped hbase hn hok hf with ⟨-, ht⟩ | ⟨hno, -⟩
    · exact ht
    · exact absurd hend hno
  | write hm => exact ⟨hheld, h.mapped, hbase, h.max⟩

/-- **The extent of a heap is its mapped pages**, along every run of good calls that do not make it
shorter, on a new heap over pages mapped up to its end. -/
theorem mapped_run (hc : Heap.CreateOk start endAddr) (hP : P.MappedTo start endAddr max)
    (hs : Heap.create start endAddr max supervisor readonly mem P = .ok s)
    (hr : Guarded.Run Step (fun c i => c.CallOk i ∧ c.EndOk i) ⟨s, []⟩ c) :
    c.heap.endAddress % 4096 = 0 ∧ c.heap.maxAddress = max ∧ c.heap.Exact start := by
  obtain ⟨-, hpag, hst, hen, hmax, -⟩ := Heap.create_ok hc.1 hc.2.2 hc.2.1 hs
  have h : Extends c start max := by
    refine hr.invariant (P := fun c => Extends c start max) ⟨⟨_, held_create hc hs⟩, ?_, ?_, hmax⟩ ?_
    · unfold HeapState.Mapped
      rw [hpag, hen, hmax]
      exact hP
    · show start ≤ s.startAddress
      omega
    · rintro t i u h ⟨hok, hend⟩ hstep
      exact h.step hok hend hstep
  obtain ⟨bs, hh⟩ := h.held
  exact ⟨hh.wf.endPage, h.max, h.mapped.frames⟩

end

end Clients

/-! ## The user heap -/

namespace Kernel

theorem user_pages : ∃ M, memoryInitialize 1 (fun _ => 0) 65536 (image 0x200000) = .ok M ∧
    M.paging.MappedTo 0xD0000000 0xD0400000 0xDFFFF000 ∧ 8 ≤ M.paging.frames.size ∧
    ∀ v < 0x100000, M.paging.kernelTable (v / 1024) ≠ 0 →
      (M.paging.page (M.paging.pageAt v)).frame < 0x100000 := by
  have hstart : Start (image 0x200000) := start_image (by decide) (by decide)
  obtain ⟨M, h, hb, -⟩ := memoryInitialize_returns 1 (fun _ => 0) 65536 hstart (by decide) (by decide)
  obtain ⟨hinit, hf, -⟩ := memoryInitialize_pages hstart h hb
  obtain ⟨K, k, hback, hbase, -⟩ := hinit.identity
  have hlow := hinit.bumped.low
  have hfits := hback.fits
  have hle := hback.le
  have hsz := hback.size
  have hsize : M.paging.frames.size = 512 := hinit.size
  refine ⟨M, h, ⟨⟨hback.apart, ?_, hback.size⟩, by decide, by decide,
    fun v h1 h2 => hinit.held _ ⟨by omega, by omega⟩, fun v h1 h2 => ?_⟩, by omega, fun v hv hT => ?_⟩
  · rw [hback.bits 0 (by omega)]
    exact decide_eq_true (by omega)
  · by_cases hv : v < 0xD0400
    · exact iff_of_true (hf.uheap v (by omega) hv).frame (by omega)
    · exact iff_of_false (fun hne => hne (hf.rest v (by omega) (by omega))) (by omega)
  · by_cases hvK : v < K
    · rw [(hback.identity v hvK).2.2]
      exact hv
    · rcases hback.above v (by omega) hv hT with ⟨h0, -⟩ | ⟨-, hlt, -⟩
      · rw [h0]
        decide
      · omega

end Kernel

/-- `Free` of a block before the hole that ends the heap, where `Contract` returns. -/
theorem WF.free_before_last {s : HeapState} {m k : Nat} (h : WF s [⟨false, m⟩, ⟨true, k⟩])
    (hslot : read32 s.mem (s.startAddress - 4) = 0)
    (hmin : s.startAddress + 0x70000 ≤ s.endAddress) {P : Paging}
    (hP : HeapState.contractPages s.startAddress 0x70000 0x100001
      (s.endAddress - s.startAddress - 0x1000) s.paging = .ok P) :
    s.merged (s.startAddress + 4) = (s.startAddress, m + k) ∧
      ∃ t, s.free (s.startAddress + 4) = .ok t := by
  have hlow := h.low
  have htop := h.top
  have hfills := h.fills
  have hlaid : Laid s ([] ++ ⟨false, m⟩ :: [⟨true, k⟩]) := h.laid
  rw [extent_cons, extent_cons, extent_nil] at hfills
  simp only at hfills
  have first := @Laid.first s _ [] s.startAddress h.laid hslot rfl
  obtain ⟨l', before, after, r', x, n, v, idx, hl, hr, hx, hn, hj, hi, -, hcap, hsize, -, -, hco⟩ :=
    hlaid.coalesce_ok rfl first nofun
  have hm := hlaid.merged_eq rfl first nofun hl hr hx hn
  obtain ⟨rfl, rfl⟩ : l' = [] ∧ before = [] := by
    have := hl.split
    simpa using this.symm
  obtain ⟨rfl, rfl⟩ : after = [⟨true, k⟩] ∧ r' = [] := hr.eq_cons
  simp only [extent_nil, Nat.add_zero, List.nil_append, extent_cons] at hx hn hm hco
  subst hx hn
  refine ⟨hm, ?_⟩
  have hst : v.startAddress = s.startAddress := (congrArg Heap.startAddress hj.heap :)
  have hen : v.endAddress = s.endAddress := (congrArg Heap.endAddress hj.heap :)
  have hitems : idx.items = [] := by
    rw [holes_nil, holes_nil, List.append_nil] at hi
    exact List.perm_nil.1 hi
  have hshrink := HeapState.shrink_eq (s := { v with index := idx }) (x := s.startAddress)
    (n := m + k) (e := s.startAddress + m) hst.le (by show _ ≤ v.startAddress + _; omega)
    (by show v.startAddress + _ ≤ v.endAddress; omega) (by show _ = v.endAddress; omega)
    (by show v.endAddress < _; omega) (congrArg Header.size hj.header)
  rw [show HeapState.contractPages _ 0x70000 0x100001 _ _ = .ok P by
    rw [← hP, ← hj.paging, ← hst, ← hen]] at hshrink
  obtain ⟨t, hins, -⟩ := HeapState.indexInsert_empty s.startAddress
    (w := ({ v with index := idx } : HeapState).shrunk s.startAddress _ P) hitems
    (hcap.trans h.capacity)
  refine ⟨t, HeapState.free_of (by omega) hco ?_ hshrink hins⟩
  show add32 (s.startAddress + (m + k) - 4) 4 = v.endAddress
  rw [add32_eq (by omega)]
  omega

namespace Clients

/-- A block is taken from a new user heap over the pages `memory::Initialize` makes. -/
theorem run_user : ∃ M s t, Kernel.memoryInitialize 1 (fun _ => 0) 65536 (Kernel.image 0x200000) =
      .ok M ∧ M.paging.MappedTo 0xD0000000 0xD0400000 0xDFFFF000 ∧
    Heap.create 0xD0000000 0xD0400000 0xDFFFF000 false false (fun _ => 0) M.paging = .ok s ∧
    s.AllocOk 8 false ∧ s.allocN 0 8 false (fun _ => 0) = .ok (0xD0081004, t) ∧
    WF t [⟨false, 16⟩, ⟨true, 0x37EFF0⟩] ∧ t.startAddress = 0xD0081000 ∧
    t.endAddress = 0xD0400000 ∧ t.maxAddress = 0xDFFFF000 ∧
    read32 t.mem (t.startAddress - 4) = 0 ∧ t.paging = M.paging ∧
    ∃ P, HeapState.contractPages 0xD0081000 0x70000 0x100001 0x37E000 M.paging = .ok P := by
  obtain ⟨M, hM, hmap, h8, hframe⟩ := Kernel.user_pages
  obtain ⟨s, hs⟩ := Heap.create_returns 0xDFFFF000 false false (fun _ => 0) M.paging
    (show 0xD0000000 % 4096 = 0 by decide) (show 0xD0400000 % 4096 = 0 by decide)
  obtain ⟨hwf, hpag, hst, hen, hmax, hoff⟩ := Heap.create_ok (by decide) (by decide) (by decide) hs
  obtain ⟨hok, t, ha, hr, hwf'⟩ := @WF.alloc_last s [] _ hwf 8 nofun (by decide) (by decide)
  rw [hst] at ha hr
  have htst : t.startAddress = 0xD0081000 := hr.startAddress.trans hst
  refine ⟨M, s, t, hM, hmap, hs, hok, ha, hwf', htst, hr.endAddress.trans hen,
    hr.maxAddress.trans hmax, ?_, hr.paging.trans hpag, ?_⟩
  · rw [htst, hr.off.read32 (by decide), hoff.read32 (by decide)]
    rfl
  · exact HeapState.contractPages_returns (by decide) _ _ _ hmap.apart (by decide) (by decide) h8
      hframe fun a h1 h2 => by
        have hT := hmap.tables (a / 0x1000) (by omega) (by omega)
        exact hT

/-- A run in which the user heap keeps its extent. -/
theorem mapped_run_user : ∃ M s t, Kernel.memoryInitialize 1 (fun _ => 0) 65536
      (Kernel.image 0x200000) = .ok M ∧
    Heap.create 0xD0000000 0xD0400000 0xDFFFF000 false false (fun _ => 0) M.paging = .ok s ∧
    Guarded.Run Step (fun c i => c.CallOk i ∧ c.EndOk i) ⟨s, []⟩ ⟨t, [(0xD0081004, 8)]⟩ ∧
    t.Exact 0xD0000000 := by
  obtain ⟨M, s, t, hM, hmap, hs, hok, ha, -⟩ := run_user
  have hr : Guarded.Run Step (fun c i => c.CallOk i ∧ c.EndOk i) ⟨s, []⟩ ⟨t, [(0xD0081004, 8)]⟩ :=
    .tail (i := .alloc 8 false 0 fun _ => 0) .refl ⟨hok, trivial⟩ (.alloc ha)
  exact ⟨M, s, t, hM, hs, hr, (mapped_run (by decide) hmap hs hr).2.2⟩

/-- **A page above the end keeps its frame**: a block of the user heap is freed again. -/
theorem page_left : ∃ M s c, Kernel.memoryInitialize 1 (fun _ => 0) 65536 (Kernel.image 0x200000) =
      .ok M ∧ M.paging.MappedTo 0xD0000000 0xD0400000 0xDFFFF000 ∧
    Heap.create 0xD0000000 0xD0400000 0xDFFFF000 false false (fun _ => 0) M.paging = .ok s ∧
    Guarded.Run Step CallOk ⟨s, []⟩ c ∧ c.live = [] ∧ ¬ c.heap.Exact 0xD0000000 := by
  obtain ⟨M, s, t, hM, hmap, hs, hok, ha, hwf, hst, hen, hmax, hslot, hpag, P, hP⟩ := run_user
  obtain ⟨hmerged, u, hu⟩ := hwf.free_before_last hslot (by rw [hst, hen]; decide)
    (by rw [hst, hen, hpag]; exact hP)
  have hr : Guarded.Run Step CallOk ⟨s, []⟩ ⟨t, [(0xD0081004, 8)]⟩ :=
    .tail (i := .alloc 8 false 0 fun _ => 0) .refl hok (.alloc ha)
  rw [hst] at hmerged hu
  have hfree : t.FreeOk 0xD0081004 := by
    refine ⟨fun _ => ?_, ?_, fun _ => ?_⟩
    · exact hwf.laid.first hslot (show 0xD0081000 = t.startAddress + extent Block.size [] by
        rw [hst]; rfl) rfl
    · rw [hmerged]
      decide
    · rw [hmerged, hst, hen]
      decide
  have hm : t.Mapped 0xD0000000 := by
    unfold HeapState.Mapped
    rw [hpag, hen, hmax]
    exact hmap
  have hq : (0xD0081000, 16) ∈ allocs t.startAddress [⟨false, 16⟩, ⟨true, 0x37EFF0⟩] := by
    rw [hst]
    simp [allocs_cons]
  have hlive : (0xD0081004, 8) ∈ [(0xD0081004, 8)] := List.mem_singleton.2 rfl
  refine ⟨M, s, _, hM, hmap, hs, hr.tail (i := .free 0xD0081004) hfree (.free hlive hu), by simp,
    fun hx => ?_⟩
  have hkept := (hwf.free_exact_iff hm (by rw [hst]; decide) hq hfree hu).1 hx
  unfold HeapState.EndKept at hkept
  rw [hmerged, hst, hen] at hkept
  exact absurd (hkept rfl) (by decide)

end Clients

end Dmanix
