import Dmanix.Memory.Proof.Frames
import Dmanix.Memory.Proof.Bootstrap

/-!
# Which pages are present

The calls that change page entries, with the ghost list of `Frames` carried along: `AllocFrame`,
`FreeFrame`, `Table::Clone` (whose new table is at an address of the step), and the page loops of
`Expand` and `Contract` on a heap object. Each is the model's own function on the paging state
(`call_expand`, `call_contract`, `call_clone`).

`PresentOwned`: a present page holds the frame it names. `FreeFrame` resets the frame field only, so
this holds as long as `FreeFrame` and `Contract` meet pages that are not present:
`present_run`.
-/

namespace Dmanix

open Word32 Bytes Outcome

/-- A call that changes page entries. -/
inductive PageCall where
  | alloc (q : PagePtr) (isKernel isWriteable : Bool)
  | free (q : PagePtr)
  | clone (src table : Nat)
  | expand (h : Heap) (newSize : Nat)
  | contract (h : Heap) (newSize : Nat)

namespace Frames

/-! ## The calls with what each page holds -/

/-- `AllocFrame(page, is_kernel, is_writeable)` -/
def allocFrame (s : Frames) (q : PagePtr) (isKernel isWriteable : Bool) : Except Halt Frames := do
  let P ← s.paging.allocFrame q isKernel isWriteable
  return ⟨P, (given s.paging q).toList.map (q, ·) ++ s.held⟩

/-- `FreeFrame(page)` -/
def freeFrame (s : Frames) (q : PagePtr) : Except Halt Frames := do
  let P ← s.paging.freeFrame q
  return ⟨P, s.held.filter (·.1 ≠ q)⟩

/-- `new (table) Table()`: no frame was given to the new entries. -/
def newTable (t : Nat) (s : Frames) : Frames :=
  ⟨{ s.paging with tables := Function.update s.paging.tables t fun _ => Page.zero },
    s.held.filter (·.1.table ≠ t)⟩

/-- The body of the loop of `Table::Clone`. -/
def cloneEntry (src dst i : Nat) (s : Frames) : Except Halt Frames :=
  let page := s.paging.page ⟨src, i⟩
  if page.frame = 0 then return s
  else do
    let s ← s.allocFrame ⟨dst, i⟩ false false
    let P := s.paging.setPage ⟨dst, i⟩ { page with frame := (s.paging.page ⟨dst, i⟩).frame }
    let phys := copyPagePhysical (frameToAddr page.frame)
      (frameToAddr (P.page ⟨dst, i⟩).frame) P.phys
    return { s with paging := { P with phys := phys } }

/-- `Table::Clone` of the table at `src` to the new table at `t` -/
def tableClone (src t : Nat) (s : Frames) : Except Halt Frames :=
  upTo (cloneEntry src t) Machine.arraySize (s.newTable t)

/-- The loop of `Expand`. -/
def expandPages (start newSize : Nat) (supervisor readonly : Bool) :
    Nat → Nat → Frames → Except Halt Frames
  | 0, _, _ => .error .hang
  | n + 1, i, s =>
    if i < newSize then do
      let page ← s.paging.getPage s.paging.kernelDirectory (add32 start i) true
      let s ← s.allocFrame page supervisor readonly
      expandPages start newSize supervisor readonly n (add32 i 0x1000) s
    else .ok s

/-- `Expand(new_size)` of the heap `h` -/
def expand (h : Heap) (newSize : Nat) (s : Frames) : Except Halt Frames := do
  assert (newSize > sub32 h.endAddress h.startAddress) "new_size > end_address - start_address"
  let newSize := HeapState.expandSize newSize
  assert (add32 h.startAddress newSize ≤ h.maxAddress) "start_address + new_size <= max_address"
  expandPages h.startAddress newSize h.supervisor h.readonly 0x100001
    (sub32 h.endAddress h.startAddress) s

/-- The loop of `Contract`. -/
def contractPages (start newSize : Nat) : Nat → Nat → Frames → Except Halt Frames
  | 0, _, _ => .error .hang
  | n + 1, i, s =>
    if newSize < i then do
      let page ← s.paging.getPage s.paging.kernelDirectory (add32 start i) false
      let s ← s.freeFrame page
      contractPages start newSize n (sub32 i 0x1000) s
    else .ok s

/-- `Contract(new_size)` of the heap `h` -/
def contract (h : Heap) (newSize : Nat) (s : Frames) : Except Halt Frames := do
  assert (newSize < sub32 h.endAddress h.startAddress) "new_size < end_address - start_address"
  contractPages h.startAddress (HeapState.contractSize newSize) 0x100001
    (sub32 (sub32 h.endAddress h.startAddress) 0x1000) s

/-- One call. -/
def call : PageCall → Frames → Except Halt Frames
  | .alloc q k w, s => s.allocFrame q k w
  | .free q, s => s.freeFrame q
  | .clone src t, s => tableClone src t s
  | .expand h newSize, s => expand h newSize s
  | .contract h newSize, s => contract h newSize s

/-- One call, as a step. -/
def Calls (s : Frames) (c : PageCall) (s' : Frames) : Prop := call c s = .ok s'

/-! ### The model's functions -/

theorem allocFrame_paging (s : Frames) (q : PagePtr) (k w : Bool) :
    (s.allocFrame q k w).map paging = s.paging.allocFrame q k w := by
  unfold allocFrame
  cases s.paging.allocFrame q k w <;> rfl

theorem freeFrame_paging (s : Frames) (q : PagePtr) :
    (s.freeFrame q).map paging = s.paging.freeFrame q := by
  unfold freeFrame
  cases s.paging.freeFrame q <;> rfl

theorem expandPages_paging (start newSize : Nat) (k w : Bool) (n : Nat) : ∀ (i : Nat) (s : Frames),
    (expandPages start newSize k w n i s).map paging =
      HeapState.expandPages start newSize k w n i s.paging := by
  induction n with
  | zero => intros; rfl
  | succ n ih =>
    intro i s
    unfold expandPages HeapState.expandPages
    split
    · refine seq_map_right fun page => ?_
      exact seq_map (allocFrame_paging s page k w) fun s' => ih _ s'
    · rfl

theorem contractPages_paging (start newSize : Nat) (n : Nat) : ∀ (i : Nat) (s : Frames),
    (contractPages start newSize n i s).map paging =
      HeapState.contractPages start newSize n i s.paging := by
  induction n with
  | zero => intros; rfl
  | succ n ih =>
    intro i s
    unfold contractPages HeapState.contractPages
    split
    · refine seq_map_right fun page => ?_
      exact seq_map (freeFrame_paging s page) fun s' => ih _ s'
    · rfl

/-- **`Expand`** changes the page entries as the call does. -/
theorem call_expand (u : HeapState) (newSize : Nat) (fresh : Mem) (s : Frames)
    (hs : s.paging = u.paging) :
    (call (.expand u.toHeap newSize) s).map paging =
      ((u.expand newSize fresh).mapError Fault.halt).map HeapState.paging := by
  have hp := expandPages_paging u.startAddress (HeapState.expandSize newSize) u.supervisor
    u.readonly 0x100001 (sub32 u.endAddress u.startAddress) s
  rw [hs] at hp
  simp only [call, expand, HeapState.expand, HeapState.assert, HeapState.lift, ← hp]
  cases assert (newSize > sub32 u.endAddress u.startAddress)
    "new_size > end_address - start_address" with
  | error e => rfl
  | ok _ =>
    cases assert (add32 u.startAddress (HeapState.expandSize newSize) ≤ u.maxAddress)
      "start_address + new_size <= max_address" with
    | error e => rfl
    | ok _ =>
      cases expandPages u.startAddress (HeapState.expandSize newSize) u.supervisor u.readonly
        0x100001 (sub32 u.endAddress u.startAddress) s <;> rfl

/-- **`Contract`** changes the page entries as the call does. -/
theorem call_contract (u : HeapState) (newSize : Nat) (s : Frames) (hs : s.paging = u.paging) :
    (call (.contract u.toHeap newSize) s).map paging =
      ((u.contract newSize).mapError Fault.halt).map fun r => r.2.paging := by
  have hp := contractPages_paging u.startAddress (HeapState.contractSize newSize) 0x100001
    (sub32 (sub32 u.endAddress u.startAddress) 0x1000) s
  rw [hs] at hp
  simp only [call, contract, HeapState.contract, HeapState.assert, HeapState.lift, ← hp]
  cases assert (newSize < sub32 u.endAddress u.startAddress)
    "new_size < end_address - start_address" with
  | error e => rfl
  | ok _ =>
    cases contractPages u.startAddress (HeapState.contractSize newSize) 0x100001
      (sub32 (sub32 u.endAddress u.startAddress) 0x1000) s <;> rfl

/-- **`Table::Clone`** changes the page entries as the call does, where `kalloc_pa` gave `table`. -/
theorem call_clone {σ : Type} {kallocPa : Nat → Machine σ → Except Halt (Nat × Nat × Machine σ)}
    {M M₁ : Machine σ} {src table phys : Nat} {s : Frames}
    (hk : kallocPa Machine.sizeofTable M = .ok (table, phys, M₁)) (hs : s.paging = M₁.paging) :
    (call (.clone src table) s).map paging =
      (Machine.tableClone kallocPa src M).map fun r => r.2.2.paging := by
  -- the machine with the paging state of a run
  let view : Frames → Machine σ := fun u => (M₁.newTable table).withPaging u.paging
  have hbody : ∀ i u, (cloneEntry src table i u).map view =
      Machine.cloneEntry src table i (view u) := by
    intro i u
    unfold cloneEntry Machine.cloneEntry
    show Except.map view (if (u.paging.page ⟨src, i⟩).frame = 0 then _ else _) =
      if (u.paging.page ⟨src, i⟩).frame = 0 then _ else _
    by_cases h0 : (u.paging.page ⟨src, i⟩).frame = 0
    · rw [if_pos h0, if_pos h0]
      rfl
    · rw [if_neg h0, if_neg h0]
      exact seq_map (allocFrame_paging u ⟨table, i⟩ false false) fun _ => rfl
  have hloop := upTo_map hbody Machine.arraySize (s.newTable table)
  have hview : view (s.newTable table) = M₁.newTable table := by
    show (M₁.newTable table).withPaging (s.newTable table).paging = _
    unfold newTable Machine.newTable Machine.withPaging
    rw [hs]
  rw [hview] at hloop
  unfold call tableClone Machine.tableClone
  rw [hk]
  simp only [bind, Except.bind]
  rw [← hloop]
  cases upTo (cloneEntry src table) Machine.arraySize (s.newTable table) <;> rfl

/-! ## Present pages hold their frames -/

/-- **A present page owns its frame**: the page holds the frame it names, the frame is marked used,
and no other page holds it. -/
def PresentOwned (s : Frames) : Prop :=
  ∀ q, (s.paging.page q).present = true → s.Holds q (s.paging.page q).frame ∧
    s.paging.frames.bit (s.paging.page q).frame = true ∧
    ∀ r, s.Holds r (s.paging.page q).frame → r = q

/-- The offsets the loop of `Contract` visits, from offset `i` down. -/
def contractOffsets (newSize : Nat) : Nat → Nat → List Nat
  | 0, _ => []
  | n + 1, i => if newSize < i then i :: contractOffsets newSize n (sub32 i 0x1000) else []

/-- The address `start + i` has no present page in the kernel's directory. -/
def AbsentAt (P : Paging) (start i : Nat) : Prop :=
  ∀ q, P.getPage P.kernelDirectory (add32 start i) false = .ok q → (P.page q).present = false

/-- A call whose pages to free, if any, are not present. -/
def FreesAbsent (s : Frames) : PageCall → Prop
  | .free q => (s.paging.page q).present = false
  | .contract h newSize => ∀ i ∈ contractOffsets (HeapState.contractSize newSize) 0x100001
      (sub32 (sub32 h.endAddress h.startAddress) 0x1000), AbsentAt s.paging h.startAddress i
  | _ => True

/-- `PresentOwned` as an invariant: the held frames are marked used, each has one holder, and a page
is present exactly when it holds the frame it names; a page that is not present names none. -/
structure Backed (s : Frames) : Prop where
  size : 32 * s.paging.frames.size ≤ 0x100000
  holder : ∀ q f, s.Holds q f → f < 32 * s.paging.frames.size ∧
    s.paging.frames.bit f = true ∧ (s.paging.page q).present = true
  alone : ∀ q r f, s.Holds q f → s.Holds r f → q = r
  held : ∀ q, (s.paging.page q).present = true → s.Holds q (s.paging.page q).frame
  absent : ∀ q, (s.paging.page q).present = false → (s.paging.page q).frame = 0

section
variable {s s' : Frames} {q : PagePtr} {k w : Bool} {start newSize : Nat}

theorem Backed.presentOwned (h : Backed s) : s.PresentOwned := fun q hq =>
  ⟨h.held q hq, (h.holder q _ (h.held q hq)).2.1, fun r hr => h.alone r q _ hr (h.held q hq)⟩

/-- The invariant is about the bit set, the presence and the frame field of the pages. -/
theorem Backed.congr (h : Backed s) (hb : s'.paging.frames = s.paging.frames)
    (hh : s'.held = s.held)
    (hp : ∀ q, (s'.paging.page q).present = (s.paging.page q).present ∧
      (s'.paging.page q).frame = (s.paging.page q).frame) : Backed s' := by
  have hiff : ∀ q f, s'.Holds q f ↔ s.Holds q f := fun q f => by
    unfold Holds
    rw [hh]
  refine ⟨?_, fun q f hq => ?_, fun q r f hq hr => ?_, fun q hq => ?_, fun q hq => ?_⟩
  · rw [hb]
    exact h.size
  · rw [hb, (hp q).1]
    exact h.holder q f ((hiff q f).1 hq)
  · exact h.alone q r f ((hiff q f).1 hq) ((hiff r f).1 hr)
  · rw [(hp q).1] at hq
    rw [(hp q).2, hiff]
    exact h.held q hq
  · rw [(hp q).1] at hq
    rw [(hp q).2]
    exact h.absent q hq

theorem Backed.alloc (h : Backed s) (hs : s.allocFrame q k w = .ok s') :
    Backed s' ∧ (s'.paging.page q).present = true := by
  obtain ⟨P', hP, hs⟩ := bind_ok.1 hs
  cases hs
  by_cases h0 : (s.paging.page q).frame = 0
  · obtain ⟨f, hn, hlt, hclear, hsz, hbit, hpage⟩ := Paging.allocFrame_gives hP h0
    have hg : given s.paging q = some f := (if_pos h0).trans hn
    rw [hg]
    have hother : ∀ r, r ≠ q → P'.page r = s.paging.page r := fun r hr =>
      Paging.allocFrame_page hP hr
    have hfree : ∀ r, ¬ s.Holds r f := fun r hr => by
      rw [(h.holder r f hr).2.1] at hclear
      cases hclear
    have hpres : (P'.page q).present = true := by rw [hpage]
    refine ⟨⟨?_, fun r g hr => ?_, fun r r' g hr hr' => alone_given hfree h.alone hr hr',
      fun r hr => mem_held.2 ?_, fun r hr => ?_⟩, hpres⟩
    · show 32 * P'.frames.size ≤ 0x100000
      rw [hsz]
      exact h.size
    · show g < 32 * P'.frames.size ∧ P'.frames.bit g = true ∧ (P'.page r).present = true
      rw [hsz, hbit, Bool.or_eq_true, beq_iff_eq]
      rcases mem_held.1 hr with ⟨rfl, rfl⟩ | hr
      · exact ⟨hlt, .inl rfl, hpres⟩
      · obtain ⟨h1, h2, h3⟩ := h.holder r g hr
        refine ⟨h1, .inr h2, ?_⟩
        by_cases hrq : r = q
        · rw [hrq]
          exact hpres
        · rw [hother r hrq]
          exact h3
    · by_cases hrq : r = q
      · subst hrq
        have hsize := h.size
        rw [hpage]
        exact .inl ⟨rfl, Nat.mod_eq_of_lt (by omega)⟩
      · rw [hother r hrq] at hr ⊢
        exact .inr (h.held r hr)
    · by_cases hrq : r = q
      · subst hrq
        cases hpres.symm.trans hr
      · rw [hother r hrq] at hr ⊢
        exact h.absent r hr
  · have hg : given s.paging q = none := if_neg h0
    rw [hg]
    rcases Paging.allocFrame_cases hP with ⟨-, rfl⟩ | ⟨hz, -⟩
    · refine ⟨h, ?_⟩
      by_contra hq
      exact h0 (h.absent q (Bool.eq_false_iff.2 hq))
    · exact absurd hz h0

theorem freeFrame_present (hs : s.freeFrame q = .ok s') (r : PagePtr) :
    (s'.paging.page r).present = (s.paging.page r).present := by
  obtain ⟨P', hP, hs⟩ := bind_ok.1 hs
  cases hs
  by_cases hrq : r = q
  · subst hrq
    rcases Paging.freeFrame_cases hP with ⟨-, rfl⟩ | ⟨-, b, -, rfl⟩
    · rfl
    · rw [Paging.page_setPage_self]
  · rw [Paging.freeFrame_page hP hrq]

/-- After `FreeFrame` the page holds nothing, and nothing new is held. -/
theorem freeFrame_holds (hs : s.freeFrame q = .ok s') {r : PagePtr} {f : Nat}
    (hr : s'.Holds r f) : s.Holds r f ∧ r ≠ q := by
  obtain ⟨P', -, hs⟩ := bind_ok.1 hs
  cases hs
  obtain ⟨h1, h2⟩ := List.mem_filter.1 hr
  exact ⟨h1, of_decide_eq_true h2⟩

theorem freeFrame_getPage (hs : s.freeFrame q = .ok s') (address : Nat) (make : Bool) :
    s'.paging.getPage s'.paging.kernelDirectory address make =
      s.paging.getPage s.paging.kernelDirectory address make := by
  obtain ⟨P', hP, hs⟩ := bind_ok.1 hs
  cases hs
  rcases Paging.freeFrame_cases hP with ⟨-, rfl⟩ | ⟨-, b, -, rfl⟩ <;> rfl

theorem Backed.free (h : Backed s) (hq : (s.paging.page q).present = false)
    (hs : s.freeFrame q = .ok s') : Backed s' ∧ s'.paging = s.paging := by
  obtain ⟨P', hP, hs⟩ := bind_ok.1 hs
  cases hs
  rcases Paging.freeFrame_cases hP with ⟨-, rfl⟩ | ⟨hne, -⟩
  · refine ⟨h.congr rfl (List.filter_eq_self.2 fun p hp => decide_eq_true fun he => ?_)
      fun _ => ⟨rfl, rfl⟩, rfl⟩
    -- a page that is not present holds nothing
    have hheld : s.Holds p.1 p.2 := hp
    have := (h.holder p.1 p.2 hheld).2.2
    rw [he, hq] at this
    cases this
  · exact absurd (h.absent q hq) hne

theorem Backed.newTable (h : Backed s) (t : Nat) : Backed (s.newTable t) := by
  have hnew : ∀ q, q.table = t → (s.newTable t).paging.page q = Page.zero := fun q hq => by
    show Function.update s.paging.tables t (fun _ => Page.zero) q.table q.entry = Page.zero
    rw [hq, Function.update_self]
  have hold : ∀ q, q.table ≠ t → (s.newTable t).paging.page q = s.paging.page q := fun q hq => by
    show Function.update s.paging.tables t (fun _ => Page.zero) q.table q.entry = _
    rw [Function.update_of_ne hq]
    rfl
  have hmem : ∀ q f, (s.newTable t).Holds q f ↔ s.Holds q f ∧ q.table ≠ t := fun q f => by
    unfold Holds Frames.newTable
    rw [List.mem_filter, decide_eq_true_iff]
  refine ⟨h.size, fun q f hq => ?_, fun q r f hq hr => ?_, fun q hq => ?_, fun q hq => ?_⟩
  · obtain ⟨h1, h2⟩ := (hmem q f).1 hq
    rw [hold q h2]
    exact h.holder q f h1
  · exact h.alone q r f ((hmem q f).1 hq).1 ((hmem r f).1 hr).1
  · by_cases ht : q.table = t
    · rw [hnew q ht] at hq
      cases hq
    · rw [hold q ht] at hq ⊢
      exact (hmem q _).2 ⟨h.held q hq, ht⟩
  · by_cases ht : q.table = t
    · rw [hnew q ht]
      rfl
    · rw [hold q ht] at hq ⊢
      exact h.absent q hq

/-- One entry of `Table::Clone`: the copy of a page with a frame is present as that page is. -/
theorem Backed.cloneEntry {src dst i : Nat} (h : Backed s)
    (hs : cloneEntry src dst i s = .ok s') : Backed s' := by
  unfold Frames.cloneEntry at hs
  by_cases h0 : (s.paging.page ⟨src, i⟩).frame = 0
  · cases (if_pos h0).symm.trans hs
    exact h
  · have hpres : (s.paging.page ⟨src, i⟩).present = true := by
      by_contra hne
      exact h0 (h.absent _ (Bool.eq_false_iff.2 hne))
    obtain ⟨u, hu, hs⟩ := bind_ok.1 ((if_neg h0).symm.trans hs)
    obtain ⟨hb, hq⟩ := h.alloc hu
    cases hs
    refine hb.congr rfl rfl fun r => ?_
    show ((u.paging.setPage ⟨dst, i⟩ _).page r).present = _ ∧
      ((u.paging.setPage ⟨dst, i⟩ _).page r).frame = _
    by_cases hr : r = ⟨dst, i⟩
    · rw [hr, Paging.page_setPage_self]
      exact ⟨hpres.trans hq.symm, rfl⟩
    · rw [Paging.page_setPage_ne _ hr]
      exact ⟨rfl, rfl⟩

theorem Backed.tableClone {src t : Nat} (h : Backed s) (hs : tableClone src t s = .ok s') :
    Backed s' :=
  (upTo_meets (E := fun _ => True) (I := fun _ u => Backed u) (h.newTable t) fun _ _ _ hu =>
    .intro fun _ hv => hu.cloneEntry hv).ok hs

theorem Backed.expandPages {n : Nat} : ∀ {i : Nat} {s : Frames}, Backed s →
    expandPages start newSize k w n i s = .ok s' → Backed s' := by
  induction n with
  | zero => intro _ _ _ hs; cases hs
  | succ n ih =>
    intro i s h hs
    unfold Frames.expandPages at hs
    split at hs
    · obtain ⟨q, -, hs⟩ := bind_ok.1 hs
      obtain ⟨u, hu, hs⟩ := bind_ok.1 hs
      exact ih (h.alloc hu).1 hs
    · cases hs
      exact h

theorem Backed.expand {u : Heap} {n : Nat} (h : Backed s) (hs : expand u n s = .ok s') :
    Backed s' := by
  obtain ⟨_, -, hs⟩ := bind_ok.1 hs
  obtain ⟨_, -, hs⟩ := bind_ok.1 hs
  exact h.expandPages hs

theorem Backed.contractPages {n : Nat} : ∀ {i : Nat} {s : Frames}, Backed s →
    (∀ j ∈ contractOffsets newSize n i, AbsentAt s.paging start j) →
    contractPages start newSize n i s = .ok s' → Backed s' := by
  induction n with
  | zero => intro _ _ _ _ hs; cases hs
  | succ n ih =>
    intro i s h hg hs
    unfold Frames.contractPages at hs
    unfold contractOffsets at hg
    split at hs
    · rename_i hlt
      rw [if_pos hlt] at hg
      obtain ⟨q, hq, hs⟩ := bind_ok.1 hs
      obtain ⟨u, hu, hs⟩ := bind_ok.1 hs
      obtain ⟨hb, he⟩ := h.free (hg i List.mem_cons_self q hq) hu
      refine ih hb (fun j hj => ?_) hs
      rw [he]
      exact hg j (List.mem_cons_of_mem _ hj)
    · cases hs
      exact h

/-- What the loop of `Contract` leaves: the presence of every page, and nothing held by a page it
visited. -/
theorem contractPages_holds {n : Nat} : ∀ {i : Nat} {s : Frames},
    contractPages start newSize n i s = .ok s' →
    (∀ r, (s'.paging.page r).present = (s.paging.page r).present) ∧
    (∀ r f, s'.Holds r f → s.Holds r f) ∧
    ∀ j ∈ contractOffsets newSize n i, ∀ q,
      s.paging.getPage s.paging.kernelDirectory (add32 start j) false = .ok q →
      ∀ f, ¬ s'.Holds q f := by
  induction n with
  | zero => intro _ _ hs; cases hs
  | succ n ih =>
    intro i s hs
    unfold contractPages at hs
    unfold contractOffsets
    split at hs
    · rename_i hlt
      rw [if_pos hlt]
      obtain ⟨p, hp, hs⟩ := bind_ok.1 hs
      obtain ⟨u, hu, hs⟩ := bind_ok.1 hs
      obtain ⟨h1, h2, h3⟩ := ih hs
      refine ⟨fun r => (h1 r).trans (freeFrame_present hu r),
        fun r f hr => (freeFrame_holds hu (h2 r f hr)).1, fun j hj q hq f hf => ?_⟩
      rcases List.mem_cons.1 hj with rfl | hj
      · cases hp.symm.trans hq
        exact (freeFrame_holds hu (h2 p f hf)).2 rfl
      · refine h3 j hj q ?_ f hf
        rw [← hq]
        exact freeFrame_getPage hu _ _
    · rename_i hlt
      cases hs
      rw [if_neg hlt]
      exact ⟨fun _ => rfl, fun _ _ h => h, fun j hj => absurd hj List.not_mem_nil⟩

end

/-! ## Runs -/

/-- A call that frees only pages that are not present keeps the invariant. -/
theorem Backed.call {s s' : Frames} {c : PageCall} (h : Backed s) (hc : s.FreesAbsent c)
    (hs : Calls s c s') : Backed s' := by
  cases c with
  | alloc q k w => exact (h.alloc hs).1
  | free q => exact (h.free hc hs).1
  | clone src t => exact h.tableClone hs
  | expand u n => exact h.expand hs
  | contract u n =>
    obtain ⟨_, -, hs⟩ := bind_ok.1 hs
    exact h.contractPages hc hs

/-- A call that frees a present page leaves it present and holding nothing. -/
theorem not_presentOwned {s s' : Frames} {c : PageCall} (hc : ¬ s.FreesAbsent c)
    (hs : Calls s c s') : ¬ s'.PresentOwned := by
  cases c with
  | alloc q k w => exact absurd trivial hc
  | clone src t => exact absurd trivial hc
  | expand u n => exact absurd trivial hc
  | free q =>
    intro ho
    have hq : (s.paging.page q).present = true := Bool.eq_true_of_not_eq_false hc
    exact (freeFrame_holds hs (ho q ((freeFrame_present hs q).trans hq)).1).2 rfl
  | contract u n =>
    intro ho
    obtain ⟨_, -, hs⟩ := bind_ok.1 hs
    obtain ⟨h1, -, h3⟩ := contractPages_holds hs
    refine hc fun j hj q hq => ?_
    by_contra hp
    exact h3 j hj q hq _ (ho q ((h1 q).trans (Bool.eq_true_of_not_eq_false hp))).1

/-- Paging objects all of whose page entries are zero. -/
def Blank (P : Paging) : Prop := ∀ q, P.page q = Page.zero

theorem backed_start {P : Paging} {memEnd : Nat} (hP : Blank P) :
    Backed (start P (Kernel.numFrames memEnd)) := by
  refine ⟨Kernel.numFrames_le memEnd, fun q _ hq => ?_, fun q _ _ hq => ?_, fun q hq => ?_,
    fun q _ => ?_⟩
  · cases hq
  · cases hq
  · rw [show (start P (Kernel.numFrames memEnd)).paging.page q = Page.zero from hP q] at hq
    cases hq
  · rw [show (start P (Kernel.numFrames memEnd)).paging.page q = Page.zero from hP q]
    rfl

/-- **A page is present only while it owns its frame**, in every state of a run from an all-clear
frame bit set in which `FreeFrame` and `Contract` meet pages that are not present; and the first
call outside that condition leaves a page present without a frame of its own. -/
theorem present_run {P : Paging} {memEnd : Nat} {s : Frames} (hP : Blank P)
    (h : Guarded.Run Calls FreesAbsent (start P (Kernel.numFrames memEnd)) s) :
    s.PresentOwned ∧ ∀ c s', Calls s c s' → (s'.PresentOwned ↔ s.FreesAbsent c) := by
  have hi : Backed s := h.invariant (backed_start hP) fun _ _ _ hb hg hs => hb.call hg hs
  refine ⟨hi.presentOwned, fun c s' hs => ⟨fun ho => ?_, fun hg => (hi.call hg hs).presentOwned⟩⟩
  by_contra hc
  exact not_presentOwned hc hs ho

/-! ## A run -/

theorem numFrames_256 : Kernel.numFrames 256 = 64 := rfl

theorem calls_oneAlloc :
    Calls (start blank (Kernel.numFrames 256)) (.alloc firstPage false false) oneAlloc := by
  rw [numFrames_256]
  rfl

theorem calls_twoAlloc : Calls oneAlloc (.alloc secondPage false false) twoAlloc := rfl

theorem calls_threeAlloc : Calls twoAlloc (.alloc thirdPage false false) threeAlloc := rfl

theorem present_run_threeAlloc : threeAlloc.PresentOwned ∧
    ∀ c s', Calls threeAlloc c s' → (s'.PresentOwned ↔ threeAlloc.FreesAbsent c) := by
  have hfree : Calls twoAlloc (.free thirdPage) twoAlloc := rfl
  have habs : twoAlloc.FreesAbsent (.free thirdPage) := rfl
  have h₁ : Guarded.Run Calls FreesAbsent (start blank (Kernel.numFrames 256)) oneAlloc :=
    .tail (i := .alloc firstPage false false) .refl trivial calls_oneAlloc
  have h₂ : Guarded.Run Calls FreesAbsent (start blank (Kernel.numFrames 256)) twoAlloc :=
    .tail (i := .alloc secondPage false false) h₁ trivial calls_twoAlloc
  exact @present_run blank 256 threeAlloc (fun _ => rfl)
    (.tail (i := .alloc thirdPage false false) (h₂.tail habs hfree) trivial calls_threeAlloc)

/-- The state after `FreeFrame` of the second page. -/
def freedSecond : Frames :=
  ⟨{ twoAlloc.paging with frames := twoAlloc.paging.frames.store 0 2#32 }.setPage secondPage
    { Page.zero with present := true, user := true }, [(firstPage, 0)]⟩

theorem calls_freedSecond : Calls twoAlloc (.free secondPage) freedSecond := rfl

/-- **A freed page stays present at frame 0**: two pages get frames 0 and 1; after `FreeFrame` the
second is present, holds no frame and names the first page's. -/
theorem freed_still_present :
    Guarded.Run Calls (fun _ _ => True) (start blank (Kernel.numFrames 256)) freedSecond ∧
      (freedSecond.paging.page secondPage).present = true ∧
      (freedSecond.paging.page secondPage).frame = 0 ∧ freedSecond.Holds firstPage 0 ∧
      ¬ freedSecond.PresentOwned := by
  refine ⟨.tail (.tail (.tail .refl trivial calls_oneAlloc) trivial calls_twoAlloc) trivial
    calls_freedSecond, rfl, rfl, List.mem_cons_self, fun ho => ?_⟩
  have hne : firstPage ≠ secondPage := by decide
  exact hne ((ho secondPage rfl).2.2 firstPage List.mem_cons_self)

end Frames

end Dmanix
