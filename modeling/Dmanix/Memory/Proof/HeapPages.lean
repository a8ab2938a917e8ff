import Dmanix.Memory.Heap
import Dmanix.Memory.Proof.Tags
import Dmanix.Memory.Proof.Identity
import Dmanix.Lib.Outcome

/-!
# What the heap does to page entries

`Alloc` touches page entries only in `Expand`, `Free` only in `Contract`; each on pages between
`start_address` and `max_address`. So an invariant of the page entries that `AllocFrame` keeps on
such pages is kept by `Alloc` (`allocN_pages`), one that `FreeFrame` keeps too by `Free`
(`free_pages`); and where these pages have tables, neither asks for one: the allocator is not
entered again.
-/

namespace Dmanix

open Word32 Bytes Outcome

/-- `x` gives a value with `Q`, or stops without entering the allocator again. -/
abbrev Runs {α : Type} (x : Except Halt α) (Q : α → Prop) : Prop := Meets x Q (· ≠ .reentry)

/-- The same of a heap function. -/
abbrev HeapRuns {α : Type} (x : Except Fault α) (Q : α → Prop) : Prop :=
  Meets x Q (·.halt ≠ .reentry)

theorem assert_runs (b : Bool) (msg : String) : Runs (assert b msg) fun _ => b = true := by
  cases b with
  | true => exact .pure rfl
  | false => exact .stop (by simp)

/-! ## The index -/

namespace OrderedArray

variable {α : Type}

theorem read_runs (a : OrderedArray α) (i : Nat) : Runs (a.read i) fun _ => True := by
  unfold read
  split
  · exact .pure trivial
  · exact .stop (by simp)

theorem write_runs (a : OrderedArray α) (i : Nat) (x : α) : Runs (a.write i x) fun _ => True := by
  unfold write
  split
  · exact .pure trivial
  · exact .stop (by simp)

theorem findSlot_runs (pred : α → α → Bool) (a : OrderedArray α) (item : α) :
    ∀ n i, Runs (findSlot pred a item n i) fun _ => True
  | 0, _ => .pure trivial
  | n + 1, i => by
    refine (a.read_runs i).bind fun x _ => ?_
    split
    · exact findSlot_runs pred a item n (i + 1)
    · exact .pure trivial

theorem shift_runs : ∀ (n i : Nat) (tmp : α) (a : OrderedArray α),
    Runs (shift n i tmp a) fun _ => True
  | 0, _, _, _ => .pure trivial
  | n + 1, i, tmp, a =>
    (a.read_runs (i + 1)).bind fun tmp2 _ => (a.write_runs (i + 1) tmp).bind fun a _ =>
      shift_runs n (i + 1) tmp2 a

theorem insert_runs (pred : α → α → Bool) (a : OrderedArray α) (item : α) :
    Runs (a.insert pred item) fun _ => True := by
  have hend : ∀ a' : OrderedArray α, Runs (do
      assert (a'.size + 1 < a'.capacity) "size < capacity"
      return { a' with size := a'.size + 1 }) fun _ => True :=
    fun a' => (Dmanix.assert_runs _ _).bind fun _ _ => .pure trivial
  refine (findSlot_runs pred a item _ _).bind fun i _ => ?_
  dsimp only
  split
  · exact (a.write_runs a.size item).bind fun a' _ => hend a'
  · exact (a.read_runs i).bind fun tmp _ => (a.write_runs i item).bind fun a' _ =>
      (shift_runs _ i tmp a').bind fun a' _ => hend a'

theorem close_runs : ∀ (n i : Nat) (a : OrderedArray α), Runs (close n i a) fun _ => True
  | 0, _, _ => .pure trivial
  | n + 1, i, a =>
    (a.read_runs (i + 1)).bind fun x _ => (a.write_runs i x).bind fun a _ => close_runs n (i + 1) a

theorem remove_runs (a : OrderedArray α) (i : Nat) : Runs (a.remove i) fun _ => True :=
  (close_runs _ i a).bind fun _ _ => .pure trivial

theorem lookup_runs (a : OrderedArray α) (i : Nat) : Runs (a.lookup i) fun _ => True :=
  (assert_runs _ _).bind fun _ _ => a.read_runs i

end OrderedArray

/-! ## The rest of the heap -/

namespace HeapState

/-- The same pages, limits and rights. -/
structure SamePages (s s' : HeapState) : Prop where
  paging : s'.paging = s.paging
  startAddress : s'.startAddress = s.startAddress
  endAddress : s'.endAddress = s.endAddress
  maxAddress : s'.maxAddress = s.maxAddress
  supervisor : s'.supervisor = s.supervisor
  readonly : s'.readonly = s.readonly

theorem SamePages.refl (s : HeapState) : SamePages s s := ⟨rfl, rfl, rfl, rfl, rfl, rfl⟩

theorem SamePages.trans {s s' s'' : HeapState} (h : SamePages s s') (h' : SamePages s' s'') :
    SamePages s s'' :=
  ⟨h'.paging.trans h.paging, h'.startAddress.trans h.startAddress,
    h'.endAddress.trans h.endAddress, h'.maxAddress.trans h.maxAddress,
    h'.supervisor.trans h.supervisor, h'.readonly.trans h.readonly⟩

theorem SamePages.of {s s' : HeapState} (hp : s'.paging = s.paging) (hh : s'.toHeap = s.toHeap) :
    SamePages s s' :=
  ⟨hp, congrArg Heap.startAddress hh, congrArg Heap.endAddress hh, congrArg Heap.maxAddress hh,
    congrArg Heap.supervisor hh, congrArg Heap.readonly hh⟩

variable {s : HeapState}

theorem lift_runs {α : Type} {x : Except Halt α} {Q : α → Prop} (h : Runs x Q) :
    HeapRuns (s.lift x) Q := by
  cases x with
  | ok a => exact .pure (h.ok rfl)
  | error e => exact .stop (h.error rfl)

theorem assert_runs (b : Bool) (msg : String) : HeapRuns (s.assert b msg) fun _ => b = true :=
  lift_runs (Dmanix.assert_runs b msg)

theorem indexInsert_pages (h : Nat) : HeapRuns (s.indexInsert h) (SamePages s) :=
  (lift_runs (OrderedArray.insert_runs _ _ h)).bind fun index _ =>
    .pure ⟨by simp, by simp, by simp, by simp, by simp, by simp⟩

theorem indexRemove_pages (i : Nat) : HeapRuns (s.indexRemove i) (SamePages s) :=
  (lift_runs (OrderedArray.remove_runs _ i)).bind fun _ _ =>
    .pure ⟨rfl, rfl, rfl, rfl, rfl, rfl⟩

theorem addSpace_pages (e g : Nat) : HeapRuns (s.addSpace e g) (SamePages s) := by
  unfold addSpace
  cases s.lastHole with
  | none =>
    exact (indexInsert_pages e).imp fun s' hs' => SamePages.trans (.of (by simp) (by simp)) hs'
  | some header => exact .pure (.of (by simp) (by simp))

theorem openGap_pages (i origPos origSize : Nat) (pageAlign : Bool) :
    HeapRuns (s.openGap i origPos origSize pageAlign) fun r => SamePages s r.1 := by
  unfold openGap
  split
  · exact .pure (.of (by simp) (by simp))
  · exact (indexRemove_pages i).bind fun s' hs' => .pure hs'

theorem placeBlock_pages (origPos origSize size newSize : Nat) :
    HeapRuns (s.placeBlock origPos origSize size newSize) fun r => SamePages s r.2 := by
  unfold placeBlock
  simp only
  split
  · refine (indexInsert_pages _).bind fun s' hs' => .pure (SamePages.trans ?_ hs')
    split <;> exact .of (by simp) (by simp)
  · exact .pure (.of (by simp) (by simp))

theorem carve_pages (i size newSize : Nat) (pageAlign : Bool) :
    HeapRuns (s.carve i size newSize pageAlign) fun r => SamePages s r.2 := by
  refine (lift_runs (OrderedArray.lookup_runs _ i)).bind fun origPos _ => ?_
  refine (openGap_pages _ _ _ _).bind fun r hr => ?_
  exact (placeBlock_pages _ _ _ _).imp fun r' hr' => hr.trans hr'

end HeapState

/-! ## Growing and shrinking -/

namespace Paging

theorem allocFrame_runs (P : Paging) (q : PagePtr) (k w : Bool) :
    Runs (P.allocFrame q k w) fun P' => P.allocFrame q k w = .ok P' := by
  refine ⟨id, fun {e} he => ?_⟩
  unfold allocFrame at he
  split at he
  · cases he
  · split at he
    · cases he
      simp
    · rename_i f hf
      obtain ⟨b, hb, -⟩ := Bitset.set_ok (b := P.frames) (f := f)
        (by have := (Bitset.next_some hf).1; omega)
      rw [hb] at he
      cases he

theorem freeFrame_runs (P : Paging) (q : PagePtr) :
    Runs (P.freeFrame q) fun P' => P.freeFrame q = .ok P' := by
  refine ⟨id, fun {e} he => ?_⟩
  unfold freeFrame Bitset.clear at he
  by_cases h0 : (P.page q).frame = 0
  · rw [if_pos h0] at he
    cases he
  · rw [if_neg h0] at he
    simp only at he
    split at he <;> cases he
    simp

end Paging

/-- The pages from `lo` to `hi` have tables, and `AllocFrame` on one keeps `I`. -/
structure Grows (I : Paging → Prop) (lo hi : Nat) : Prop where
  table : ∀ {P a}, I P → lo ≤ a → a < hi → P.kernelTable (a / 0x1000 / 1024) ≠ 0
  alloc : ∀ {P P' a k w}, I P → lo ≤ a → a < hi →
    P.allocFrame (P.pageAt (a / 0x1000)) k w = .ok P' → I P'

theorem Grows.below {I : Paging → Prop} {lo hi first e : Nat} (hg : Grows I lo hi) (hlo : lo ≤ first)
    (he : e ≤ hi) : Grows I first e :=
  ⟨fun hP h1 h2 => hg.table hP (hlo.trans h1) (h2.trans_le he),
    fun hP h1 h2 => hg.alloc hP (hlo.trans h1) (h2.trans_le he)⟩

/-- `FreeFrame` on a page from `lo` to `hi` keeps `I`. -/
def Shrinks (I : Paging → Prop) (lo hi : Nat) : Prop :=
  ∀ {P P' a}, I P → lo ≤ a → a < hi → P.freeFrame (P.pageAt (a / 0x1000)) = .ok P' → I P'

/-- A heap from `lo`, of the smallest size at least, that ends at `hi` at most. -/
structure Limits (lo hi : Nat) (h : Heap) : Prop where
  start : h.startAddress = lo
  max : h.maxAddress = hi
  least : lo + 0x70000 ≤ h.endAddress
  most : h.endAddress ≤ hi

namespace HeapState

variable {I : Paging → Prop} {lo hi : Nat} {s : HeapState} {fresh : Mem}

/-- The loop of `Expand`, from the pages of `first` on. -/
theorem expandPages_pages {first : Nat} (hg : Grows I first hi) (hhi : hi ≤ 0xE0000000) {newSize : Nat}
    {supervisor readonly : Bool} (hn : lo + newSize ≤ hi) : ∀ (n i : Nat) (P : Paging),
      first ≤ lo + i → I P → Runs (expandPages lo newSize supervisor readonly n i P) I
  | 0, _, _, _, _ => .stop (by simp)
  | n + 1, i, P, hfirst, hP => by
    unfold expandPages
    split
    · rename_i hi
      have hadd : add32 lo i = lo + i := add32_eq (by omega)
      have hnext : add32 i 0x1000 = i + 0x1000 := add32_eq (by omega)
      have hT := hg.table (a := lo + i) hP hfirst (by omega)
      rw [hadd, Paging.getPage_kernel hT, ok_bind]
      refine (Paging.allocFrame_runs P _ _ _).bind fun P' hP' => ?_
      exact expandPages_pages hg hhi hn n _ P' (by omega) (hg.alloc hP hfirst (by omega) hP')
    · exact .pure hP

/-- **`Expand`** as `Alloc` calls it, for at most 4 MiB and two tags, keeps an invariant of the end and
the page entries that `AllocFrame` keeps on the pages up to the end. -/
theorem expand_keeps {I : Nat → Paging → Prop} {first : Nat} (hg : ∀ e ≤ hi, Grows (I e) first e)
    (hmono : ∀ {e e' P}, e ≤ e' → I e P → I e' P) (hhi : hi ≤ 0xE0000000) {w : Nat}
    (hs : Limits lo hi s.toHeap) (hw : w ≤ 0x400008) (hfirst : first ≤ s.endAddress)
    (hI : I s.endAddress s.paging) :
    HeapRuns (s.expand (add32 (sub32 s.endAddress s.startAddress) w) fresh) fun s' =>
      Limits lo hi s'.toHeap ∧ first ≤ s'.endAddress ∧ I s'.endAddress s'.paging := by
  obtain ⟨hstart, hmax, hleast, hmost⟩ := hs
  have hlen : sub32 s.endAddress s.startAddress = s.endAddress - lo := by
    rw [hstart, sub32_eq (by omega) (by omega)]
  have hsize : add32 (s.endAddress - lo) w = s.endAddress - lo + w := add32_eq (by omega)
  -- the rounded size: more than the old one, and no sum wraps
  obtain ⟨n, hn, hlt, hle⟩ : ∃ n, expandSize (s.endAddress - lo + w) = n ∧
      s.endAddress - lo + w ≤ n ∧ n ≤ s.endAddress - lo + w + 4096 := by
    refine ⟨_, rfl, ?_⟩
    unfold expandSize
    rw [pageBits_eq (by omega)]
    split
    · rw [add32_eq (by omega)]
      omega
    · omega
  unfold expand
  rw [hlen, hsize, hn, hstart, hmax]
  refine (assert_runs _ _).bind fun _ _ => ?_
  dsimp only
  refine (assert_runs _ _).bind fun _ hmx => ?_
  have hend : add32 lo n = lo + n := add32_eq (by omega)
  rw [hend, decide_eq_true_iff] at hmx
  refine (lift_runs (expandPages_pages (hg (lo + n) hmx) (by omega) (Nat.le_refl _) _ _ _ (by omega)
    (hmono (by omega) hI))).bind fun P hP => .pure ⟨?_, ?_, hend ▸ hP⟩
  · exact ⟨rfl, rfl, by show lo + _ ≤ add32 lo n; omega, by show add32 lo n ≤ hi; omega⟩
  · show first ≤ add32 lo n
    omega

theorem expand_pages (hg : Grows I lo hi) (hhi : hi ≤ 0xE0000000) {w : Nat}
    (hs : Limits lo hi s.toHeap) (hw : w ≤ 0x400008) (hI : I s.paging) :
    HeapRuns (s.expand (add32 (sub32 s.endAddress s.startAddress) w) fresh) fun s' =>
      Limits lo hi s'.toHeap ∧ I s'.paging := by
  have hleast := hs.least
  exact (expand_keeps (I := fun _ => I) (fun _ he => hg.below (Nat.le_refl lo) he) (fun _ hP => hP)
    hhi hs hw (by omega) hI).mono (fun _ h => ⟨h.1, h.2.2⟩) fun _ h => h

/-- The loop of `Contract`: it frees pages above the new size. -/
theorem contractPages_pages (ht : ∀ {P a}, I P → lo ≤ a → a < hi →
      P.kernelTable (a / 0x1000 / 1024) ≠ 0) {newSize : Nat} (hf : Shrinks I (lo + newSize) hi)
    (hhi : hi ≤ 0xE0000000) (hn : 0x70000 ≤ newSize) :
    ∀ (n i : Nat) (P : Paging), lo + i < hi → I P → Runs (contractPages lo newSize n i P) I
  | 0, _, _, _, _ => .stop (by simp)
  | n + 1, i, P, hi, hP => by
    unfold contractPages
    split
    · have hadd : add32 lo i = lo + i := add32_eq (by omega)
      have hT := ht (a := lo + i) hP (by omega) hi
      rw [hadd, Paging.getPage_kernel hT, ok_bind]
      refine (Paging.freeFrame_runs P _).bind fun P' hP' => ?_
      have hsub : sub32 i 0x1000 = i - 0x1000 := sub32_eq (by omega) (by omega)
      exact contractPages_pages ht hf hhi hn n _ P' (by omega) (hf hP (by omega) hi hP')
    · exact .pure hP

/-- The size `Contract` shrinks a heap to: no more than it was, and at least the smallest. -/
theorem contractSize_bounds {n len : Nat} (hn : n < len) (hlen : 0x70000 ≤ len) :
    0x70000 ≤ contractSize n ∧ contractSize n ≤ len := by
  unfold contractSize
  rw [and_page]
  dsimp only
  split
  · have hbit : n / 4096 % 2 * 4096 = 4096 := by omega
    rw [hbit]
    have hadd : add32 4096 0x1000 = 8192 := by decide
    rw [hadd]
    split <;> omega
  · split <;> omega

/-- **`Contract`** keeps an invariant of the end and the page entries that `FreeFrame` keeps on the
pages from the end on. -/
theorem contract_keeps {I : Nat → Paging → Prop} (ht : ∀ {e P a}, I e P → lo ≤ a → a < hi →
      P.kernelTable (a / 0x1000 / 1024) ≠ 0)
    (hf : ∀ e, lo + 0x70000 ≤ e → Shrinks (I e) e hi)
    (hm : ∀ {e e' P}, e' ≤ e → I e P → I e' P) (hhi : hi ≤ 0xE0000000) {newSize : Nat}
    (hs : Limits lo hi s.toHeap) (hI : I s.endAddress s.paging) :
    HeapRuns (s.contract newSize) fun r =>
      Limits lo hi r.2.toHeap ∧ I r.2.endAddress r.2.paging := by
  obtain ⟨hstart, hmax, hleast, hmost⟩ := hs
  have hlen : sub32 s.endAddress s.startAddress = s.endAddress - lo := by
    rw [hstart, sub32_eq (by omega) (by omega)]
  unfold contract
  rw [hlen, hstart]
  refine (assert_runs _ _).bind fun _ hlt => ?_
  rw [decide_eq_true_iff] at hlt
  dsimp only
  obtain ⟨h1, h2⟩ := contractSize_bounds hlt (by omega)
  have hsub : sub32 (s.endAddress - lo) 0x1000 = s.endAddress - lo - 0x1000 :=
    sub32_eq (by omega) (by omega)
  have hend : add32 lo (contractSize newSize) = lo + contractSize newSize := add32_eq (by omega)
  rw [hsub, hend]
  have hI' : I (lo + contractSize newSize) s.paging := hm (by omega) hI
  refine (lift_runs (contractPages_pages ht (hf _ (by omega)) hhi h1 _ _ _ (by omega) hI')).bind
    fun P hP => .pure ⟨⟨hstart, hmax, ?_, ?_⟩, hP⟩
  · show lo + _ ≤ lo + _
    omega
  · show lo + _ ≤ hi
    omega

theorem contract_pages (hg : Grows I lo hi) (hf : Shrinks I lo hi) (hhi : hi ≤ 0xE0000000)
    {newSize : Nat} (hs : Limits lo hi s.toHeap) (hI : I s.paging) :
    HeapRuns (s.contract newSize) fun r => Limits lo hi r.2.toHeap ∧ I r.2.paging :=
  contract_keeps (I := fun _ => I) (fun hP => hg.table hP)
    (fun _ he _ _ _ hP h1 h2 => hf hP (by omega) h2) (fun _ hP => hP) hhi hs hI

/-! ## Alloc and Free -/

theorem SamePages.limits {s s' : HeapState} (hs : SamePages s s') (h : Limits lo hi s.toHeap) :
    Limits lo hi s'.toHeap := by
  obtain ⟨h1, h2, h3, h4⟩ := h
  refine ⟨hs.startAddress.trans h1, hs.maxAddress.trans h2, ?_, ?_⟩ <;> rwa [hs.endAddress]

/-- **What `Expand` keeps, `Alloc` keeps**, of the pages, the limits and the rights. -/
theorem allocN_keeps {J : HeapState → Prop} {E : Fault → Prop}
    (hE : ∀ e, e.halt ≠ .reentry → E e) (hsame : ∀ {s s'}, SamePages s s' → J s → J s')
    (hexp : ∀ {s w}, J s → w ≤ 0x400008 →
      Meets (s.expand (add32 (sub32 s.endAddress s.startAddress) w) fresh) J E)
    {size : Nat} {pageAlign : Bool} :
    ∀ (rounds : Nat) {s : HeapState}, J s →
      Meets (s.allocN rounds size pageAlign fresh) (fun r => J r.2) E := by
  intro rounds
  induction rounds with
  | zero =>
    intro s hs
    unfold allocN
    refine ((assert_runs _ _).mono (fun _ _ => trivial) hE).bind fun _ _ => ?_
    dsimp only
    split
    · exact (carve_pages _ _ _ _).mono (fun r hr => hsame hr hs) hE
    · exact (lift_runs (.stop (by simp))).mono (fun _ h => h) hE
  | succ rounds ih =>
    intro s hs
    rw [allocN]
    refine ((assert_runs _ _).mono (fun _ h => h) hE).bind fun _ hsize => ?_
    rw [decide_eq_true_iff] at hsize
    dsimp only
    split
    · exact (carve_pages _ _ _ _).mono (fun r hr => hsame hr hs) hE
    · have hw : add32 size 8 = size + 8 := add32_eq (by omega)
      refine Meets.bind (Q := J) ?_ fun s' hs' => ih hs'
      refine (hexp hs (by omega)).bind fun s₁ h₁ => ?_
      exact (addSpace_pages _ _).mono (fun s' hs' => hsame hs' h₁) hE

/-- **`Alloc`** keeps what `AllocFrame` keeps on the pages up to the end. -/
theorem allocN_grows {I : Nat → Paging → Prop} {first : Nat} (hg : ∀ e ≤ hi, Grows (I e) first e)
    (hmono : ∀ {e e' P}, e ≤ e' → I e P → I e' P) (hhi : hi ≤ 0xE0000000) {size : Nat}
    {pageAlign : Bool} (rounds : Nat) {s : HeapState} (hs : Limits lo hi s.toHeap)
    (hfirst : first ≤ s.endAddress) (hI : I s.endAddress s.paging) :
    HeapRuns (s.allocN rounds size pageAlign fresh) fun r =>
      Limits lo hi r.2.toHeap ∧ first ≤ r.2.endAddress ∧ I r.2.endAddress r.2.paging :=
  allocN_keeps (J := fun s => Limits lo hi s.toHeap ∧ first ≤ s.endAddress ∧ I s.endAddress s.paging)
    (fun _ h => h)
    (fun hs h => ⟨hs.limits h.1, hs.endAddress ▸ h.2.1, hs.endAddress ▸ hs.paging ▸ h.2.2⟩)
    (fun h hw => expand_keeps hg hmono hhi h.1 hw h.2.1 h.2.2) rounds ⟨hs, hfirst, hI⟩

/-- **`Alloc`** keeps what `AllocFrame` on the heap's pages keeps. -/
theorem allocN_pages (hg : Grows I lo hi) (hhi : hi ≤ 0xE0000000) {size : Nat} {pageAlign : Bool}
    (rounds : Nat) {s : HeapState} (hs : Limits lo hi s.toHeap) (hI : I s.paging) :
    HeapRuns (s.allocN rounds size pageAlign fresh) fun r =>
      Limits lo hi r.2.toHeap ∧ I r.2.paging :=
  allocN_keeps (J := fun s => Limits lo hi s.toHeap ∧ I s.paging) (fun _ h => h)
    (fun hs h => ⟨hs.limits h.1, hs.paging ▸ h.2⟩)
    (fun h hw => expand_pages hg hhi h.1 hw h.2) rounds ⟨hs, hI⟩

theorem coalesceLeft_pages (header footer : Nat) :
    SamePages s (s.coalesceLeft header footer).1 := by
  unfold coalesceLeft
  dsimp only
  split
  · split
    · exact .of (by simp) (by simp)
    · exact .of (by simp) (by simp)
  · exact .of (by simp) (by simp)

theorem coalesceRight_pages (header footer : Nat) :
    HeapRuns (s.coalesceRight header footer) fun r => SamePages s r.1 := by
  unfold coalesceRight
  dsimp only
  split
  · refine (assert_runs _ _).bind fun _ _ => ?_
    refine (indexRemove_pages _).bind fun s' hs' => .pure (SamePages.trans ?_ hs')
    exact .of (by simp [mergeRight]) (by simp [mergeRight])
  · exact .pure (.of (by simp) (by simp))

theorem coalesce_pages (p : Nat) : HeapRuns (s.coalesce p) fun r => SamePages s r.1 := by
  unfold coalesce
  dsimp only
  refine (assert_runs _ _).bind fun _ _ => (assert_runs _ _).bind fun _ _ =>
    (assert_runs _ _).bind fun _ _ => ?_
  refine (coalesceRight_pages _ _).bind fun r hr => .pure (SamePages.trans ?_ hr)
  exact SamePages.trans (.of (by simp) (by simp)) (coalesceLeft_pages _ _)

section
variable {J : HeapState → Prop} {E : Fault → Prop} (hE : ∀ e, e.halt ≠ .reentry → E e)
  (hsame : ∀ {s s'}, SamePages s s' → J s → J s')
  (hcon : ∀ {s n}, J s → Meets (s.contract n) (fun r => J r.2) E)
include hE hsame hcon

theorem shrink_keeps (header rightHeader : Nat) (hs : J s) :
    Meets (s.shrink header rightHeader) J E := by
  refine (hcon hs).bind fun r hr => ?_
  have hkeep : ∀ s' : HeapState, SamePages r.2 s' → J s' := fun s' hs' => hsame hs' hr
  dsimp only
  split
  · exact .pure (hkeep _ (.of (by simp) (by simp)))
  · split
    · exact (indexRemove_pages _).mono
        (fun s' hs' => hkeep s' (SamePages.trans (.of (by simp) (by simp)) hs')) hE
    · exact .pure (hkeep _ (.of (by simp) (by simp)))

/-- **What `Contract` keeps, `Free` keeps**, of the pages, the limits and the rights. -/
theorem free_keeps (p : Nat) (hs : J s) : Meets (s.free p) J E := by
  unfold free
  split
  · exact .pure hs
  · refine ((coalesce_pages p).mono (fun _ h => h) hE).bind fun r hr => ?_
    have hend : ∀ s' : HeapState, J s' →
        Meets (if r.2.2.2.2 then s'.indexInsert r.2.1 else .ok s') J E := fun s' hs' => by
      split
      · exact (indexInsert_pages _).mono (fun t ht => hsame ht hs') hE
      · exact .pure hs'
    dsimp only
    split
    · exact (shrink_keeps hE hsame hcon _ _ (hsame hr hs)).bind fun s' hs' => hend s' hs'
    · exact hend r.1 (hsame hr hs)

end

/-- **`Free`** keeps what `FreeFrame` on the heap's pages keeps. -/
theorem free_pages (hg : Grows I lo hi) (hf : Shrinks I lo hi) (hhi : hi ≤ 0xE0000000) (p : Nat)
    (hs : Limits lo hi s.toHeap) (hI : I s.paging) :
    HeapRuns (s.free p) fun s' => Limits lo hi s'.toHeap ∧ I s'.paging :=
  free_keeps (J := fun s => Limits lo hi s.toHeap ∧ I s.paging) (fun _ h => h)
    (fun hs h => ⟨hs.limits h.1, hs.paging ▸ h.2⟩)
    (fun h => contract_pages hg hf hhi h.1 h.2) p ⟨hs, hI⟩

end HeapState

end Dmanix
