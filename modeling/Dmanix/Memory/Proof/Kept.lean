import Dmanix.Memory.Proof.Coherent

/-!
# What every change of the paging state keeps

The kernel changes page entries through `AllocFrame`, `FreeFrame`, `Table::Table` and the copied bits
of `Table::Clone` only. An invariant of the paging state that these keep (`ChangeKeeps`) is kept by every
call of the kernel (`perform_kept`); `memory::Initialize` frees nothing and keeps what the others keep
(`BuildKeeps`, `memoryInitialize_kept`). What `AllocFrame` keeps of the pages of `kernel_directory`,
`kalloc` keeps (`allocInternal_each`); so a new table changes little (`makeTable_cases`).
-/

namespace Dmanix

open Word32 Bytes Outcome Machine

/-- `AllocFrame` keeps `I`. -/
def AllocKeeps (I : Paging → Prop) : Prop :=
  ∀ (P P' : Paging) (q : PagePtr) (k w : Bool), I P → P.allocFrame q k w = .ok P' → I P'

/-- `AllocFrame` of a page of `kernel_directory` keeps `I`. -/
def KernelAllocKeeps (I : Paging → Prop) : Prop :=
  ∀ (P P' : Paging) (q : PagePtr) (k w : Bool), I P → (∃ i < 1024, P.kernelTable i = q.table) →
    P.allocFrame q k w = .ok P' → I P'

theorem AllocKeeps.kernel {I : Paging → Prop} (h : AllocKeeps I) : KernelAllocKeeps I :=
  fun P P' q k w hI _ => h P P' q k w hI

/-- `FreeFrame` keeps `I`. -/
def FreeKeeps (I : Paging → Prop) : Prop :=
  ∀ (P P' : Paging) (q : PagePtr), I P → P.freeFrame q = .ok P' → I P'

/-- What changes the paging state without giving a frame back keeps `I`: `AllocFrame`, a new table, a
page that has been given a frame and whose bits are copied, and what is no page entry. -/
structure BuildKeeps (I : Paging → Prop) : Prop where
  alloc : AllocKeeps I
  table : ∀ (P : Paging) (t : Nat), I P →
    I { P with tables := Function.update P.tables t fun _ => Page.zero }
  entry : ∀ (P P' : Paging) (q : PagePtr) (k w : Bool) (v : Page), I P → P.allocFrame q k w = .ok P' →
    v.frame = (P'.page q).frame → I (P'.setPage q v)
  rest : ∀ P P' : Paging, I P → P'.frames = P.frames → P'.tables = P.tables → I P'

/-- Whatever changes the paging state keeps `I`. -/
structure ChangeKeeps (I : Paging → Prop) : Prop extends BuildKeeps I where
  free : FreeKeeps I

/-! ## The heap -/

namespace HeapState

variable {I : Paging → Prop} {s : HeapState} {fresh : Mem}

theorem expandPages_each (hI : KernelAllocKeeps I) {start newSize : Nat} {supervisor readonly : Bool} :
    ∀ (n i : Nat) (P : Paging), I P →
      Meets (expandPages start newSize supervisor readonly n i P) I fun _ => True
  | 0, _, _, _ => .stop trivial
  | n + 1, i, P, hP => by
    unfold expandPages
    split
    · refine Meets.bind (Q := fun q => ∃ i < 1024, P.kernelTable i = q.table)
        (.intro fun q hq => ?_) fun q hq => ?_
      · have hlt := add32_lt start i
        unfold Paging.getPage at hq
        dsimp only at hq
        split at hq
        · cases hq
        · cases hq
          exact ⟨add32 start i / 0x1000 / 1024, by omega, rfl⟩
      · refine Meets.bind (Q := I) (.intro fun P' hP' => hI _ _ _ _ _ hP hq hP') fun P' hP' => ?_
        exact expandPages_each hI n _ P' hP'
    · exact .pure hP

theorem expand_each (hI : KernelAllocKeeps I) {newSize : Nat} (hs : I s.paging) :
    Meets (s.expand newSize fresh) (fun s' => I s'.paging) fun _ => True := by
  refine .intro fun s' hs' => ?_
  obtain ⟨_, -, hs'⟩ := bind_ok.1 hs'
  obtain ⟨_, -, hs'⟩ := bind_ok.1 hs'
  obtain ⟨P, hP, hs'⟩ := bind_ok.1 hs'
  cases hs'
  exact (expandPages_each hI _ _ _ hs).ok (HeapState.lift_ok.1 hP)

theorem contractPages_each (hI : FreeKeeps I) {start newSize : Nat} : ∀ (n i : Nat) (P : Paging),
    I P → Meets (contractPages start newSize n i P) I fun _ => True
  | 0, _, _, _ => .stop trivial
  | n + 1, i, P, hP => by
    unfold contractPages
    split
    · refine Meets.bind (Q := fun _ => True) (.intro fun _ _ => trivial) fun q _ => ?_
      refine Meets.bind (Q := I) (.intro fun P' hP' => hI _ _ _ hP hP') fun P' hP' => ?_
      exact contractPages_each hI n _ P' hP'
    · exact .pure hP

theorem contract_each (hI : FreeKeeps I) {newSize : Nat} (hs : I s.paging) :
    Meets (s.contract newSize) (fun r => I r.2.paging) fun _ => True := by
  refine .intro fun r hr => ?_
  obtain ⟨_, -, hr⟩ := bind_ok.1 hr
  obtain ⟨P, hP, hr⟩ := bind_ok.1 hr
  cases hr
  exact (contractPages_each hI _ _ _ hs).ok (HeapState.lift_ok.1 hP)

/-- **`Alloc`** keeps what `AllocFrame` keeps. -/
theorem allocN_each (hI : KernelAllocKeeps I) {rounds size : Nat} {pageAlign : Bool} (hs : I s.paging) :
    Meets (s.allocN rounds size pageAlign fresh) (fun r => I r.2.paging) fun _ => True :=
  allocN_keeps (J := fun s => I s.paging) (fun _ _ => trivial) (fun hs h => hs.paging ▸ h)
    (fun h _ => expand_each hI h) rounds hs

/-- **`Free`** keeps what `FreeFrame` keeps. -/
theorem free_each (hI : FreeKeeps I) {p : Nat} (hs : I s.paging) :
    Meets (s.free p) (fun s' => I s'.paging) fun _ => True :=
  free_keeps (J := fun s => I s.paging) (fun _ _ => trivial) (fun hs h => hs.paging ▸ h)
    (fun h => contract_each hI h) p hs

end HeapState

/-! ## The machine -/

namespace Machine

variable {σ : Type} {I : Paging → Prop}
  {kallocPa : Nat → Machine σ → Except Halt (Nat × Nat × Machine σ)}

/-- `kalloc_pa` keeps `I`. -/
def AllocatorKeeps (I : Paging → Prop)
    (kallocPa : Nat → Machine σ → Except Halt (Nat × Nat × Machine σ)) : Prop :=
  ∀ (n : Nat) (M : Machine σ), I M.paging →
    Meets (kallocPa n M) (fun r => I r.2.2.paging) fun _ => True

section
variable (hI : BuildKeeps I) (hk : AllocatorKeeps I kallocPa)
include hI hk

theorem makeTable_kept {dir i : Nat} {M : Machine σ} (hM : I M.paging) :
    Meets (makeTable kallocPa dir i M) (fun M' => I M'.paging) fun _ => True := by
  unfold makeTable
  split
  · exact (hk _ _ hM).bind fun r hr => .pure (hI.rest _ _ (hI.table _ r.1 hr) rfl rfl)
  · exact .pure hM

theorem allocPage_kept {dir a : Nat} {w : Bool} {M : Machine σ} (hM : I M.paging) :
    Meets (allocPage kallocPa dir w a M) (fun M' => I M'.paging) fun _ => True := by
  refine Meets.bind (Q := fun r => I r.2.paging) ?_ fun r hr => ?_
  · refine (makeTable_kept hI hk hM).bind fun M₁ h₁ => ?_
    exact Meets.bind (Q := fun _ => True) (.intro fun _ _ => trivial) fun _ _ => .pure h₁
  · exact Meets.bind (Q := I) (.intro fun P' hP' => hI.alloc _ _ _ _ _ hr hP') fun P' hP' =>
      .pure hP'

theorem pageLoop_kept {test : Nat → Machine σ → Bool} {next : Nat → Nat} {dir : Machine σ → Nat}
    {w : Bool} {rounds first : Nat} {M : Machine σ} (hM : I M.paging) :
    Meets (loop .hang test next (fun i M => allocPage kallocPa (dir M) w i M) rounds first M)
      (fun M' => I M'.paging) fun _ => True :=
  (loop_meets (I := fun _ M => I M.paging) trivial
    (fun _ _ h _ => allocPage_kept hI hk h) rounds first M hM).imp fun _ ⟨_, h, _⟩ => h

omit hk in
theorem cloneEntry_kept {src dst i : Nat} {M : Machine σ} (hM : I M.paging) :
    Meets (cloneEntry src dst i M) (fun M' => I M'.paging) fun _ => True := by
  unfold cloneEntry
  dsimp only
  split
  · exact .pure hM
  · refine Meets.bind (Q := fun P => M.paging.allocFrame ⟨dst, i⟩ false false = .ok P)
      (.intro fun P hP => hP) fun P hP => ?_
    exact .pure (hI.rest _ _ (hI.entry _ P ⟨dst, i⟩ _ _ { M.paging.page ⟨src, i⟩ with
      frame := (P.page ⟨dst, i⟩).frame } hM hP rfl) rfl rfl)

theorem tableClone_kept {src : Nat} {M : Machine σ} (hM : I M.paging) :
    Meets (tableClone kallocPa src M) (fun r => I r.2.2.paging) fun _ => True := by
  refine (hk _ _ hM).bind fun r hr => ?_
  exact (upTo_meets (I := fun _ M => I M.paging) (hI.table _ r.1 hr) fun _ _ _ h =>
    cloneEntry_kept hI h).bind fun _ h => .pure h

theorem clone_kept {src : Nat} {M : Machine σ} (hM : I M.paging) :
    Meets (clone kallocPa src M) (fun r => I r.2.paging) fun _ => True := by
  refine (hk _ _ hM).bind fun r hr => ?_
  refine (upTo_meets (I := fun _ M => I M.paging) (hI.rest _ _ hr rfl rfl) fun i M _ h => ?_).bind
    fun _ h => .pure h
  unfold cloneTable
  dsimp only
  split
  · exact .pure h
  · split
    · exact .pure (hI.rest _ _ h rfl rfl)
    · exact (tableClone_kept hI hk h).bind fun _ h => .pure (hI.rest _ _ h rfl rfl)

end

section
variable {M : Machine σ} {P : Paging} (hs : Paging.SameTables M.paging P)
include hs

theorem slot_withPaging (d j : Nat) : (M.withPaging P).slot d j = M.slot d j := by
  show (P.directories d).tables j = _
  rw [hs.directories]
  rfl

theorem currentSlot_withPaging (j : Nat) : (M.withPaging P).currentSlot j = M.currentSlot j := by
  rw [currentSlot, slot_withPaging hs]
  show M.slot P.currentDirectory j = _
  rw [hs.current]
  rfl

theorem kernelSlot_withPaging (j : Nat) : (M.withPaging P).kernelSlot j = M.kernelSlot j := by
  rw [kernelSlot, slot_withPaging hs]
  show M.slot P.kernelDirectory j = _
  rw [hs.kernel]
  rfl

theorem currentPage_withPaging (n : Nat) : (M.withPaging P).currentPage n = M.currentPage n := by
  rw [currentPage, currentSlot_withPaging hs]
  rfl

end

end Machine

/-! ## The kernel -/

namespace Kernel

variable {I : Paging → Prop} {M : Kernel} {rounds : Nat} {fresh : Mem}

theorem halted_meets {α : Type} {x : Except Fault α} {Q : α → Prop}
    (h : Meets x Q fun _ => True) : Meets (halted x) Q fun _ => True :=
  .intro fun _ ha => h.ok (halted_ok.1 ha)

/-- **`alloc_internal`** keeps what `AllocFrame` keeps. -/
theorem allocInternal_each (hI : KernelAllocKeeps I) {name : HeapName} {size : Nat} {pageAlign phys : Bool}
    (hM : I M.paging) : Meets (allocInternal rounds fresh name size pageAlign phys M)
      (fun r => I r.2.2.paging) fun _ => True := by
  unfold allocInternal
  split
  · rename_i h _
    refine (halted_meets (HeapState.allocN_each hI (s := M.heapState h) hM)).bind fun r hr => ?_
    cases phys with
    | false => exact .pure hr
    | true => exact Meets.bind (Q := fun _ => True) (.intro fun _ _ => trivial) fun _ _ => .pure hr
  · exact .pure hM

theorem kallocPa_each (hI : KernelAllocKeeps I) : AllocatorKeeps I (kallocPa rounds fresh) :=
  fun _ _ hM => allocInternal_each hI hM

/-! ## What a new table changes -/

section
variable {n p phys : Nat} {M₁ : Kernel}

theorem kallocPa_same (h : kallocPa rounds fresh n M = .ok (p, phys, M₁)) :
    Paging.SameTables M.paging M₁.paging :=
  (kallocPa_each (I := Paging.SameTables M.paging)
    (fun _ _ _ _ _ hP _ ha => hP.trans (Paging.allocFrame_same ha)) n M (.refl _)).ok h

theorem kallocPa_live {size : Nat} (h : kallocPa rounds fresh size M = .ok (p, phys, M₁)) :
    M₁.liveDirectories = M.liveDirectories := by
  unfold kallocPa allocInternal at h
  split at h
  · obtain ⟨r, -, h⟩ := bind_ok.1 h
    obtain ⟨q, -, h⟩ := bind_ok.1 h
    cases h
    rfl
  · cases h
    rfl

/-- `kalloc_pa` keeps a page with a frame. -/
theorem kallocPa_framed {q : PagePtr} (h : kallocPa rounds fresh n M = .ok (p, phys, M₁))
    (hq : (M.paging.page q).frame ≠ 0) : M₁.paging.page q = M.paging.page q := by
  refine (kallocPa_each (I := fun P => P.page q = M.paging.page q)
    (fun P P' r k w hP _ ha => ?_) n M rfl).ok h
  by_cases hr : q = r
  · subst hr
    rcases Paging.allocFrame_cases ha with ⟨-, rfl⟩ | ⟨h0, -⟩
    · exact hP
    · rw [hP] at h0
      exact absurd h0 hq
  · exact (Paging.allocFrame_page ha hr).trans hP

/-- `kalloc_pa` keeps a page of a table that is not the kernel's. -/
theorem kallocPa_other {q : PagePtr} (h : kallocPa rounds fresh n M = .ok (p, phys, M₁))
    (hq : ∀ i < 1024, M.kernelSlot i ≠ q.table) : M₁.paging.page q = M.paging.page q := by
  refine ((kallocPa_each (I := fun P => Paging.SameTables M.paging P ∧
    P.page q = M.paging.page q) (fun P P' r k w ⟨hs, hP⟩ ⟨i, hi, hr⟩ ha => ?_) n M
      ⟨.refl _, rfl⟩).ok h).2
  refine ⟨hs.trans (Paging.allocFrame_same ha), ?_⟩
  rw [Paging.allocFrame_page ha fun hqr => hq i hi ?_, hP]
  rw [hqr, ← hr, hs.kernelTable]
  rfl

/-- `kalloc_pa` keeps a page, and one with a frame is present if it was so before. -/
theorem kallocPa_sound {q : PagePtr} (h : kallocPa rounds fresh n M = .ok (p, phys, M₁)) :
    ((M.paging.page q).present = true → (M₁.paging.page q).present = true) ∧
      ((M.paging.page q).Sound → (M₁.paging.page q).Sound) := by
  have hk : ∀ {I : Page → Prop}, (∀ (v : Page) w u f,
      I { v with present := true, rw := w, user := u, frame := f }) →
      I (M.paging.page q) → I (M₁.paging.page q) := fun {I} hI hM =>
    (kallocPa_each (I := fun P => I (P.page q)) (fun P P' r k w hP _ ha => by
      rcases Paging.allocFrame_cases ha with ⟨-, rfl⟩ | ⟨-, f, b, -, -, rfl⟩
      · exact hP
      · by_cases hr : q = r
        · subst hr
          rw [Paging.page_setPage_self]
          exact hI _ _ _ _
        · rw [Paging.page_setPage_ne _ hr]
          exact hP) n M hM).ok h
  exact ⟨hk (I := fun v => v.present = true) fun _ _ _ _ => rfl,
    hk (I := Page.Sound) fun _ _ _ _ _ => rfl⟩

theorem makeTable_eq {dir i : Nat} {u : Kernel} (h0 : M.slot dir i = 0)
    (ha : kallocPa rounds fresh sizeofTable M = .ok (p, phys, M₁))
    (h : makeTable (kallocPa rounds fresh) dir i M = .ok u) :
    u = (M₁.newTable p).withPaging ((M₁.newTable p).paging.setTable dir i p (phys ||| 7)) := by
  unfold makeTable at h
  rw [if_pos (show (M.paging.directories dir).tables i = 0 from h0), ha] at h
  cases h
  rfl

/-- The entries of the other tables are those that `kalloc_pa` leaves. -/
theorem makeTable_page {dir i : Nat} {u : Kernel} {q : PagePtr} (h0 : M.slot dir i = 0)
    (ha : kallocPa rounds fresh sizeofTable M = .ok (p, phys, M₁))
    (h : makeTable (kallocPa rounds fresh) dir i M = .ok u) (hq : q.table ≠ p) :
    u.paging.page q = M₁.paging.page q := by
  rw [makeTable_eq h0 ha h]
  show Function.update M₁.paging.tables p (fun _ => Page.zero) q.table q.entry = _
  rw [Function.update_of_ne hq]
  rfl

/-- What `GetPage` changes where it makes the table `p` for slot `i` of the directory at `dir`. -/
structure MadeTable (M : Kernel) (dir i p : Nat) (u : Kernel) : Prop where
  slots : ∀ d j, u.slot d j = if d = dir ∧ j = i then p else M.slot d j
  kernel : u.paging.kernelDirectory = M.paging.kernelDirectory
  current : u.paging.currentDirectory = M.paging.currentDirectory
  zero : ∀ e, u.paging.page ⟨p, e⟩ = Page.zero
  framed : ∀ q : PagePtr, q.table ≠ p → (M.paging.page q).frame ≠ 0 →
    u.paging.page q = M.paging.page q
  other : ∀ q : PagePtr, q.table ≠ p → (∀ j < 1024, M.kernelSlot j ≠ q.table) →
    u.paging.page q = M.paging.page q
  present : ∀ q : PagePtr, q.table ≠ p →
    ((M.paging.page q).present = true → (u.paging.page q).present = true) ∧
      ((M.paging.page q).Sound → (u.paging.page q).Sound)

/-- **`GetPage`, "if (tables[table_index] == NULL && make)"**, on any directory. -/
theorem makeTable_cases {dir i : Nat} {u : Kernel}
    (h : makeTable (kallocPa rounds fresh) dir i M = .ok u) :
    M.slot dir i ≠ 0 ∧ u = M ∨
    M.slot dir i = 0 ∧ ∃ p phys M₁, kallocPa rounds fresh sizeofTable M = .ok (p, phys, M₁) ∧
      MadeTable M dir i p u := by
  by_cases h0 : M.slot dir i = 0
  · obtain ⟨⟨p, phys, M₁⟩, ha⟩ : ∃ r, kallocPa rounds fresh sizeofTable M = .ok r := by
      unfold makeTable at h
      rw [if_pos (show (M.paging.directories dir).tables i = 0 from h0)] at h
      obtain ⟨r, ha, -⟩ := bind_ok.1 h
      exact ⟨r, ha⟩
    have hs := kallocPa_same ha
    have hpage {q : PagePtr} (hq : q.table ≠ p) := makeTable_page h0 ha h hq
    refine .inr ⟨h0, p, phys, M₁, ha, ?_, ?_, ?_, ?_,
      fun q hq hf => (hpage hq).trans (kallocPa_framed ha hf),
      fun q hq hk => (hpage hq).trans (kallocPa_other ha hk),
      fun q hq => by
        rw [hpage hq]
        exact kallocPa_sound ha⟩
    all_goals rw [makeTable_eq h0 ha h]
    · intro d j
      rw [slot_setTable]
      have : (M₁.newTable p).slot d j = M.slot d j := by
        show (M₁.paging.directories d).tables j = _
        rw [hs.directories]
        rfl
      rw [this]
    · exact hs.kernel
    · exact hs.current
    · intro e
      show Function.update M₁.paging.tables p (fun _ => Page.zero) p e = _
      rw [Function.update_self]
  · unfold makeTable at h
    rw [if_neg (show (M.paging.directories dir).tables i ≠ 0 from h0)] at h
    cases h
    exact .inl ⟨h0, rfl⟩

end

/-- **`free_internal`** keeps what `FreeFrame` keeps. -/
theorem freeInternal_each (hI : FreeKeeps I) {name : HeapName} {p : Nat} (hM : I M.paging) :
    Meets (freeInternal name p M) (fun M' => I M'.paging) fun _ => True := by
  unfold freeInternal
  split
  · rename_i h _
    split
    · exact (halted_meets (HeapState.free_each hI (s := M.heapState h) hM)).bind fun _ hs => .pure hs
    · exact .pure hM
  · exact .pure hM

/-- **Every call of the kernel** keeps what the changes of the paging state keep. -/
theorem perform_kept (hI : ChangeKeeps I) {p : Performed} (hM : I M.paging) :
    Meets (perform p.rounds p.fresh p.call M) (fun M' => I M'.paging) fun _ => True := by
  obtain ⟨rounds, fresh, c⟩ := p
  have hk : AllocatorKeeps I (kallocPa rounds fresh) := kallocPa_each hI.alloc.kernel
  cases c with
  | clone src => exact (clone_kept hI.toBuildKeeps hk hM).bind fun _ h => .pure h
  | allocateRange address size => exact pageLoop_kept hI.toBuildKeeps hk hM
  | moveStack newStack size => exact pageLoop_kept hI.toBuildKeeps hk hM
  | alloc name size pageAlign => exact (allocInternal_each hI.alloc.kernel hM).bind fun _ h => .pure h
  | free name p => exact freeInternal_each hI.free hM
  | switch dir => exact .pure (hI.rest _ _ hM rfl rfl)

theorem createHeap_kept (hI : BuildKeeps I) {name : HeapName} {start endAddr max : Nat} (hM : I M.paging) :
    Meets (createHeap rounds fresh name start endAddr max M) (fun M' => I M'.paging)
      fun _ => True := by
  refine (allocInternal_each hI.alloc.kernel hM).bind fun r hr => ?_
  refine Meets.bind (Q := fun s => s.paging = r.2.2.paging) (.intro fun s hs => ?_) fun s hs => ?_
  · obtain ⟨_, -, hs⟩ := bind_ok.1 (halted_ok.1 hs)
    obtain ⟨_, -, hs⟩ := bind_ok.1 hs
    exact ((HeapState.indexInsert_pages _).ok hs).paging.trans rfl
  · refine .pure ?_
    show I s.paging
    rw [hs]
    exact hr

/-- **`memory::Initialize`**, from the paging state with the new frame bit set on. -/
theorem memoryInitialize_kept (hI : BuildKeeps I) {memEnd : Nat} (hn : NoHeap M)
    (hM : I { M.paging with frames := .create (numFrames memEnd) }) :
    Meets (memoryInitialize rounds fresh memEnd M) (fun M' => I M'.paging) fun _ => True := by
  have hk : AllocatorKeeps I (kallocPa rounds fresh) := kallocPa_each hI.alloc.kernel
  have hpages : ∀ {w : Bool} {test : Nat → Kernel → Bool} {first : Nat} {M : Kernel}, I M.paging →
      Meets (loop .hang test (add32 · 0x1000) (allocKernelPage rounds fresh w) pageRounds first M)
        (fun M' => I M'.paging) fun _ => True := fun h => pageLoop_kept hI hk h
  have hmap : ∀ {first last : Nat} {M : Kernel}, I M.paging →
      Meets (mapPages rounds fresh first last M) (fun M' => I M'.paging) fun _ => True := by
    intro first last M h
    refine (loop_meets (I := fun _ M => I M.paging) trivial (fun i M h _ => ?_) pageRounds first M
      h).imp fun _ ⟨_, h, _⟩ => h
    refine Meets.bind (Q := fun r => I r.2.paging) ?_ fun r hr => .pure hr
    refine (makeTable_kept hI hk h).bind fun M₁ h₁ => ?_
    exact Meets.bind (Q := fun _ => True) (.intro fun _ _ => trivial) fun _ _ => .pure h₁
  refine Meets.bind (Q := fun M' => I M'.paging) ?_ fun M₁ h₁ => ?_
  · unfold bootstrap
    dsimp only
    refine Meets.bind (Q := fun M' => I M'.paging) ?_ fun M₁ h₁ => ?_
    · unfold newFrames kalloc
      rw [allocInternal_noHeap hn, ok_bind]
      dsimp only
      rw [allocInternal_noHeap (show NoHeap (M.bump sizeofBitset false).2 from hn), ok_bind]
      exact .pure hM
    · refine Meets.bind (Q := fun M' => I M'.paging) ?_ fun M₂ h₂ => ?_
      · exact (allocInternal_each hI.alloc.kernel h₁).bind fun r hr => .pure (hI.rest _ _ hr rfl rfl)
      · refine (hmap h₂).bind fun M₃ h₃ => (hmap h₃).bind fun M₄ h₄ => ?_
        exact (hpages h₄).bind fun M₅ h₅ => (hpages h₅).bind fun M₆ h₆ => hpages h₆
  · have h₁' : I (switchPageDirectory M₁.paging.kernelDirectory M₁).paging :=
      hI.rest _ _ h₁ rfl rfl
    unfold createHeaps
    dsimp only
    refine (createHeap_kept hI h₁').bind fun M₂ h₂ => ?_
    refine (createHeap_kept hI h₂).bind fun M₃ h₃ => ?_
    exact (clone_kept hI hk h₃).bind fun _ h => .pure (hI.rest _ _ h rfl rfl)

end Kernel

end Dmanix
