import Dmanix.Memory.Proof.Collision

/-!
# The rights of heap pages

`HeapRights M name`: every page of the heap `name` is writable exactly when the heap is not
`readonly`, and open to user code exactly when it is not `supervisor`. `AllocFrame` takes
`is_writeable` where `Expand` passes `readonly`, and `memory::Initialize` maps the kernel heap's
first pages read-only; so the kernel heap's pages never carry its rights, and the user heap's do as
long as it does not grow: `heap_rights`.
-/

namespace Dmanix

open Word32 Bytes Outcome Machine Paging Tiling

/-! ## The rights of a heap object -/

namespace HeapState

/-- The rights the heap was created with. -/
structure Rights (k w : Bool) (s : HeapState) : Prop where
  supervisor : s.supervisor = k
  readonly : s.readonly = w

variable {s : HeapState} {k w : Bool}

theorem SamePages.rights {s' : HeapState} (hs : SamePages s s') (h : Rights k w s) :
    Rights k w s' :=
  ⟨hs.supervisor.trans h.supervisor, hs.readonly.trans h.readonly⟩

theorem expand_rights {n : Nat} {fresh : Mem} (h : Rights k w s) :
    Meets (s.expand n fresh) (Rights k w) fun _ => True := by
  refine .intro fun s' hs' => ?_
  obtain ⟨_, -, hs'⟩ := bind_ok.1 hs'
  obtain ⟨_, -, hs'⟩ := bind_ok.1 hs'
  obtain ⟨P, -, hs'⟩ := bind_ok.1 hs'
  cases hs'
  exact ⟨h.supervisor, h.readonly⟩

theorem contract_rights {n : Nat} (h : Rights k w s) :
    Meets (s.contract n) (fun r => Rights k w r.2) fun _ => True := by
  refine .intro fun r hr => ?_
  obtain ⟨_, -, hr⟩ := bind_ok.1 hr
  obtain ⟨P, -, hr⟩ := bind_ok.1 hr
  cases hr
  exact ⟨h.supervisor, h.readonly⟩

theorem allocN_rights {rounds size : Nat} {pageAlign : Bool} {fresh : Mem} {r : Nat × HeapState}
    (h : Rights k w s) (hr : s.allocN rounds size pageAlign fresh = .ok r) : Rights k w r.2 :=
  (allocN_keeps (E := fun _ => True) (fun _ _ => trivial) (fun hs h => SamePages.rights hs h)
    (fun h _ => expand_rights h) rounds h).ok hr

theorem free_rights {p : Nat} {s' : HeapState} (h : Rights k w s) (hs : s.free p = .ok s') :
    Rights k w s' :=
  (free_keeps (E := fun _ => True) (fun _ _ => trivial) (fun hs h => SamePages.rights hs h)
    (fun h => contract_rights h) p h).ok hs

/-- **`Heap::Create`** sets them. -/
theorem create_rights {start endAddr max : Nat} {mem : Mem} {P : Paging}
    (h : Heap.create start endAddr max k w mem P = .ok s) : Rights k w s := by
  obtain ⟨_, -, h⟩ := bind_ok.1 h
  obtain ⟨_, -, h⟩ := bind_ok.1 h
  exact SamePages.rights ((indexInsert_pages _).ok h) ⟨by simp, by simp⟩

end HeapState

namespace Kernel

/-! ## What a call does -/

variable {M M' : Kernel} {rounds size p : Nat} {fresh : Mem} {name : HeapName} {pageAlign : Bool}

theorem perform_alloc {h : Heap} (hg : M.allocator.heap name = some h)
    (hp : perform rounds fresh (.alloc name size pageAlign) M = .ok M') :
    ∃ r, (M.heapState h).allocN rounds size pageAlign fresh = .ok r ∧
      M' = M.putHeap name r.2 := by
  obtain ⟨⟨a, b, M₁⟩, h₁, hp⟩ := bind_ok.1 hp
  cases hp
  unfold allocInternal at h₁
  rw [hg] at h₁
  obtain ⟨r, hr, h₁⟩ := bind_ok.1 h₁
  obtain ⟨_, -, h₁⟩ := bind_ok.1 h₁
  cases h₁
  exact ⟨r, halted_ok.1 hr, rfl⟩

/-- `Free` of the heap `name`, which ignores addresses outside it. -/
theorem perform_free {h : Heap} (hg : M.allocator.heap name = some h)
    (hp : perform rounds fresh (.free name p) M = .ok M') :
    M' = M ∨ ∃ s, (M.heapState h).free p = .ok s ∧ M' = M.putHeap name s := by
  replace hp : freeInternal name p M = .ok M' := hp
  unfold freeInternal at hp
  rw [hg] at hp
  dsimp only at hp
  split at hp
  · obtain ⟨s, hs, hp⟩ := bind_ok.1 hp
    cases hp
    exact .inr ⟨s, halted_ok.1 hs, rfl⟩
  · cases hp
    exact .inl rfl

/-- Both heaps were created with `supervisor = false` and `readonly = false`. -/
def CreatedOpen (A : Kalloc) : Prop :=
  ∀ name h, A.heap name = some h → h.supervisor = false ∧ h.readonly = false

theorem CreatedOpen.put {s : HeapState} (h : CreatedOpen M.allocator)
    (hs : HeapState.Rights false false s) : CreatedOpen (M.putHeap name s).allocator := by
  intro n g hg
  by_cases hn : n = name
  · subst hn
    cases (if_pos rfl).symm.trans hg
    exact ⟨hs.supervisor, hs.readonly⟩
  · exact h n g ((if_neg hn).symm.trans hg)

theorem allocInternal_open {phys : Bool} (h : CreatedOpen M.allocator) :
    Meets (allocInternal rounds fresh name size pageAlign phys M)
      (fun r => CreatedOpen r.2.2.allocator) fun _ => True := by
  unfold allocInternal
  cases hg : M.allocator.heap name with
  | none => exact .pure h
  | some g =>
    obtain ⟨h1, h2⟩ := h name g hg
    refine Meets.bind (Q := fun r => HeapState.Rights false false r.2) (.intro fun r hr =>
      HeapState.allocN_rights ⟨h1, h2⟩ (halted_ok.1 hr)) fun r hr => ?_
    cases phys with
    | false => exact .pure (h.put hr)
    | true =>
      exact Meets.bind (Q := fun _ => True) (.intro fun _ _ => trivial) fun _ _ =>
        .pure (h.put hr)

theorem createHeap_open {start endAddr max : Nat} (h : CreatedOpen M.allocator)
    (hc : createHeap rounds fresh name start endAddr max M = .ok M') :
    CreatedOpen M'.allocator := by
  obtain ⟨⟨_, _, M₁⟩, h₁, hc⟩ := bind_ok.1 hc
  obtain ⟨s, hs, hc⟩ := bind_ok.1 hc
  cases hc
  exact ((allocInternal_open h).ok h₁).put (HeapState.create_rights (halted_ok.1 hs))

/-- **`memory::Initialize`** creates both heaps so. -/
theorem memoryInitialize_open {memEnd : Nat} (h : Start M)
    (hok : memoryInitialize rounds fresh memEnd M = .ok M') : CreatedOpen M'.allocator := by
  obtain ⟨M₁, h₁, h₂⟩ := bind_ok.1 hok
  obtain ⟨hn, -, -⟩ := (bootstrap_boots (G := False) (S := True) (B := 0) h
    (Nat.zero_le _) False.elim fun _ _ => trivial).ok h₁
  have hnone : CreatedOpen (switchPageDirectory M₁.paging.kernelDirectory M₁).allocator :=
    fun name g hg => by
      cases (hn name).symm.trans hg
  obtain ⟨M₂, h₃, h₂⟩ := bind_ok.1 h₂
  obtain ⟨M₃, h₄, h₂⟩ := bind_ok.1 h₂
  obtain ⟨⟨dir, M₄⟩, h₅, h₂⟩ := bind_ok.1 h₂
  cases h₂
  have hk : ∀ {n : Nat} {M : Kernel}, CreatedOpen M.allocator →
      Meets (kallocPa rounds fresh n M) (fun r => CreatedOpen r.2.2.allocator) fun _ => True :=
    fun hI => allocInternal_open hI
  show CreatedOpen M₄.allocator
  exact clone_allocator hk h₅ (createHeap_open (createHeap_open hnone h₃) h₄)

/-! ## The page entries -/

/-- Page `v` is writable and open to user code. -/
structure Opened (P : Paging) (v : Nat) : Prop where
  rw : (P.page (P.pageAt v)).rw = true
  user : (P.page (P.pageAt v)).user = true

/-- The tables of `kernel_directory` are those of `P₀`, and the first page of the kernel heap is not
writable. -/
structure ReadOnlyFirst (P₀ P : Paging) : Prop where
  same : SameTables P₀ P
  first : P.Granted 0xC0081 false

/-- The same, and the first pages of the user heap are writable. -/
structure WritableFirst (P₀ P : Paging) : Prop extends ReadOnlyFirst P₀ P where
  user : ∀ v, 0xD0081 ≤ v → v < 0xD0400 → Opened P v

/-- The heap pages have tables in `kernel_directory`, and entries of their own. -/
structure TablesApart (P : Paging) : Prop where
  held : ∀ s, HeapSlot s → P.kernelTable s ≠ 0
  apart : ∀ u v, u < 0x100000 → v < 0x100000 → P.kernelTable (v / 1024) ≠ 0 →
    P.pageAt u = P.pageAt v → u = v

section
variable {P₀ P P' : Paging} {u v a : Nat} {q : PagePtr} {k w : Bool}

theorem TablesApart.ne (h : TablesApart P₀) (hs : SameTables P₀ P) (hu : 0xC0000 ≤ u)
    (hu' : u < 0xE0000) (hv : 0xC0000 ≤ v) (hv' : v < 0xE0000) (hne : u ≠ v) :
    P.pageAt u ≠ P.pageAt v := by
  rw [hs.pageAt, hs.pageAt]
  exact fun he => hne (h.apart u v (by omega) (by omega) (h.held _ ⟨by omega, by omega⟩) he)

theorem Opened.alloc (h : Opened P v) (hq : P.pageAt v ≠ q) (ha : P.allocFrame q k w = .ok P') :
    Opened P' v := by
  have he : P'.page (P'.pageAt v) = P.page (P.pageAt v) := by
    rw [(allocFrame_same ha).pageAt, allocFrame_page ha hq]
  exact ⟨by rw [he]; exact h.rw, by rw [he]; exact h.user⟩

theorem Opened.free (h : Opened P v) (hf : P.freeFrame q = .ok P') : Opened P' v := by
  obtain ⟨h1, h2⟩ := h
  have hs := (freeFrame_same hf).pageAt v
  by_cases hq : P.pageAt v = q
  · rcases freeFrame_cases hf with ⟨-, rfl⟩ | ⟨-, b, -, rfl⟩
    · exact ⟨h1, h2⟩
    · subst hq
      refine ⟨?_, ?_⟩
      · rw [hs, page_setPage_self]
        exact h1
      · rw [hs, page_setPage_self]
        exact h2
  · refine ⟨?_, ?_⟩
    · rw [hs, freeFrame_page hf hq]
      exact h1
    · rw [hs, freeFrame_page hf hq]
      exact h2

theorem ReadOnlyFirst.alloc (h : ReadOnlyFirst P₀ P) (ha : P.allocFrame q k w = .ok P') :
    ReadOnlyFirst P₀ P' :=
  ⟨h.same.trans (allocFrame_same ha), h.first.alloc ha⟩

/-- `Contract` frees pages from the heap's smallest size on. -/
theorem ReadOnlyFirst.free (h : ReadOnlyFirst P₀ P) (hP : TablesApart P₀) (ha : 0xC00F1000 ≤ a)
    (ha' : a < 0xE0000000) (hf : P.freeFrame (P.pageAt (a / 0x1000)) = .ok P') :
    ReadOnlyFirst P₀ P' :=
  ⟨h.same.trans (freeFrame_same hf), h.first.free (hP.ne h.same (by decide) (by decide) (by omega)
    (by omega) (by omega)) hf⟩

theorem WritableFirst.alloc (h : WritableFirst P₀ P) (hP : TablesApart P₀) (ha : 0xC0000000 ≤ a)
    (ha' : a < 0xD0000000) (hf : P.allocFrame (P.pageAt (a / 0x1000)) k w = .ok P') :
    WritableFirst P₀ P' :=
  ⟨h.toReadOnlyFirst.alloc hf, fun v h1 h2 => (h.user v h1 h2).alloc
    (hP.ne h.same (by omega) (by omega) (by omega) (by omega) (by omega)) hf⟩

theorem WritableFirst.free (h : WritableFirst P₀ P) (hP : TablesApart P₀) (ha : 0xC00F1000 ≤ a)
    (ha' : a < 0xE0000000) (hf : P.freeFrame (P.pageAt (a / 0x1000)) = .ok P') :
    WritableFirst P₀ P' :=
  ⟨h.toReadOnlyFirst.free hP ha ha' hf, fun v h1 h2 => (h.user v h1 h2).free hf⟩

end

/-! ## Calls -/

/-- The invariant of a run of `Alloc` and `Free` calls from a state with the page entries `P₀`. -/
structure RightsKept (P₀ : Paging) (M : Kernel) : Prop where
  heaps : HeapsWithin M
  created : CreatedOpen M.allocator
  pages : ReadOnlyFirst P₀ M.paging

/-- The invariant where the user heap has not grown. -/
structure UserKept (P₀ : Paging) (M : Kernel) : Prop extends RightsKept P₀ M where
  user : WritableFirst P₀ M.paging
  small : ∀ h, M.allocator.heap .uheap = some h → h.endAddress ≤ 0xD0400000

section
variable {P₀ : Paging} {h : Heap}

theorem RightsKept.heap (hM : RightsKept P₀ M) (name : HeapName) :
    ∃ h, M.allocator.heap name = some h ∧ Limits (heapFirst name) (heapMax name) h ∧
      HeapState.Rights false false (M.heapState h) := by
  obtain ⟨h, hg, hl⟩ := hM.heaps name
  obtain ⟨h1, h2⟩ := hM.created name h hg
  exact ⟨h, hg, hl, h1, h2⟩

theorem RightsKept.put {s : HeapState} (hM : RightsKept P₀ M)
    (hl : Limits (heapFirst name) (heapMax name) s.toHeap) (hr : HeapState.Rights false false s)
    (hp : ReadOnlyFirst P₀ s.paging) : RightsKept P₀ (M.putHeap name s) :=
  ⟨hM.heaps.put hl, hM.created.put hr, hp⟩

theorem heapFirst_bounds (name : HeapName) : 0xC0081000 ≤ heapFirst name ∧
    heapMax name < 0xE0000000 := by
  cases name <;> decide

theorem grows_of {I : Paging → Prop} (hP : TablesApart P₀) (hs : ∀ {P}, I P → SameTables P₀ P)
    (ha : ∀ {P P' a k w}, I P → heapFirst name ≤ a → a < heapMax name →
      P.allocFrame (P.pageAt (a / 0x1000)) k w = .ok P' → I P') :
    Grows I (heapFirst name) (heapMax name) := by
  obtain ⟨h1, h2⟩ := heapFirst_bounds name
  refine ⟨fun {P a} hI h3 h4 => ?_, ha⟩
  rw [(hs hI).kernelTable]
  exact hP.held _ ⟨by omega, by omega⟩

/-- **`Alloc`** leaves the first page of the kernel heap as it is. -/
theorem RightsKept.alloc (hM : RightsKept P₀ M) (hP : TablesApart P₀)
    (hp : perform rounds fresh (.alloc name size pageAlign) M = .ok M') : RightsKept P₀ M' := by
  obtain ⟨h, hg, hl, hr⟩ := hM.heap name
  obtain ⟨r, ha, rfl⟩ := perform_alloc hg hp
  have hgrow : Grows (ReadOnlyFirst P₀) (heapFirst name) (heapMax name) :=
    grows_of hP (fun hI => hI.same) fun hI _ _ hf => hI.alloc hf
  obtain ⟨hl', hp'⟩ := (HeapState.allocN_pages hgrow (heapMax_le name) rounds
    (show Limits _ _ (M.heapState h).toHeap from hl) hM.pages).ok ha
  exact hM.put hl' (HeapState.allocN_rights hr ha) hp'

/-- What `FreeFrame` keeps on the pages from the heap's end on, `Free` keeps. -/
theorem free_within {I : Nat → Paging → Prop} {s s' : HeapState} (hP : TablesApart P₀)
    (hs : ∀ {e P}, I e P → SameTables P₀ P) (hm : ∀ {e e' P}, e' ≤ e → I e P → I e' P)
    (hf : ∀ e, heapFirst name + 0x70000 ≤ e → Shrinks (I e) e (heapMax name))
    (hl : Limits (heapFirst name) (heapMax name) s.toHeap) (hI : I s.endAddress s.paging)
    (hok : s.free p = .ok s') :
    Limits (heapFirst name) (heapMax name) s'.toHeap ∧ I s'.endAddress s'.paging := by
  obtain ⟨h1, h2⟩ := heapFirst_bounds name
  refine (HeapState.free_keeps (J := fun s => Limits (heapFirst name) (heapMax name) s.toHeap ∧
    I s.endAddress s.paging) (E := fun e => e.halt ≠ .reentry) (fun _ h => h) ?_ ?_ p
    ⟨hl, hI⟩).ok hok
  · intro t t' ht h
    refine ⟨ht.limits h.1, ?_⟩
    rw [ht.endAddress, ht.paging]
    exact h.2
  · intro t n h
    refine HeapState.contract_keeps (fun {e} {P} {a} hI h3 h4 => ?_) hf hm (heapMax_le name) h.1 h.2
    rw [(hs hI).kernelTable]
    exact hP.held _ ⟨by omega, by omega⟩

/-- **`Free`** leaves the first page of the kernel heap as it is. -/
theorem RightsKept.free (hM : RightsKept P₀ M) (hP : TablesApart P₀)
    (hp : perform rounds fresh (.free name p) M = .ok M') : RightsKept P₀ M' := by
  obtain ⟨h, hg, hl, hr⟩ := hM.heap name
  obtain ⟨hlo, hhi⟩ := heapFirst_bounds name
  rcases perform_free hg hp with rfl | ⟨s, hs, rfl⟩
  · exact hM
  · obtain ⟨hl', hp'⟩ := free_within (I := fun _ => ReadOnlyFirst P₀) hP (fun hI => hI.same)
      (fun _ hI => hI) (fun e he _ _ a hI h1 h2 hf => hI.free hP (by omega) (by omega) hf)
      (show Limits _ _ (M.heapState h).toHeap from hl) hM.pages hs
    exact hM.put hl' (HeapState.free_rights hr hs) hp'

theorem UserKept.put {s : HeapState} (hM : UserKept P₀ M)
    (hl : Limits (heapFirst name) (heapMax name) s.toHeap) (hr : HeapState.Rights false false s)
    (hp : WritableFirst P₀ s.paging) (hsmall : name = .uheap → s.endAddress ≤ 0xD0400000) :
    UserKept P₀ (M.putHeap name s) := by
  refine ⟨hM.toRightsKept.put hl hr hp.toReadOnlyFirst, hp, fun g hg => ?_⟩
  by_cases hn : HeapName.uheap = name
  · cases (if_pos hn).symm.trans hg
    exact hsmall hn.symm
  · exact hM.small g ((if_neg hn).symm.trans hg)

/-- **`Alloc`** leaves the first pages of both heaps as they are when the user heap does not
grow. -/
theorem UserKept.alloc (hM : UserKept P₀ M) (hP : TablesApart P₀)
    (hfit : ∀ h, name = .uheap → M.allocator.heap .uheap = some h →
      (M.heapState h).findSmallestHole (add32 size 8) pageAlign ≠ none)
    (hp : perform rounds fresh (.alloc name size pageAlign) M = .ok M') : UserKept P₀ M' := by
  obtain ⟨h, hg, hl, hr⟩ := hM.heap name
  obtain ⟨r, ha, rfl⟩ := perform_alloc hg hp
  have hr' := HeapState.allocN_rights hr ha
  cases name with
  | kheap =>
    have hgrow : Grows (WritableFirst P₀) (heapFirst .kheap) (heapMax .kheap) :=
      grows_of hP (fun hI => hI.same) fun hI h1 h2 hf =>
        hI.alloc hP (le_trans (by decide) h1) (lt_of_lt_of_le h2 (by decide)) hf
    obtain ⟨hl', hp'⟩ := (HeapState.allocN_pages hgrow (heapMax_le _) rounds
      (show Limits _ _ (M.heapState h).toHeap from hl) hM.user).ok ha
    exact hM.put hl' hr' hp' nofun
  | uheap =>
    obtain ⟨i, hi⟩ := Option.ne_none_iff_exists'.1 (hfit h rfl hg)
    -- a block of the hole found, on the same pages
    have hsz : size ≤ 0x400000 := by
      unfold HeapState.allocN at ha
      obtain ⟨_, h1, -⟩ := bind_ok.1 ha
      rwa [HeapState.assert_ok, decide_eq_true_iff] at h1
    rw [add32_eq (by omega)] at hi
    rw [HeapState.allocN_some hsz hi] at ha
    have hs := (HeapState.carve_pages _ _ _ _).ok ha
    refine hM.put (hs.limits hl) hr' ?_ fun _ => ?_
    · rw [hs.paging]
      exact hM.user
    · rw [hs.endAddress]
      exact hM.small h hg

/-- **`Free`** leaves the rights of the first pages of both heaps. -/
theorem UserKept.free (hM : UserKept P₀ M) (hP : TablesApart P₀)
    (hp : perform rounds fresh (.free name p) M = .ok M') : UserKept P₀ M' := by
  obtain ⟨h, hg, hl, hr⟩ := hM.heap name
  obtain ⟨hlo, hhi⟩ := heapFirst_bounds name
  rcases perform_free hg hp with rfl | ⟨s, hs, rfl⟩
  · exact hM
  · obtain ⟨hl', hle, hp'⟩ := free_within
      (I := fun e P => e ≤ (M.heapState h).endAddress ∧ WritableFirst P₀ P) hP
      (fun hI => hI.2.same) (fun he hI => ⟨he.trans hI.1, hI.2⟩)
      (fun e he _ _ a hI h1 h2 hf => ⟨hI.1, hI.2.free hP (by omega) (by omega) hf⟩)
      (show Limits _ _ (M.heapState h).toHeap from hl) ⟨Nat.le_refl _, hM.user⟩ hs
    refine hM.put hl' (HeapState.free_rights hr hs) hp' fun hn => ?_
    subst hn
    exact hle.trans (hM.small h hg)

end

/-! ## Runs -/

/-- **The pages of a heap carry its own rights.** -/
def HeapRights (M : Kernel) (name : HeapName) : Prop :=
  ∀ h, M.allocator.heap name = some h → ∀ a, h.startAddress ≤ a → a < h.endAddress →
    ((M.paging.page (M.paging.pageAt (a / 0x1000))).rw = true ↔ h.readonly = false) ∧
    ((M.paging.page (M.paging.pageAt (a / 0x1000))).user = true ↔ h.supervisor = false)

/-- The guard: `Alloc` and `Free` calls only. -/
def HeapCalls (_ : Kernel) (p : Performed) : Prop :=
  match p.call with
  | .alloc _ _ _ | .free _ _ => True
  | _ => False

/-- The guard: `Alloc` and `Free` calls, and `Alloc` finds a hole in the user heap. -/
def InPlace (M : Kernel) (p : Performed) : Prop :=
  HeapCalls M p ∧ ∀ size pageAlign h, p.call = .alloc .uheap size pageAlign →
    M.allocator.heap .uheap = some h →
    (M.heapState h).findSmallestHole (add32 size 8) pageAlign ≠ none

section
variable {P₀ : Paging} {M₀ : Kernel}

theorem RightsKept.not_rights (hM : RightsKept P₀ M) : ¬ HeapRights M .kheap := by
  intro hr
  obtain ⟨h, hg, hl, -, hw⟩ := hM.heap .kheap
  have hst : h.startAddress = 0xC0081000 := hl.start
  have hend : 0xC0081000 + 0x70000 ≤ h.endAddress := hl.least
  have hpage := (hr h hg 0xC0081000 (by omega) (by omega)).1.2 hw
  have hrw : (M.paging.page (M.paging.pageAt 0xC0081)).rw = false := hM.pages.first.rw
  rw [show 0xC0081000 / 0x1000 = 0xC0081 from rfl, hrw] at hpage
  cases hpage

theorem UserKept.rights (hM : UserKept P₀ M) : HeapRights M .uheap := by
  intro h hg a h1 h2
  obtain ⟨g, hg', hl, hk, hw⟩ := hM.heap .uheap
  cases hg.symm.trans hg'
  have hst : h.startAddress = 0xD0081000 := hl.start
  have hend := hM.small h hg
  obtain ⟨hr, hu⟩ := hM.user.user (a / 0x1000) (by omega) (by omega)
  exact ⟨iff_of_true hr hw, iff_of_true hu hk⟩

theorem Started.userKept (h : Started M₀) :
    TablesApart M₀.paging ∧ UserKept M₀.paging M₀ := by
  obtain ⟨_, _, _, _, hs, hok, hb⟩ := h
  obtain ⟨hinit, hfirst, -⟩ := memoryInitialize_pages hs hok hb
  obtain ⟨K, k, hback, -⟩ := hinit.identity
  have hread : ReadOnlyFirst M₀.paging M₀.paging :=
    ⟨.refl _, hfirst.kheap _ (Nat.le_refl _) (by decide)⟩
  refine ⟨⟨hinit.held, fun u v hu hv hT he => hback.pageAt_inj hu hv hT he⟩,
    ⟨⟨hinit.coherent.heaps, memoryInitialize_open hs hok, hread⟩, ⟨hread, fun v h1 h2 => ?_⟩,
      fun h hg => ?_⟩⟩
  · have := hfirst.uheap v (by omega) h2
    exact ⟨this.rw, this.user⟩
  · obtain ⟨g, hg', hst, -, hwf⟩ := hinit.uheap
    cases hg.symm.trans hg'
    have hf : h.startAddress + extent Block.size uheapBlocks = h.endAddress := hwf.fills
    have hx : extent Block.size uheapBlocks = 3665920 := rfl
    omega

theorem rightsKept_run (h₀ : Started M₀) (h : Guarded.Run Step HeapCalls M₀ M) :
    RightsKept M₀.paging M := by
  obtain ⟨hP, hM⟩ := h₀.userKept
  refine h.invariant hM.toRightsKept fun M ⟨rounds, fresh, c⟩ M' hM hc ⟨_, hp⟩ => ?_
  cases c with
  | alloc name size pageAlign => exact hM.alloc hP hp
  | free name p => exact hM.free hP hp
  | clone src => exact hc.elim
  | allocateRange address size => exact hc.elim
  | moveStack newStack size => exact hc.elim
  | switch dir => exact hc.elim

theorem userKept_run (h₀ : Started M₀) (h : Guarded.Run Step InPlace M₀ M) :
    UserKept M₀.paging M := by
  obtain ⟨hP, hM⟩ := h₀.userKept
  refine h.invariant hM fun M ⟨rounds, fresh, c⟩ M' hM ⟨hc, hfit⟩ ⟨_, hp⟩ => ?_
  cases c with
  | alloc name size pageAlign =>
    exact hM.alloc hP (fun h hn hg => hfit size pageAlign h (hn ▸ rfl) hg) hp
  | free name p => exact hM.free hP hp
  | clone src => exact hc.elim
  | allocateRange address size => exact hc.elim
  | moveStack newStack size => exact hc.elim
  | switch dir => exact hc.elim

/-- **Heap pages and their heap's rights**: after no run of `Alloc` and `Free` calls do the kernel
heap's pages carry its rights; the user heap's do while it has not grown. -/
theorem heap_rights (h₀ : Started M₀) (h : Guarded.Run Step HeapCalls M₀ M) :
    ¬ HeapRights M .kheap ∧ (Guarded.Run Step InPlace M₀ M → HeapRights M .uheap) :=
  ⟨(rightsKept_run h₀ h).not_rights, fun hu => (userKept_run h₀ hu).rights⟩

end

/-! ## A heap that grows -/

theorem expandPages_kept {P' : Paging} {lo newSize v : Nat} {supervisor readonly w : Bool} :
    ∀ {n i : Nat} {P : Paging}, P.Granted v w →
      HeapState.expandPages lo newSize supervisor readonly n i P = .ok P' → P'.Granted v w
  | 0, _, _, _, h => by cases h
  | n + 1, i, P, hv, h => by
    unfold HeapState.expandPages at h
    split at h
    · obtain ⟨q, -, h⟩ := bind_ok.1 h
      obtain ⟨P₁, h₁, h⟩ := bind_ok.1 h
      exact expandPages_kept (hv.alloc h₁) h
    · cases h
      exact hv

/-- **The first page of growth** is writable if the heap is `readonly`. -/
theorem expandPages_first {P P' : Paging} {lo newSize n i K k : Nat} {readonly : Bool}
    (h : HeapState.expandPages lo newSize false readonly (n + 1) i P = .ok P')
    (hi : i < newSize) (hadd : lo + i < 4294967296) (hb : Backed P K k) (hk : 0 < k)
    (hT : P.kernelTable ((lo + i) / 0x1000 / 1024) ≠ 0)
    (h0 : (P.page (P.pageAt ((lo + i) / 0x1000))).frame = 0) :
    P'.Granted ((lo + i) / 0x1000) readonly := by
  unfold HeapState.expandPages at h
  rw [if_pos hi, add32_eq hadd, getPage_kernel hT, ok_bind] at h
  obtain ⟨P₁, h₁, h⟩ := bind_ok.1 h
  refine expandPages_kept ?_ h
  have hfill : P.Filled ((lo + i) / 0x1000) ((lo + i) / 0x1000 + 1) ((lo + i) / 0x1000 * 4096)
      readonly := fun v h1 h2 => by
    obtain rfl : v = (lo + i) / 0x1000 := by omega
    rw [if_neg (by omega)]
    exact h0
  have hdiv : (lo + i) / 0x1000 * 4096 / 4096 = (lo + i) / 0x1000 := Nat.mul_div_cancel _ (by decide)
  exact (hb.fill hk (by omega) (by omega) (by omega) (by rw [hdiv]; exact hT) hfill
    (by rw [hdiv]; exact h₁)).granted (Nat.le_refl _) (by omega) (by omega)

/-- The user heap with a block of 3600008 bytes, and the rest of its hole. -/
def userBlocks : List Block := [⟨false, 3600008⟩, ⟨true, 65912⟩]

theorem Initialized.alloc_user {n : Nat} (h : Initialized n M) (rounds : Nat) (fresh : Mem) :
    ∃ M', perform rounds fresh (.alloc .uheap 3600000 false) M = .ok M' ∧ SameKernel M M' ∧
      HeapAt M' .uheap 0xD0081000 uheapEnd userBlocks ∧
      ∀ g, M.allocator.heap .uheap = some g →
        (M.heapState g).findSmallestHole (add32 3600000 8) false ≠ none := by
  obtain ⟨s, phys, ha, hs, hu, -⟩ := HeapAt.alloc rounds fresh [] 3600000 false false h.uheap rfl
    (by decide) (by decide) (by decide) (by decide) (by decide) nofun
  refine ⟨_, ?_, hs, hu, fun g hg hnone => ?_⟩
  · show (allocInternal rounds fresh .uheap 3600000 false false M >>= _) = _
    rw [ha]
    rfl
  · obtain ⟨g', hg', hst, -, -, hwf, hit, hn⟩ := h.uheap.one_hole (x := 0xD0081000) (n := 3665920)
      rfl (by simp [uheapBlocks])
    cases hg.symm.trans hg'
    have hfit := HeapState.findSmallestHole_none.1 hnone 0xD0081000 (by simp [hit])
    rw [hwf.laid.fits_iff (by simp [hit]) (by decide)] at hfit
    exact hfit (by rw [show (header (M.heapState g).mem 0xD0081000).size = 3665920 from hn]; decide)

/-- A page-aligned block then grows the user heap by 25 pages. -/
theorem HeapAt.grow_user {K k : Nat} (h : HeapAt M .uheap 0xD0081000 uheapEnd userBlocks)
    (hb : Backed M.paging K k) (hk : k + 25 ≤ 32 * M.paging.frames.size) (hk0 : 0 < k)
    (hheld : Held HeapSlot M) (hopen : CreatedOpen M.allocator)
    (h0 : (M.paging.page (M.paging.pageAt 0xD0400)).frame = 0) (rounds : Nat) (fresh : Mem) :
    ∃ M', perform (rounds + 1) fresh (.alloc .uheap 100000 true) M = .ok M' ∧
      ¬ HeapRights M' .uheap := by
  obtain ⟨g, hg, hlo', hend, hhi, hwf, hx, hn⟩ := h.one_hole (x := 0xD03EFE88) (n := 65912) rfl
    (by simp [userBlocks])
  obtain ⟨hsup, hread⟩ := hopen .uheap g hg
  have hgr : growth (100000 + 8) = 102400 := rfl
  obtain ⟨P, hP, -⟩ := @HeapState.expandPages_returns 0xD0081000 3768320 g.supervisor g.readonly
    (by decide) (by decide) 25 0x100001 3665920 M.paging K k hb hk rfl
    (fun a h1 h2 => hheld _ ⟨by omega, by omega⟩) (by decide)
  obtain ⟨t, ht, htp, hts, hte⟩ := @WF.alloc_onto (M.heapState g) _ 0xD03EFE88 65912 100000 rounds P
    fresh hwf hx hn (by decide) (by decide) (by decide) (by decide)
    (by rw [hend, hgr, hhi]; decide)
    (by rw [hhi]; decide)
    (by rw [hend, hgr, hlo']; exact hP) (by decide) (by decide)
  -- the page at the old end
  have hfirst : P.Granted 0xD0400 false := by
    rw [hsup, hread] at hP
    exact @expandPages_first M.paging P 0xD0081000 3768320 0x100000 3665920 K k false hP
      (by decide) (by decide) hb hk0 (hheld _ ⟨by decide, by decide⟩) h0
  obtain ⟨_, ha⟩ := allocInternal_heap false hg ht nofun
  refine ⟨M.putHeap .uheap t, ?_, fun hr => ?_⟩
  · show (allocInternal (rounds + 1) fresh .uheap 100000 true false M >>= _) = _
    rw [ha]
    rfl
  · have hrt := HeapState.allocN_rights (k := false) (w := false) ⟨hsup, hread⟩ ht
    have hput : (M.putHeap .uheap t).allocator.heap .uheap = some t.toHeap := by simp [putHeap]
    have hpage := (hr t.toHeap hput 0xD0400000 (by rw [hts, hlo']; decide)
      (by rw [hte, hend, hgr]; decide)).1.2 hrt.readonly
    have hpt : (M.putHeap .uheap t).paging = P := htp
    rw [hpt, show 0xD0400000 / 0x1000 = 0xD0400 from rfl, hfirst.rw] at hpage
    cases hpage

/-- A run in which the user heap does not grow. -/
theorem heap_rights_user : ∃ M₀ M, Started M₀ ∧ Guarded.Run Step InPlace M₀ M ∧
    Step M₀ ⟨1, fun _ => 0, .alloc .uheap 3600000 false⟩ M ∧
    ¬ HeapRights M .kheap ∧ HeapRights M .uheap := by
  obtain ⟨M₀, h₀, hb, hinit, -⟩ := image_initialized
  have hst : Started M₀ := ⟨_, _, _, _, start_image (by decide) (by decide), h₀, hb⟩
  obtain ⟨M, h₁, -, -, hfit⟩ := hinit.alloc_user 1 fun _ => 0
  have hstep : Step M₀ ⟨1, fun _ => 0, .alloc .uheap 3600000 false⟩ M := ⟨trivial, h₁⟩
  have hrun : Guarded.Run Step InPlace M₀ M := by
    refine .tail (i := ⟨1, fun _ => 0, .alloc .uheap 3600000 false⟩) .refl ⟨trivial, ?_⟩ hstep
    intro size pageAlign h hc hg
    cases hc
    exact hfit h hg
  obtain ⟨h1, h2⟩ := heap_rights hst (hrun.mono fun _ _ hg => hg.1)
  exact ⟨M₀, M, hst, hrun, hstep, h1, h2 hrun⟩

/-- **The heaps' pages lack their rights**: the kernel heap's from the start, the user heap's once it
has grown. -/
theorem grown_not_rights : ∃ M₀ M₁ M₂, Started M₀ ∧
    Step M₀ ⟨1, fun _ => 0, .alloc .uheap 3600000 false⟩ M₁ ∧
    Step M₁ ⟨1, fun _ => 0, .alloc .uheap 100000 true⟩ M₂ ∧
    ¬ HeapRights M₀ .kheap ∧ ¬ HeapRights M₂ .uheap := by
  obtain ⟨M₀, h₀, hb, hinit, K, k, hback, hk⟩ := image_initialized
  have hstart : Start (image 0x200000) := start_image (by decide) (by decide)
  have hst : Started M₀ := ⟨_, _, _, _, hstart, h₀, hb⟩
  obtain ⟨hP, hM₀⟩ := hst.userKept
  obtain ⟨-, hfirst, -⟩ := memoryInitialize_pages hstart h₀ hb
  -- the kernel heap's pages have frames
  have hk0 : 0 < k := by
    have hle := hback.le
    have hf := (hfirst.kheap 0xC0081 (by decide) (by decide)).frame
    by_contra h0
    rcases hback.above 0xC0081 (by omega) (by decide) (hinit.held _ ⟨by decide, by decide⟩) with h | h
    · exact hf h.1
    · omega
  obtain ⟨M₁, h₁, hs₁, hat₁, -⟩ := hinit.alloc_user 1 fun _ => 0
  have hp₁ := hs₁.paging
  obtain ⟨M₂, h₂, hnot⟩ := hat₁.grow_user (K := K) (k := k) (by rw [hp₁]; exact hback)
    (by rw [hp₁, hinit.size]; omega) hk0 (fun s hs => by rw [hp₁]; exact hinit.held s hs)
    (hM₀.toRightsKept.alloc hP h₁).created
    (by rw [hp₁]; exact hfirst.rest _ (Nat.le_refl _) (by decide)) 0 fun _ => 0
  exact ⟨M₀, M₁, M₂, hst, ⟨trivial, h₁⟩, ⟨trivial, h₂⟩, hM₀.toRightsKept.not_rights, hnot⟩

end Kernel

end Dmanix
