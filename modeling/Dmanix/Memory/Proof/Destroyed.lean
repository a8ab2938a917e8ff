import Dmanix.Memory.Proof.Runs
import Dmanix.Memory.Proof.Merge

/-!
# Directories are destroyed

Runs of the kernel's calls and of destructions, in any order, as `Task::~Task` and `process::Shutdown`
make them: `~Directory` passes every table of the directory to `kfree`, then the directory's own memory
goes there. Every table and directory keeps memory of its own (`HousedObjects`), and tables are shared
with `kernel_directory` only (`Sharing`): `Callers.Intact`. A table that is destroyed is named by no
other directory while the guard `Undestroyed` holds of each destruction; exactly then it is destroyed
and passed to `kfree` once (`freed_once`). Two clones share the kernel's tables, so the destruction of
the second passes these again.
-/

namespace Dmanix

open Word32 Bytes Outcome Machine Paging Tiling

namespace Kernel

/-- `kheap->Owns(p)` -/
def Owns (M : Kernel) (p : Nat) : Prop :=
  ∃ g, M.allocator.heap .kheap = some g ∧ g.startAddress < p ∧ p < g.endAddress

/-- `kfree` of each of `ps`, as the kernel heap is asked for it; what lies below it is ignored. -/
@[irreducible] def freeAll (ps : List Nat) : List HeapRequest :=
  (ps.filter (kheapStart ≤ ·)).map .free

theorem freeAll_nil : freeAll [] = [] := by
  unfold freeAll
  rfl

theorem freeAll_cons {p : Nat} (ps : List Nat) :
    freeAll (p :: ps) = if kheapStart ≤ p then .free p :: freeAll ps else freeAll ps := by
  unfold freeAll
  rw [List.filter_cons]
  by_cases hp : kheapStart ≤ p
  · rw [if_pos (decide_eq_true hp), if_pos hp]
    rfl
  · rw [if_neg (by simpa using hp), if_neg hp]

theorem freeAll_low {ts : List Nat} (h : ∀ t ∈ ts, ¬ kheapStart ≤ t) (ps : List Nat) :
    freeAll (ts ++ ps) = freeAll ps := by
  induction ts with
  | nil => rfl
  | cons t ts ih =>
    rw [List.cons_append, freeAll_cons, if_neg (h t List.mem_cons_self)]
    exact ih fun x hx => h x (List.mem_cons_of_mem _ hx)

/-- What the destruction of `dir` asks of the kernel heap. -/
def freeRequests (M : Kernel) (dir : Nat) : List HeapRequest := freeAll (M.destroyed dir ++ [dir])

end Kernel

namespace Callers

open Kernel

/-- A call, or the destruction of a directory. -/
inductive Event where
  | call (p : Performed)
  | destroy (dir : Nat)

/-- One event; `kernel_directory` is not destroyed. -/
inductive Happens : Callers → Event → Callers → Prop
  | call {c d : Callers} {p : Performed} : Step c p d → Happens c (.call p) d
  | destroy {c : Callers} {dir : Nat} {M : Kernel} : dir ∈ c.kernel.liveDirectories →
      dir ≠ c.kernel.paging.kernelDirectory → destroy Kernel.kfree dir c.kernel = .ok M →
      Happens c (.destroy dir) ⟨M, c.held⟩

/-- The guard of runs: calls are made while the current directory exists. -/
def InOrder (c : Callers) : Event → Prop
  | .call p => CallOk c p ∧ c.kernel.paging.currentDirectory ∈ c.kernel.liveDirectories
  | .destroy dir => c.kernel.Serves .kheap (c.kernel.freeRequests dir) ∧
      Undestroyed c.kernel.Owns c.kernel dir

/-- A state `memory::Initialize` leaves; the tables that exist are those of `kernel_directory`. -/
def Begun (c : Callers) : Prop := ∃ M : Kernel, Kernel.Started M ∧
  c.kernel = { M with liveTables := M.destroyed M.paging.kernelDirectory } ∧ ∀ name, c.held name = []

end Callers

namespace Kernel

variable {M M' t u : Kernel} {made : List (Nat × Nat)} {held : HeapName → List (Nat × Nat)}
  {rest : List HeapRequest} {rounds i n p src dir : Nat} {fresh : Mem} {owns : Nat → Prop}
  {S : Finset Nat} {w : Bool} {name : HeapName}

/-! ## Memory is taken back -/

theorem HousedObjects.release (h : HousedObjects (fun _ _ => True) made held M) (hp : (p, n) ∈ made)
    (hd : ∀ d ∈ M.liveDirectories, (d, sizeofDirectory) ≠ (p, n))
    (ht : ∀ x, M.Named x → (x, sizeofTable) ≠ (p, n)) :
    HousedObjects (fun _ _ => True) (made.erase (p, n))
      (Function.update held .kheap ((p, n) :: held .kheap)) M := by
  have hgiven : ∀ {a k}, Given M made a k → (a, k) ≠ (p, n) → Given M (made.erase (p, n)) a k :=
    fun hg hne => hg.imp_left (List.mem_erase_of_ne hne).2
  refine ⟨h.early, h.slots, fun name => ?_, h.kernel, fun d hdl => hgiven (h.directories d hdl) (hd d hdl),
    fun x hx => hgiven (h.tables x hx) (ht x hx), h.index, trivial⟩
  refine (h.heaps name).perm (.trans ?_ (blocks_object _ held (p, n) name).symm)
  cases name with
  | kheap => exact (List.perm_cons_erase hp).append_right _
  | uheap => exact .refl _

/-- **`kfree`** of an object no directory needs. -/
theorem HousedObjects.freeObject (h : HousedObjects (fun _ _ => True) made held M)
    (hp : (p, n) ∈ made) (hd : ∀ d ∈ M.liveDirectories, (d, sizeofDirectory) ≠ (p, n))
    (ht : ∀ x, M.Named x → (x, sizeofTable) ≠ (p, n)) (hs : M.Serves .kheap (.free p :: rest))
    (hf : kfree p M = .ok M') :
    HousedObjects (fun _ _ => True) (made.erase (p, n)) held M' ∧ SameSlots M M' ∧
      M'.Serves .kheap rest := by
  have hheld : (p, n) ∈ Function.update held .kheap ((p, n) :: held .kheap) .kheap := by
    rw [Function.update_self]
    exact List.mem_cons_self
  obtain ⟨h', hsame, hrest⟩ := (h.release hp hd ht).free built_true hheld hs hf
  rw [Function.update_self, List.erase_cons_head, Function.update_idem, Function.update_eq_self] at h'
  exact ⟨h', hsame, hrest⟩

theorem HousedObjects.owns_iff {I : (Nat → Nat → Prop) → Paging → Prop}
    (h : HousedObjects I made held M) (hg : Given M made p n) (hn : 0 < n) :
    M.Owns p ↔ kheapStart ≤ p := by
  obtain ⟨g, bs, hgk, hl, -⟩ := id (h.heaps .kheap)
  constructor
  · rintro ⟨g', hg', hlo, -⟩
    cases hgk.symm.trans hg'
    have h1 : g.startAddress = heapFirst .kheap := hl.start
    have h2 := heapFirst_ge .kheap
    omega
  · intro hp
    rcases hg with hm | hr
    · exact ⟨g, hgk, (h.heaps .kheap).owns hgk (List.mem_append_left _ hm)⟩
    · have h1 : p + n ≤ M.allocator.baseAddress := h.early.inside _ hr
      have h2 := h.early.high
      omega

theorem kfree_below {live : List (Nat × Nat)} (h : HeapOwned M .kheap live) (hp : ¬ kheapStart ≤ p) :
    kfree p M = .ok M := by
  obtain ⟨g, bs, hg, hl, -⟩ := h
  have h1 : g.startAddress = heapFirst .kheap := hl.start
  have h2 := heapFirst_ge .kheap
  unfold kfree freeInternal
  rw [hg]
  exact if_neg fun hc => by omega

/-! ## `~Directory` -/

/-- The kernel without the directory at `dir`, which is being destroyed. -/
def without (dir : Nat) (M : Kernel) : Kernel :=
  { M with liveDirectories := M.liveDirectories.erase dir }

theorem freeInternal_without (h : freeInternal name p M = .ok M') (dir : Nat) :
    freeInternal name p (M.without dir) = .ok (M'.without dir) := by
  unfold freeInternal at h ⊢
  rw [show (M.without dir).allocator.heap name = M.allocator.heap name from rfl]
  cases hg : M.allocator.heap name with
  | none =>
    rw [hg] at h
    cases h
    rfl
  | some g =>
    rw [hg] at h
    dsimp only at h ⊢
    split at h
    · rename_i hp
      obtain ⟨s, hs, h⟩ := bind_ok.1 h
      cases h
      rw [if_pos hp]
      show (halted ((M.heapState g).free p) >>= _) = _
      rw [hs]
      rfl
    · rename_i hp
      cases h
      exact if_neg hp

theorem freeInternal_tables (h : freeInternal name p M = .ok M') :
    M'.liveTables = M.liveTables ∧ M'.liveDirectories = M.liveDirectories := by
  unfold freeInternal at h
  split at h
  · split at h
    · obtain ⟨s, -, h⟩ := bind_ok.1 h
      cases h
      exact ⟨rfl, rfl⟩
    · cases h
      exact ⟨rfl, rfl⟩
  · cases h
    exact ⟨rfl, rfl⟩

/-- The directory at `dir` is being destroyed, and the tables `ts` are still to be freed. -/
structure Destroying (held : HeapName → List (Nat × Nat)) (dir : Nat) (ts : List Nat) (M : Kernel) :
    Prop where
  housed : ∃ made, HousedObjects (fun _ _ => True) made held (M.without dir) ∧
    (∀ p ∈ ts, kheapStart ≤ p → (p, sizeofTable) ∈ made) ∧
    (kheapStart ≤ dir → (dir, sizeofDirectory) ∈ made)
  serves : M.Serves .kheap (freeAll (ts ++ [dir]))
  unnamed : ∀ p ∈ ts, kheapStart ≤ p → ¬ (M.without dir).Named p
  nodup : ts.Nodup

/-- **One table.** -/
theorem freeTable_destroying {ts : List Nat} (h : Destroying held dir (p :: ts) M)
    (hf : freeTable kfree M p = .ok M') :
    Destroying held dir ts M' ∧ (∀ d i, M'.slot d i = M.slot d i) ∧
      M'.paging.kernelDirectory = M.paging.kernelDirectory ∧
      M'.liveDirectories = M.liveDirectories ∧ M'.liveTables = M.liveTables.erase p := by
  obtain ⟨⟨made, hH, hts, hdir⟩, hs, hun, hnd⟩ := h
  obtain ⟨M₁, hk, hf⟩ := bind_ok.1 hf
  cases hf
  obtain ⟨htab, hlive⟩ := freeInternal_tables hk
  have hnd' := List.nodup_cons.1 hnd
  by_cases hp : kheapStart ≤ p
  · rw [List.cons_append, freeAll_cons, if_pos hp] at hs
    obtain ⟨hH', hsame, hrest⟩ := hH.freeObject (hts p List.mem_cons_self hp)
      (fun d _ he => absurd (Prod.mk.inj he).2 (by decide))
      (fun x hx he => hun p List.mem_cons_self hp ((Prod.mk.inj he).1 ▸ hx)) hs
      (freeInternal_without hk dir)
    have hslot : ∀ d i, M₁.slot d i = M.slot d i := fun d i => by
      rw [slot, show M₁.paging.directories = M.paging.directories from hsame.directories]
      rfl
    refine ⟨⟨⟨_, hH'.same ⟨rfl, rfl, rfl, rfl⟩ rfl rfl (fun name => (hH'.heaps name).congr rfl)
      trivial, ?_, ?_⟩, hrest, ?_, hnd'.2⟩, hslot, hsame.kernel, hlive, by rw [← htab]⟩
    · intro q hq hlow
      refine (List.mem_erase_of_ne fun he => hnd'.1 ?_).2 (hts q (List.mem_cons_of_mem _ hq) hlow)
      exact (Prod.mk.inj he).1 ▸ hq
    · intro hlow
      exact (List.mem_erase_of_ne fun he => absurd (Prod.mk.inj he).2 (by decide)).2 (hdir hlow)
    · rintro q hq hlow ⟨hq0, d, hd, i, hi, he⟩
      refine hun q (List.mem_cons_of_mem _ hq) hlow ⟨hq0, d, ?_, i, hi, (hslot d i).symm.trans he⟩
      rwa [show M₁.liveDirectories = M.liveDirectories from hlive] at hd
  · cases (kfree_below (M := M) (hH.heaps .kheap) hp).symm.trans hk
    rw [List.cons_append, freeAll_cons, if_neg hp] at hs
    exact ⟨⟨⟨made, hH.same ⟨rfl, rfl, rfl, rfl⟩ rfl rfl (fun name => (hH.heaps name).congr rfl) trivial,
      fun q hq => hts q (List.mem_cons_of_mem _ hq), hdir⟩, hs,
      fun q hq => hun q (List.mem_cons_of_mem _ hq), hnd'.2⟩, fun _ _ => rfl, rfl, rfl, rfl⟩

theorem freeTables_destroying {ts : List Nat} (h : Destroying held dir ts M)
    (hf : ts.foldlM (freeTable kfree) M = .ok M') :
    Destroying held dir [] M' ∧ (∀ d i, M'.slot d i = M.slot d i) ∧
      M'.paging.kernelDirectory = M.paging.kernelDirectory ∧
      M'.liveDirectories = M.liveDirectories ∧ M'.liveTables = M.liveTables.diff ts := by
  induction ts generalizing M with
  | nil =>
    cases hf
    exact ⟨h, fun _ _ => rfl, rfl, rfl, rfl⟩
  | cons p ts ih =>
    rw [List.foldlM_cons] at hf
    obtain ⟨M₁, h₁, hf⟩ := bind_ok.1 hf
    obtain ⟨hd, hslot, hk, hl, ht⟩ := freeTable_destroying h h₁
    obtain ⟨hd', hslot', hk', hl', ht'⟩ := ih hd hf
    refine ⟨hd', fun d i => (hslot' d i).trans (hslot d i), hk'.trans hk, hl'.trans hl, ?_⟩
    rw [ht', ht, List.diff_cons]

theorem HousedObjects.destroying (h : HousedObjects (fun _ _ => True) made held M)
    (hS : Sharing owns M) (hd : dir ∈ M.liveDirectories) (hk : dir ≠ M.paging.kernelDirectory)
    (hs : M.Serves .kheap (M.freeRequests dir)) (hf : FreesItsOwn (kheapStart ≤ ·) M dir) :
    Destroying held dir (M.destroyed dir) M := by
  have hsub : ∀ d ∈ M.liveDirectories.erase dir, d ∈ M.liveDirectories ∧ d ≠ dir := fun d hd =>
    ⟨List.mem_of_mem_erase hd, fun he => hS.directories.not_mem_erase (he ▸ hd)⟩
  have hmade : ∀ {p n}, Given M made p n → 0 < n → kheapStart ≤ p → (p, n) ∈ made :=
    fun hg hn hp => hg.resolve_right fun hr => by
      have h1 : _ + _ ≤ M.allocator.baseAddress := h.early.inside _ hr
      have h2 := h.early.high
      simp only at h1
      omega
  refine ⟨⟨made, ⟨h.early, h.slots, fun name => (h.heaps name).congr rfl, ?_, ?_, ?_, ?_, trivial⟩, ?_,
    hmade (h.directories dir hd) (Nat.succ_pos 8195)⟩, hs, ?_, hf.once⟩
  · exact (List.mem_erase_of_ne (Ne.symm hk)).2 h.kernel
  · exact fun d hd => h.directories d (hsub d hd).1
  · rintro x ⟨hx, d, hd, hi⟩
    exact h.tables x ⟨hx, d, (hsub d hd).1, hi⟩
  · exact fun d hd i hi d' hd' => h.index d (hsub d hd).1 i hi d' (hsub d' hd').1
  · intro p hp
    obtain ⟨h0, i, hi, he⟩ := mem_destroyed.1 hp
    exact hmade (h.tables p ⟨h0, dir, hd, i, hi, he⟩) (Nat.succ_pos 4095)
  · rintro p hp hlow ⟨-, d, hd, i, hi, he⟩
    exact hf.unnamed p hp hlow d (hsub d hd).1 (hsub d hd).2 i hi he

/-- `dir` and the tables it names are gone. -/
structure Gone (dir : Nat) (M M' : Kernel) : Prop where
  slots : ∀ d i, M'.slot d i = M.slot d i
  kernel : M'.paging.kernelDirectory = M.paging.kernelDirectory
  liveDirectories : M'.liveDirectories = M.liveDirectories.erase dir
  liveTables : M'.liveTables = M.liveTables.diff (M.destroyed dir)

/-- **The destruction of a directory** that frees tables of its own. -/
theorem destroy_housed (h : HousedObjects (fun _ _ => True) made held M)
    (hS : Sharing (kheapStart ≤ ·) M) (hd : dir ∈ M.liveDirectories)
    (hk : dir ≠ M.paging.kernelDirectory) (hs : M.Serves .kheap (M.freeRequests dir))
    (hu : Undestroyed (kheapStart ≤ ·) M dir) (hok : destroy kfree dir M = .ok M') :
    (∃ made, HousedObjects (fun _ _ => True) made held M') ∧ Gone dir M M' := by
  unfold Machine.destroy at hok
  obtain ⟨M₁, h₁, hok⟩ := bind_ok.1 hok
  obtain ⟨M₂, h₂, hok⟩ := bind_ok.1 hok
  cases hok
  have hf := (hS.freesItsOwn_iff hd hk).2 hu
  obtain ⟨⟨⟨made₁, hH, -, hdir⟩, hs₁, -, -⟩, hslot, hker, hlive, htables⟩ :=
    freeTables_destroying (h.destroying hS hd hk hs hf) h₁
  obtain ⟨htab, hlive'⟩ := freeInternal_tables h₂
  have hw := freeInternal_without h₂ dir
  have hsize : ∀ {x}, (x, sizeofTable) ≠ (dir, sizeofDirectory) := fun he =>
    absurd (Prod.mk.inj he).2 (by decide)
  have hgone : ∀ d ∈ (without dir M₁).liveDirectories,
      (d, sizeofDirectory) ≠ (dir, sizeofDirectory) := fun d hd he => by
    obtain rfl := (Prod.mk.inj he).1
    rw [show (without d M₁).liveDirectories = M.liveDirectories.erase d from
      congrArg (List.erase · d) hlive] at hd
    exact hS.directories.not_mem_erase hd
  -- the directory's own memory
  have hlast : ∃ made, HousedObjects (fun _ _ => True) made held (without dir M₂) ∧
      SameSlots M₁ M₂ := by
    by_cases hp : kheapStart ≤ dir
    · rw [List.nil_append, freeAll_cons, if_pos hp] at hs₁
      obtain ⟨hH', hsame, -⟩ := hH.freeObject (hdir hp) hgone (fun x _ => hsize) hs₁
        (freeInternal_without h₂ dir)
      exact ⟨_, hH', hsame.directories, hsame.kernel, hsame.current, hlive'⟩
    · cases (kfree_below (M := M₁) (hH.heaps .kheap) hp).symm.trans h₂
      exact ⟨made₁, hH, .refl _⟩
  obtain ⟨made, hH', hsame⟩ := hlast
  refine ⟨⟨made, hH'⟩, fun d i => ?_, hsame.kernel.trans hker, ?_, ?_⟩
  · refine Eq.trans ?_ (hslot d i)
    rw [slot, slot, ← hsame.directories]
  · exact congrArg (List.erase · dir) (hlive'.trans hlive)
  · exact htab.trans htables

/-! ## Calls -/

theorem allocInternal_directories {pageAlign phys : Bool} {size physical : Nat}
    (h : HousedObjects (fun _ _ => True) made held M)
    (ha : allocInternal rounds fresh name size pageAlign phys M = .ok (p, physical, M')) :
    SameDirectories M M' := by
  obtain ⟨g, bs, hg, hl, -⟩ := id (h.heaps name)
  obtain ⟨s, hs, rfl⟩ := allocInternal_ok hg ha
  obtain ⟨-, hP, -⟩ := (HeapState.allocN_pages (h.pages built_true name).1 (heapMax_le name) rounds hl
    ⟨.refl _, trivial⟩).ok hs
  exact ⟨hP.directories, hP.kernel, hP.current, rfl, rfl⟩

theorem HousedWith.givesFresh (h : Housed made held M) (hS : Sharing owns M) (hn : 0 < n)
    (hs : M.Serves .kheap (.alloc n true :: rest)) : GivesFresh (kallocPa rounds fresh) n M := by
  intro a phys M' ha
  obtain ⟨-, -, h0, hd, ht⟩ := h.kallocPa_vacant built_true hs ha
  have hnamed : ¬ M.Named a := fun hx => by
    have := ht a hx
    simp only [Apart, sizeofTable] at this
    omega
  refine ⟨⟨h0, fun hx => ?_, fun hx => hnamed (hS.named a hx)⟩, hnamed,
    allocInternal_directories h.toHousedObjects ha⟩
  have := hd a hx
  simp only [Apart, sizeofDirectory] at this
  omega

theorem allocPage_sharing (h : Extending (fun _ _ => True) held S M) (hS : Sharing owns M)
    (hi : i < 4294967296) (hs : i / 0x1000 / 1024 ∈ S)
    (ha : allocPage (kallocPa rounds fresh) M.paging.currentDirectory w i M = .ok u) :
    Sharing owns u := by
  obtain ⟨⟨made, hH⟩, hserves⟩ := h
  obtain ⟨⟨q, t⟩, hg, ha⟩ := bind_ok.1 ha
  obtain ⟨P, hP, ha⟩ := bind_ok.1 ha
  cases ha
  obtain ⟨M₁, hm, hg⟩ := bind_ok.1 hg
  obtain ⟨q', -, hg⟩ := bind_ok.1 hg
  cases hg
  have hsame := allocFrame_same hP
  refine (makeTable_sharing hS hH.current (show _ < 1024 by omega) (fun h0 => ?_) hm).same
    ⟨hsame.directories, hsame.kernel, hsame.current, rfl, rfl⟩
  obtain ⟨n, hn⟩ := Nat.exists_eq_succ_of_ne_zero (Finset.card_ne_zero_of_mem
    (mem_missingSlots.2 ⟨hs, h0⟩))
  rw [hn, tableRequests_succ] at hserves
  exact hH.givesFresh hS (by decide) hserves

/-- **`Directory::Clone`** -/
theorem clone_sharing (h : Housed made held M) (hS : Sharing owns M)
    (hs : M.Serves .kheap (M.requests (.clone src) .kheap)) (hsrc : src ∈ M.liveDirectories)
    (hc : clone (kallocPa rounds fresh) src M = .ok (dir, u)) : Sharing owns u := by
  obtain ⟨⟨dir', phys, M₁⟩, ha, hc⟩ := bind_ok.1 hc
  obtain ⟨M₂, h₂, hc⟩ := bind_ok.1 hc
  cases hc
  have hsame := allocInternal_directories h.toHousedObjects ha
  obtain ⟨hf, -, -⟩ := h.givesFresh hS (show 0 < sizeofDirectory by decide) hs _ _ _ ha
  have hnew : Machine.Filling owns dir 0 (M₁.newClone dir phys) :=
    Machine.newClone_filling (hS.same hsame) (hsame.liveDirectories.symm ▸ hf.directories)
  have hdup := (newClone_duplicating built_true h hs hsrc ha).1
  obtain ⟨-, hfill⟩ := upTo_ok (I := fun i t => Duplicating (fun _ _ => True) held src dir i t ∧
      Machine.Filling owns dir i t) h₂ ⟨hdup, hnew⟩ fun i t v hi _ ⟨hd, hF⟩ hb => by
    refine ⟨cloneTable_duplicating built_true hd hi hb,
      Machine.cloneTable_filling hi hF (fun h0 hne => ?_) hb⟩
    obtain ⟨⟨made, hH⟩, hserves, -, -, -⟩ := hd
    rw [privateSlots_copied hi h0 hne, tableRequests_succ] at hserves
    exact hH.givesFresh hF.sharing (by decide) hserves
  exact hfill.sharing

end Kernel

namespace Callers

open Kernel

variable {c d : Callers} {p : Performed}

/-- **A call in order** shares no more tables. -/
theorem Step.sharing {made : List (Nat × Nat)} {owns : Nat → Prop}
    (hH : Housed made c.held c.kernel) (hS : Sharing owns c.kernel) (hok : CallOk c p)
    (hs : Step c p d) : Sharing owns d.kernel := by
  obtain ⟨hallow, hperf⟩ := hs.kernel
  cases hs with
  | alloc ha => exact hS.same (allocInternal_directories hH.toHousedObjects ha)
  | @free _ _ _ _ name _ hp hf =>
    have hserves := hok.serves name
    rw [requests_free] at hserves
    obtain ⟨-, hsame, -⟩ := hH.toHousedObjects.free built_true hp hserves hf
    obtain ⟨ht, -⟩ := freeInternal_tables hf
    exact hS.same ⟨hsame.directories, hsame.kernel, hsame.current, hsame.liveDirectories, ht⟩
  | other hna hnf hs =>
    obtain ⟨rounds, fresh, call⟩ := p
    have hserves := hok.serves .kheap
    cases call with
    | clone src =>
      obtain ⟨⟨dir, M'⟩, hcl, hperf⟩ := bind_ok.1 hperf
      cases hperf
      exact clone_sharing hH hS hserves hallow hcl
    | allocateRange address size =>
      exact (allocateRange_pages (P := fun t => Extending (fun _ _ => True) c.held _ t ∧
        Sharing owns t) hperf ⟨⟨⟨made, hH⟩, hserves⟩, hS⟩ fun j t v hj hsl ⟨ht, hts⟩ hb =>
          ⟨allocPage_extending built_true ht hj hsl hb, allocPage_sharing ht hts hj hsl hb⟩).2
    | moveStack newStack size =>
      exact (moveStack_pages (P := fun t => Extending (fun _ _ => True) c.held _ t ∧
        Sharing owns t) hallow hperf ⟨⟨⟨made, hH⟩, hserves⟩, hS⟩ fun j t v hj hsl ⟨ht, hts⟩ hb =>
          ⟨allocPage_extending built_true ht hj hsl hb, allocPage_sharing ht hts hj hsl hb⟩).2
    | alloc n k b => exact absurd rfl (hna n k b)
    | free n q => exact absurd rfl (hnf n q)
    | switch dir =>
      cases hperf
      exact hS.slots (fun _ _ => rfl) rfl rfl rfl

end Callers

namespace Kernel

/-! ## Runs -/

variable {M : Kernel} {n i : Nat}

/-- `memory::Initialize` has made the tables of `kernel_directory`, before the kernel heap. -/
theorem Initialized.kernelSlot_low (h : Initialized n M) (hi : i < arraySize) :
    ¬ kheapStart ≤ M.kernelSlot i := by
  intro hle
  have hpos : M.kernelSlot i ≠ 0 := by
    rw [kheapStart_eq] at hle
    omega
  have h1 : _ + sizeofTable ≤ M.allocator.baseAddress := h.bumped.inside _ (h.tables i hi hpos).1
  have h2 := h.bumped.high
  have h3 : kheapStart ≤ M.paging.kernelTable i := hle
  simp only [sizeofTable] at h1
  omega

theorem Initialized.sharing (h : Initialized n M) : Sharing (kheapStart ≤ ·)
    { M with liveTables := M.destroyed M.paging.kernelDirectory } := by
  generalize hts : M.destroyed M.paging.kernelDirectory = ts
  have hH := h.housedWith (I := fun _ _ => True) trivial
  have hslot : ∀ d ∈ M.liveDirectories, ∀ i < arraySize, M.slot d i = M.kernelSlot i := by
    intro d hd i hi
    rw [h.directories, List.mem_cons, List.mem_singleton] at hd
    rcases hd with rfl | rfl
    · exact (h.shared i hi).1
    · rfl
  have honce : ∀ i < arraySize, ∀ j < arraySize, M.kernelSlot i ≠ 0 →
      M.kernelSlot i = M.kernelSlot j → i = j := fun i hi j hj h0 he =>
    hH.index _ hH.kernel i hi _ hH.kernel j hj h0 he
  refine ⟨hH.kernel, ?_, ?_, fun x hx => ?_, fun d hd i hi _ => .inr ⟨?_, hslot d hd i hi⟩,
    fun d hd i hi j hj h0 he => ?_, fun d hd e _ _ i hi j hj h0 he => hslot d hd i hi⟩
  · have hk := h.kernel
    rw [kheapStart_eq] at hk
    show M.liveDirectories.Nodup
    rw [h.directories, List.nodup_cons, List.mem_singleton]
    refine ⟨fun he => ?_, List.nodup_singleton _⟩
    rw [← he] at hk
    exact absurd hk (by decide)
  · show ts.Nodup
    rw [← hts, destroyed, List.filter_map]
    refine List.Nodup.map_on ?_ (List.nodup_range.filter _)
    intro i hi j hj he
    simp only [List.mem_filter, List.mem_range, Function.comp_apply, decide_eq_true_iff] at hi hj
    exact honce i hi.1 j hj.1 hi.2 he
  · replace hx : x ∈ ts := hx
    rw [← hts] at hx
    obtain ⟨h0, i, hi, he⟩ := mem_destroyed.1 hx
    exact ⟨h0, _, hH.kernel, i, hi, he⟩
  · have := hslot d hd i hi
    exact fun ho => h.kernelSlot_low hi (this ▸ ho)
  · have h1 := hslot d hd i hi
    have h2 := hslot d hd j hj
    exact honce i hi j hj (fun h3 => h0 (h1.trans h3)) (h1.symm.trans (he.trans h2))

end Kernel

namespace Callers

open Kernel

/-- **The invariant of runs** (module doc). -/
structure Intact (c : Callers) : Prop where
  housed : ∃ made, HousedObjects (fun _ _ => True) made c.held c.kernel
  sharing : Sharing (kheapStart ≤ ·) c.kernel

variable {c d : Callers} {e : Event}

theorem Intact.owns_iff (h : Intact c) {x : Nat} (hx : c.kernel.Named x) :
    c.kernel.Owns x ↔ kheapStart ≤ x := by
  obtain ⟨made, hH⟩ := h.housed
  exact hH.owns_iff (hH.tables x hx) (Nat.succ_pos 4095)

theorem Begun.intact (h : Begun c) : Intact c := by
  obtain ⟨M, ⟨_, _, _, _, hs, hok, hb⟩, hM, hheld⟩ := h
  obtain ⟨K, held⟩ := c
  obtain rfl : K = _ := hM
  obtain rfl : held = fun _ => [] := funext hheld
  have hinit := memoryInitialize_ok hs hok hb
  have hH := hinit.housedWith (I := fun _ _ => True) trivial
  exact ⟨⟨_, hH.toHousedObjects.same ⟨rfl, rfl, rfl, rfl⟩ rfl rfl (fun name => (hH.heaps name).congr rfl)
    trivial⟩, hinit.sharing⟩

/-- **An event in order** keeps it. -/
theorem Intact.step (h : Intact c) (hok : InOrder c e) (hs : Happens c e d) : Intact d := by
  obtain ⟨⟨made, hH⟩, hS⟩ := id h
  cases hs with
  | call hs =>
    obtain ⟨hcall, hcur⟩ := hok
    have hW : Housed made c.held c.kernel := ⟨hH, hcur⟩
    obtain ⟨made', hH'⟩ := hs.housed built_true hW hcall
    exact ⟨⟨made', hH'.toHousedObjects⟩, hs.sharing hW hS hcall⟩
  | destroy hd hk hf =>
    obtain ⟨hserves, hu⟩ := hok
    rw [Undestroyed.congr (fun x hx => h.owns_iff hx) hd] at hu
    obtain ⟨hH', hG⟩ := destroy_housed hH hS hd hk hserves hu hf
    exact ⟨hH', hS.destroyed hd hk hu hG.slots hG.kernel hG.liveDirectories hG.liveTables⟩

end Callers

namespace Kernel

variable {M : Kernel} {n : Nat}

/-! ## Two clones -/

theorem Initialized.withTables (h : Initialized n M) (ts : List Nat) :
    Initialized n { M with liveTables := ts } :=
  ⟨h.bumped, h.kernel, h.kernelRegion, h.current, h.directories, h.tables, h.shared, h.held, h.slots,
    h.size, h.identity, h.kheap, h.uheap⟩

/-- Tables from before the kernel heap are destroyed, and `kfree` ignores them. -/
theorem freeTables_below {live : List (Nat × Nat)} {ts : List Nat} (h : HeapOwned M .kheap live)
    (hts : ∀ t ∈ ts, ¬ kheapStart ≤ t) :
    ts.foldlM (freeTable kfree) M = .ok { M with liveTables := M.liveTables.diff ts } := by
  induction ts generalizing M with
  | nil => rfl
  | cons t ts ih =>
    rw [List.foldlM_cons, List.diff_cons]
    unfold freeTable
    rw [kfree_below h (hts t List.mem_cons_self), ok_bind]
    exact ih (h.congr rfl) fun x hx => hts x (List.mem_cons_of_mem _ hx)

/-- The first clone's memory is taken back, with the holes on both sides. -/
theorem HeapAt.free_first (h : HeapAt M .kheap 0xC0081000 kheapEnd doubledBlocks) :
    M.Serves .kheap [.free firstClone] ∧ ∃ M', kfree firstClone M = .ok M' := by
  have hfree : ∀ {s : HeapState}, WF s doubledBlocks → s.startAddress = 0xC0081000 →
      s.FreeOk firstClone ∧ ∃ t, s.free firstClone = .ok t := by
    intro s hwf hst
    have hlaid : Laid s ([⟨false, 40⟩, ⟨true, 4052⟩] ++
        ⟨false, 8204⟩ :: [⟨true, 4084⟩, ⟨false, 8204⟩, ⟨true, 495608⟩]) := hwf.laid
    have hq : 0xC0081FFC = s.startAddress + extent Block.size [⟨false, 40⟩, ⟨true, 4052⟩] := by
      rw [hst]
      rfl
    obtain ⟨hok, _, _, _, _, t, -, -, ht, -⟩ := hlaid.free_returns nofun (by decide) hq (by simp)
      (by simp) (by rw [hwf.capacity]; decide)
    exact ⟨hok, t, ht⟩
  refine ⟨fun g hg P => ?_, ?_⟩
  · obtain ⟨g', hg', hst, -, hwf⟩ := HeapAt.congr (N := M.withPaging P) h rfl
    cases hg.symm.trans hg'
    exact ⟨(hfree hwf hst).1, fun _ _ => trivial⟩
  · obtain ⟨g, hg, hst, -, hwf⟩ := h
    obtain ⟨-, t, ht⟩ := hfree hwf hst
    have hend : g.startAddress + extent Block.size doubledBlocks = g.endAddress := hwf.fills
    rw [hst] at hend
    refine ⟨M.putHeap .kheap t, ?_⟩
    unfold kfree freeInternal
    rw [hg]
    dsimp only
    rw [if_pos ⟨by rw [hst]; decide, by rw [← hend]; decide⟩, ht]
    rfl

/-- Two clones share the tables of `kernel_directory`, which exist. -/
structure TwoClones (M : Kernel) : Prop where
  kheap : HeapAt M .kheap 0xC0081000 kheapEnd doubledBlocks
  kernel : M.paging.kernelDirectory < kheapStart
  directories : M.liveDirectories = [secondClone, firstClone, M.paging.kernelDirectory]
  tables : M.liveTables.Perm (M.destroyed M.paging.kernelDirectory)
  slots : ∀ d ∈ M.liveDirectories, ∀ i < arraySize, M.slot d i = M.kernelSlot i
  low : ∀ i < arraySize, ¬ kheapStart ≤ M.kernelSlot i
  heapTable : M.kernelSlot 768 ≠ 0

theorem TwoClones.mem_destroyed (h : TwoClones M) {d t : Nat} (hd : d ∈ M.liveDirectories) :
    t ∈ M.destroyed d ↔ t ∈ M.liveTables := by
  rw [h.tables.mem_iff, Machine.mem_destroyed, Machine.mem_destroyed]
  refine and_congr_right fun _ => exists_congr fun i => and_congr_right fun hi => ?_
  rw [h.slots d hd i hi]
  rfl

theorem Doubled.twoClones {M' : Kernel} (h : Initialized n M) (hc : Doubled M M')
    (ht : M.liveTables.Perm (M.destroyed M.paging.kernelDirectory)) : TwoClones M' := by
  have hk := h.kernel
  have hne : M.paging.kernelDirectory ≠ secondClone := by
    rw [kheapStart_eq] at hk
    rw [secondClone]
    omega
  have hker : ∀ i, M'.kernelSlot i = M.kernelSlot i := fun i => by
    rw [kernelSlot, hc.kernel, hc.slots, if_neg hne]
    rfl
  have hd : M'.liveDirectories = [secondClone, firstClone, M.paging.kernelDirectory] := by
    rw [hc.liveDirectories, h.directories]
  refine ⟨hc.kheap, hc.kernel.symm ▸ hk, hc.kernel.symm ▸ hd, ?_, fun d hdl i hi => ?_, fun i hi => ?_, ?_⟩
  · have : M'.destroyed M'.paging.kernelDirectory = M.destroyed M.paging.kernelDirectory := by
      unfold destroyed
      exact congrArg (List.filter _) (List.map_congr_left fun i _ => hker i)
    rw [this, hc.liveTables]
    exact ht
  · rw [hd] at hdl
    rw [hc.slots, hker]
    by_cases hds : d = secondClone
    · rw [if_pos hds]
      exact (if_pos hi).trans (h.shared i hi).1
    · rw [if_neg hds]
      simp only [List.mem_cons, List.not_mem_nil, or_false] at hdl
      rcases hdl with rfl | rfl | rfl
      · exact absurd rfl hds
      · exact (h.shared i hi).1
      · rfl
  · rw [hker]
    exact h.kernelSlot_low hi
  · rw [hker]
    exact h.held 768 ⟨by decide, by decide⟩

theorem TwoClones.destroyed_low (h : TwoClones M) {d t : Nat} (hd : d ∈ M.liveDirectories)
    (ht : t ∈ M.destroyed d) : ¬ kheapStart ≤ t := by
  obtain ⟨-, i, hi, rfl⟩ := Machine.mem_destroyed.1 ht
  rw [h.slots _ hd i hi]
  exact h.low i hi

theorem TwoClones.destroy_first {live : List (Nat × Nat)} (h : TwoClones M)
    (ho : HeapOwned M .kheap live) :
    M.Serves .kheap (M.freeRequests firstClone) ∧ ∃ M', destroy kfree firstClone M = .ok M' := by
  have hmem : firstClone ∈ M.liveDirectories := by
    rw [h.directories]
    simp
  have hlow := fun t ht => h.destroyed_low (t := t) hmem ht
  constructor
  · rw [freeRequests, freeAll_low hlow, freeAll_cons, freeAll_nil,
      if_pos (show kheapStart ≤ firstClone by decide)]
    exact h.kheap.free_first.1
  · obtain ⟨M', hk⟩ := (HeapAt.congr (N := { M with
      liveTables := M.liveTables.diff (M.destroyed firstClone) }) h.kheap rfl).free_first.2
    refine ⟨{ M' with liveDirectories := M'.liveDirectories.erase firstClone }, ?_⟩
    unfold Machine.destroy
    rw [freeTables_below ho hlow, ok_bind, hk]
    rfl

end Kernel

namespace Callers

open Kernel

theorem run_destroyed : ∃ c₀ c₁ c₂ : Callers, c₀.Begun ∧ Guarded.Run Happens InOrder c₀ c₁ ∧
    TwoClones c₁.kernel ∧ InOrder c₁ (.destroy firstClone) ∧ Happens c₁ (.destroy firstClone) c₂ ∧
    Gone firstClone c₁.kernel c₂.kernel := by
  obtain ⟨M, h₀, hb, hinit, -⟩ := image_initialized
  generalize hts : M.destroyed M.paging.kernelDirectory = ts
  have hbegun : Begun ⟨{ M with liveTables := ts }, fun _ => []⟩ :=
    ⟨M, ⟨_, _, _, _, start_image (by decide) (by decide), h₀, hb⟩, by rw [hts], fun _ => rfl⟩
  have hinit' := hinit.withTables ts
  generalize hM₀ : ({ M with liveTables := ts } : Kernel) = M₀ at *
  have hperm : M₀.liveTables.Perm (M₀.destroyed M₀.paging.kernelDirectory) := by
    rw [← hM₀]
    show ts.Perm (M.destroyed M.paging.kernelDirectory)
    rw [hts]
  obtain ⟨hok, M₁, hc, hdoubled⟩ := hinit'.clone_first 1 fun _ => 0
  have hmem : firstClone ∈ M₀.liveDirectories := by
    rw [hinit'.directories]
    exact List.mem_cons_self
  have hcur : M₀.paging.currentDirectory ∈ M₀.liveDirectories := by
    rw [hinit'.current]
    exact hmem
  have hstep : Kernel.Step M₀ ⟨1, fun _ => 0, .clone firstClone⟩ M₁ := by
    refine ⟨hmem, ?_⟩
    show (clone (kallocPa 1 fun _ => 0) firstClone M₀ >>= _) = _
    rw [hc]
    rfl
  have hrun : Guarded.Run Happens InOrder ⟨M₀, fun _ => []⟩ ⟨M₁, fun _ => []⟩ :=
    .tail (i := .call ⟨1, fun _ => 0, .clone firstClone⟩) .refl ⟨hok, hcur⟩
      (.call (.other (fun _ _ _ => KernelCall.noConfusion) (fun _ _ => KernelCall.noConfusion) hstep))
  have htwo := hdoubled.twoClones hinit' hperm
  have hI : Intact ⟨M₁, fun _ => []⟩ :=
    hrun.invariant hbegun.intact fun _ _ _ hI hok hs => hI.step hok hs
  obtain ⟨made, hH⟩ := hI.housed
  obtain ⟨hserves, M₂, hd⟩ := htwo.destroy_first (hH.heaps .kheap)
  have hmem₁ : firstClone ∈ M₁.liveDirectories := by
    rw [htwo.directories]
    simp
  have hne : firstClone ≠ M₁.paging.kernelDirectory := fun he => by
    have := htwo.kernel
    rw [← he] at this
    exact absurd this (by decide)
  have hu : Undestroyed (kheapStart ≤ ·) M₁ firstClone := fun i hi h0 _ =>
    ⟨(htwo.mem_destroyed hmem₁).1 (Machine.mem_destroyed.2 ⟨h0, i, hi, rfl⟩),
      (htwo.slots _ hmem₁ i hi).symm ▸ htwo.low i hi⟩
  refine ⟨_, _, ⟨M₂, fun _ => []⟩, hbegun, hrun, htwo, ⟨hserves, ?_⟩, .destroy hmem₁ hne hd,
    (destroy_housed hH hI.sharing hmem₁ hne hserves hu hd).2⟩
  exact (Undestroyed.congr (fun x hx => hI.owns_iff hx) hmem₁).2 hu

end Callers

end Dmanix
