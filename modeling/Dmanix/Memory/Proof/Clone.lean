import Dmanix.Memory.Directory

/-!
# Cloning a directory

Where a directory's tables are all the kernel's, `Directory::Clone` allocates the new directory only
and shares every table: `clone_shared`.
-/

namespace Dmanix

namespace Machine

open Outcome

variable {σ : Type} {kallocPa : Nat → Machine σ → Except Halt (Nat × Nat × Machine σ)}

/-- The slots below `n` of the new directory at `dir` are those of the directory at `src`; nothing
else differs from `M`, the state the directory was allocated in. -/
structure Cloned (M : Machine σ) (src dir n : Nat) (M' : Machine σ) : Prop where
  allocator : M'.allocator = M.allocator
  liveDirectories : M'.liveDirectories = dir :: M.liveDirectories
  liveTables : M'.liveTables = M.liveTables
  frames : M'.paging.frames = M.paging.frames
  pages : M'.paging.tables = M.paging.tables
  kernel : M'.paging.kernelDirectory = M.paging.kernelDirectory
  current : M'.paging.currentDirectory = M.paging.currentDirectory
  others : ∀ d ≠ dir, M'.paging.directories d = M.paging.directories d
  tables : ∀ i, (M'.paging.directories dir).tables i =
    if i < n then (M.paging.directories src).tables i else 0
  physical : ∀ i, (M'.paging.directories dir).physical i =
    if i < n ∧ (M.paging.directories src).tables i ≠ 0
      then (M.paging.directories src).physical i else 0

theorem cloned_newClone (M : Machine σ) (src dir phys : Nat) :
    Cloned M src dir 0 (M.newClone dir phys) := by
  have hdir : ∀ d, (M.newClone dir phys).paging.directories d =
      if d = dir then
        ⟨fun _ => 0, fun _ => 0, ((M.newClone dir phys).paging.directories dir).physicalAddress⟩
      else M.paging.directories d := fun d => by
    simp only [newClone, newDirectory, withPaging, Paging.setDirectory, Function.update_apply,
      if_true]
    split <;> rfl
  refine ⟨rfl, rfl, rfl, rfl, rfl, rfl, rfl, fun d hd => ?_, fun i => ?_, fun i => ?_⟩
  · rw [hdir, if_neg hd]
  · rw [hdir, if_pos rfl]
    rfl
  · rw [hdir, if_pos rfl]
    rw [if_neg (fun h => Nat.not_lt_zero _ h.1)]

theorem cloneTable_shared {M M₁ : Machine σ} {src dir i : Nat} (h : Cloned M src dir i M₁)
    (hsrc : src ≠ dir) (hker : M.paging.kernelDirectory ≠ dir)
    (hshare : (M.paging.directories src).tables i ≠ 0 →
      (M.paging.directories M.paging.kernelDirectory).tables i =
        (M.paging.directories src).tables i) :
    ∃ M₂, cloneTable kallocPa src dir i M₁ = .ok M₂ ∧ Cloned M src dir (i + 1) M₂ := by
  have hs : M₁.paging.directories src = M.paging.directories src := h.others src hsrc
  have hk : M₁.paging.directories M₁.paging.kernelDirectory =
      M.paging.directories M.paging.kernelDirectory := by
    rw [h.kernel]
    exact h.others _ hker
  unfold cloneTable
  rw [hs, hk]
  by_cases h0 : (M.paging.directories src).tables i = 0
  · refine ⟨M₁, if_pos h0, ⟨h.allocator, h.liveDirectories, h.liveTables, h.frames, h.pages,
      h.kernel, h.current, h.others, fun j => ?_, fun j => ?_⟩⟩
    · rw [h.tables]
      grind
    · rw [h.physical]
      grind
  · refine ⟨_, (if_neg h0).trans (if_pos (hshare h0)), ⟨h.allocator, h.liveDirectories,
      h.liveTables, h.frames, h.pages, h.kernel, h.current, fun d hd => ?_, fun j => ?_,
      fun j => ?_⟩⟩
    · simp only [withPaging, Paging.setTable, Paging.setDirectory, Function.update_apply, if_neg hd]
      exact h.others d hd
    · have := h.tables j
      simp only [withPaging, Paging.setTable, Paging.setDirectory, Function.update_apply, if_true]
      grind
    · have := h.physical j
      simp only [withPaging, Paging.setTable, Paging.setDirectory, Function.update_apply, if_true]
      grind

/-- **A directory that has only tables of the kernel's** is cloned without copying one. -/
theorem clone_shared {M M₁ : Machine σ} {src dir phys : Nat}
    (ha : kallocPa sizeofDirectory M = .ok (dir, phys, M₁)) (hsrc : src ≠ dir)
    (hker : M₁.paging.kernelDirectory ≠ dir)
    (hshare : ∀ i < arraySize, (M₁.paging.directories src).tables i ≠ 0 →
      (M₁.paging.directories M₁.paging.kernelDirectory).tables i =
        (M₁.paging.directories src).tables i) :
    ∃ M₂, clone kallocPa src M = .ok (dir, M₂) ∧ Cloned M₁ src dir arraySize M₂ := by
  have hloop : ∀ n ≤ arraySize, ∃ M₂, upTo (cloneTable kallocPa src dir) n (M₁.newClone dir phys) =
      .ok M₂ ∧ Cloned M₁ src dir n M₂ := by
    intro n
    induction n with
    | zero => exact fun _ => ⟨_, rfl, cloned_newClone M₁ src dir phys⟩
    | succ n ih =>
      intro hn
      obtain ⟨M₂, h₂, hc⟩ := ih (by omega)
      obtain ⟨M₃, h₃, hc'⟩ := cloneTable_shared hc hsrc hker
        (hshare n (by omega))
      refine ⟨M₃, ?_, hc'⟩
      unfold upTo
      rw [h₂, ok_bind, h₃]
  obtain ⟨M₂, h₂, hc⟩ := hloop arraySize (Nat.le_refl _)
  refine ⟨M₂, ?_, hc⟩
  unfold clone
  rw [ha, ok_bind]
  dsimp only
  rw [h₂, ok_bind]
  rfl

theorem clone_onto {M M₁ : Machine σ} {dir phys : Nat}
    (ha : kallocPa sizeofDirectory M = .ok (dir, phys, M₁)) :
    clone kallocPa dir M = .ok (dir, M₁.newClone dir phys) := by
  have hloop : ∀ n, upTo (cloneTable kallocPa dir dir) n (M₁.newClone dir phys) =
      .ok (M₁.newClone dir phys) := by
    intro n
    induction n with
    | zero => rfl
    | succ n ih =>
      unfold upTo
      rw [ih, ok_bind]
      unfold cloneTable
      rw [(cloned_newClone M₁ dir dir phys).tables n]
      rfl
  unfold clone
  rw [ha, ok_bind]
  dsimp only
  rw [hloop, ok_bind]
  rfl

/-! ## The allocator -/

theorem clone_allocator {I : σ → Prop} {M M' : Machine σ} {src dir : Nat}
    (hI : ∀ {n : Nat} {M : Machine σ}, I M.allocator →
      Meets (kallocPa n M) (fun r => I r.2.2.allocator) fun _ => True)
    (h : clone kallocPa src M = .ok (dir, M')) (h0 : I M.allocator) : I M'.allocator := by
  have hentry : ∀ {src dst i : Nat} {M : Machine σ}, I M.allocator →
      Meets (cloneEntry src dst i M) (fun M' => I M'.allocator) fun _ => True := by
    intro src dst i M hM
    unfold cloneEntry
    dsimp only
    split
    · exact .pure hM
    · exact (Meets.intro fun _ _ => trivial).bind fun _ _ => .pure hM
  have htable : ∀ {t : Nat} {M : Machine σ}, I M.allocator →
      Meets (tableClone kallocPa t M) (fun r => I r.2.2.allocator) fun _ => True := by
    intro t M hM
    refine (hI hM).bind fun r hr => ?_
    exact (upTo_meets (I := fun _ M => I M.allocator) hr fun _ _ _ hM => hentry hM).bind
      fun _ hM' => .pure hM'
  have hbody : ∀ {dir i : Nat} {M : Machine σ}, I M.allocator →
      Meets (cloneTable kallocPa src dir i M) (fun M' => I M'.allocator) fun _ => True := by
    intro dir i M hM
    unfold cloneTable
    dsimp only
    split
    · exact .pure hM
    · split
      · exact .pure hM
      · exact (htable hM).bind fun _ hr => .pure hr
  refine Meets.ok (Q := fun r => I r.2.allocator) (E := fun _ => True) ?_ h
  refine (hI h0).bind fun r hr => ?_
  exact (upTo_meets (I := fun _ M => I M.allocator) hr fun _ _ _ hM => hbody hM).bind
    fun _ hM' => .pure hM'

end Machine

end Dmanix
