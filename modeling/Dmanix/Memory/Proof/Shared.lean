import Dmanix.Memory.Directory
import Mathlib.Data.List.Nodup

/-!
# Tables that directories share

`Sharing`: a directory names a table in one slot only, a table two directories name is the kernel's, in
the kernel's slot, and every table that exists is named. Whatever `kfree` would take back is so named by
directories that still need it only while it exists. The operations keep this as long as new objects
come from fresh memory (`Fresh`): `makeTable_sharing` and `cloneTable_filling`. `~Directory` destroys
every table it names, the kernel's among them, so it destroys only tables that exist, and frees none
another directory names, exactly when the tables it shares exist and are not `kfree`'s to take back
(`Sharing.freesItsOwn_iff`); then it keeps `Sharing` (`Sharing.destroyed`).

`owns` says of which memory `kfree` takes back what it is given.
-/

namespace Dmanix

namespace Machine

open Outcome

variable {σ : Type}

/-- The same directories, and the same objects. -/
structure SameDirectories (M M' : Machine σ) : Prop where
  directories : M'.paging.directories = M.paging.directories
  kernel : M'.paging.kernelDirectory = M.paging.kernelDirectory
  current : M'.paging.currentDirectory = M.paging.currentDirectory
  liveDirectories : M'.liveDirectories = M.liveDirectories
  liveTables : M'.liveTables = M.liveTables

/-- No object is at `a`. -/
structure Fresh (M : Machine σ) (a : Nat) : Prop where
  notNull : a ≠ 0
  directories : a ∉ M.liveDirectories
  tables : a ∉ M.liveTables

section
variable (owns : Nat → Prop)

/-- The destruction of `dir` destroys each table once, while it exists, and frees no table another
directory names. -/
structure FreesItsOwn (M : Machine σ) (dir : Nat) : Prop where
  once : (M.destroyed dir).Nodup
  live : ∀ t ∈ M.destroyed dir, t ∈ M.liveTables
  unnamed : ∀ t ∈ M.destroyed dir, owns t → ∀ d ∈ M.liveDirectories, d ≠ dir → ∀ i < arraySize,
    M.slot d i ≠ t

/-- The tables that `dir` shares with `kernel_directory` have not been destroyed, and `kfree` does not
take them back. -/
def Undestroyed (M : Machine σ) (dir : Nat) : Prop :=
  ∀ i < arraySize, M.slot dir i ≠ 0 → M.slot dir i = M.kernelSlot i →
    M.slot dir i ∈ M.liveTables ∧ ¬ owns (M.slot dir i)

/-- No table a directory names was freed: it exists, or `kfree` does not take it back. -/
def NoneFreed (M : Machine σ) : Prop :=
  ∀ d ∈ M.liveDirectories, ∀ i < arraySize, M.slot d i ≠ 0 →
    M.slot d i ∈ M.liveTables ∨ ¬ owns (M.slot d i)

/-! ## The invariant -/

structure Sharing (M : Machine σ) : Prop where
  kernel : M.paging.kernelDirectory ∈ M.liveDirectories
  directories : M.liveDirectories.Nodup
  tables : M.liveTables.Nodup
  named : ∀ t ∈ M.liveTables, M.Named t
  live : ∀ d ∈ M.liveDirectories, ∀ i < arraySize, M.slot d i ≠ 0 →
    M.slot d i ∈ M.liveTables ∨ ¬ owns (M.slot d i) ∧ M.slot d i = M.kernelSlot i
  once : ∀ d ∈ M.liveDirectories, ∀ i < arraySize, ∀ j < arraySize,
    M.slot d i ≠ 0 → M.slot d i = M.slot d j → i = j
  shared : ∀ d ∈ M.liveDirectories, ∀ e ∈ M.liveDirectories, d ≠ e → ∀ i < arraySize,
    ∀ j < arraySize, M.slot d i ≠ 0 → M.slot d i = M.slot e j → M.slot d i = M.kernelSlot i

end

variable {owns : Nat → Prop}

theorem Sharing.noneFreed {M : Machine σ} (h : Sharing owns M) : NoneFreed owns M :=
  fun d hd i hi h0 => (h.live d hd i hi h0).imp_right And.left

/-- `Sharing` is about the slots and the objects only. -/
theorem Sharing.slots {M M' : Machine σ} (h : Sharing owns M)
    (hs : ∀ d i, M'.slot d i = M.slot d i)
    (hk : M'.paging.kernelDirectory = M.paging.kernelDirectory)
    (hd : M'.liveDirectories = M.liveDirectories) (ht : M'.liveTables = M.liveTables) :
    Sharing owns M' := by
  obtain ⟨k, d, t, n, l, o, s⟩ := h
  simp only [Named, kernelSlot] at *
  constructor <;> simp only [Named, kernelSlot, hs, hk, hd, ht] <;> assumption

theorem SameDirectories.refl (M : Machine σ) : SameDirectories M M := ⟨rfl, rfl, rfl, rfl, rfl⟩

theorem SameDirectories.trans {M M' M'' : Machine σ} (h : SameDirectories M M')
    (h' : SameDirectories M' M'') : SameDirectories M M'' :=
  ⟨h'.directories.trans h.directories, h'.kernel.trans h.kernel, h'.current.trans h.current,
    h'.liveDirectories.trans h.liveDirectories, h'.liveTables.trans h.liveTables⟩

theorem SameDirectories.slot {M M' : Machine σ} (h : SameDirectories M M') (d i : Nat) :
    M'.slot d i = M.slot d i := by
  rw [Machine.slot, h.directories]
  rfl

theorem Sharing.same {M M' : Machine σ} (h : Sharing owns M) (hs : SameDirectories M M') :
    Sharing owns M' :=
  h.slots hs.slot hs.kernel hs.liveDirectories hs.liveTables

/-! ## What one assignment does -/

section
variable {M : Machine σ} {dir i table entry : Nat}

theorem slot_setTable (d j : Nat) : (M.withPaging (M.paging.setTable dir i table entry)).slot d j =
    if d = dir ∧ j = i then table else M.slot d j := by
  simp only [slot, withPaging, Paging.setTable, Paging.setDirectory, Function.update_apply]
  by_cases hd : d = dir
  · subst hd
    by_cases hj : j = i <;> simp [hj]
  · simp [hd]

theorem slot_setTable_other {d j : Nat} (h : ¬ (d = dir ∧ j = i)) :
    (M.withPaging (M.paging.setTable dir i table entry)).slot d j = M.slot d j := by
  rw [slot_setTable, if_neg h]

/-- An empty slot that takes the kernel's table of its number. -/
theorem Sharing.setShared (h : Sharing owns M) (hk : dir ≠ M.paging.kernelDirectory)
    (h0 : M.slot dir i = 0) (hi : i < arraySize) (ht : M.kernelSlot i ≠ 0) :
    Sharing owns (M.withPaging (M.paging.setTable dir i (M.kernelSlot i) entry)) := by
  have hks : ∀ j, (M.withPaging (M.paging.setTable dir i (M.kernelSlot i) entry)).kernelSlot j =
      M.kernelSlot j := fun j => slot_setTable_other fun hc => hk hc.1.symm
  -- a slot of another directory, or another slot of this one, that names the table
  have hother : ∀ e ∈ M.liveDirectories, ∀ j < arraySize, M.slot e j = M.kernelSlot i → j = i := by
    intro e he j hj heq
    by_cases hek : e = M.paging.kernelDirectory
    · subst hek
      exact (h.once _ h.kernel i hi j hj ht heq.symm).symm
    · have := h.shared e he _ h.kernel hek j hj i hi (by rwa [heq]) heq
      exact (h.once _ h.kernel i hi j hj ht (heq.symm.trans this)).symm
  refine ⟨h.kernel, h.directories, h.tables, fun t htl => ?_, ?_, ?_, ?_⟩
  · obtain ⟨hne, d, hd, j, hj, rfl⟩ := h.named t htl
    exact ⟨hne, d, hd, j, hj, slot_setTable_other fun hc => hne (hc.1 ▸ hc.2 ▸ h0)⟩
  · intro d hd j hj hne
    rw [hks]
    rw [slot_setTable] at hne ⊢
    split
    · rename_i hc
      rw [hc.2]
      exact h.live _ h.kernel i hi ht
    · rw [if_neg ‹_›] at hne
      exact h.live d hd j hj hne
  · intro d hd a ha b hb hne heq
    rw [slot_setTable] at hne heq
    rw [slot_setTable] at heq
    split at heq <;> split at heq
    · exact (‹d = dir ∧ a = i›).2.trans (‹d = dir ∧ b = i›).2.symm
    · exact (‹d = dir ∧ a = i›).2.trans (hother d hd b hb heq.symm).symm
    · exact (hother d hd a ha heq).trans (‹d = dir ∧ b = i›).2.symm
    · rw [if_neg ‹_›] at hne
      exact h.once d hd a ha b hb hne heq
  · intro d hd e he hde a ha b hb hne heq
    rw [hks]
    rw [slot_setTable] at hne heq ⊢
    rw [slot_setTable] at heq
    split
    · rename_i hc
      rw [hc.2]
    · rename_i hc
      rw [if_neg hc] at hne heq
      split at heq
      · rw [heq, hother d hd a ha heq]
      · exact h.shared d hd e he hde a ha b hb hne heq

theorem Sharing.setFresh (h : Sharing owns M) (hd : dir ∈ M.liveDirectories) (hi : i < arraySize)
    (h0 : M.slot dir i = 0) (hf : M.Fresh table) (hn : ¬ M.Named table) :
    Sharing owns ((M.newTable table).withPaging
      ((M.newTable table).paging.setTable dir i table entry)) := by
  have hnew : ∀ d ∈ M.liveDirectories, ∀ j < arraySize, M.slot d j ≠ table := fun d hd j hj he =>
    hn ⟨hf.notNull, d, hd, j, hj, he⟩
  have hs : ∀ d j, (M.newTable table).slot d j = M.slot d j := fun _ _ => rfl
  -- the slots of `kernel_directory` that are named
  have hks : ∀ j, M.kernelSlot j ≠ 0 → ((M.newTable table).withPaging
      ((M.newTable table).paging.setTable dir i table entry)).kernelSlot j = M.kernelSlot j :=
    fun j hne => slot_setTable_other fun hc => hne (by rw [kernelSlot, hc.2]; exact hc.1 ▸ h0)
  refine ⟨h.kernel, h.directories, List.nodup_cons.2 ⟨hf.tables, h.tables⟩, fun t ht => ?_, ?_, ?_, ?_⟩
  · rcases List.mem_cons.1 ht with rfl | ht
    · refine ⟨hf.notNull, dir, hd, i, hi, ?_⟩
      rw [slot_setTable, if_pos ⟨rfl, rfl⟩]
    · obtain ⟨hne, d, hd, j, hj, rfl⟩ := h.named t ht
      exact ⟨hne, d, hd, j, hj, slot_setTable_other fun hc => hne (hc.1 ▸ hc.2 ▸ h0)⟩
  · intro d hd j hj hne
    rw [slot_setTable, hs] at hne ⊢
    split
    · exact .inl List.mem_cons_self
    · rw [if_neg ‹_›] at hne
      rcases h.live d hd j hj hne with hl | ⟨ho, hk⟩
      · exact .inl (List.mem_cons_of_mem _ hl)
      · exact .inr ⟨ho, hk.trans (hks j (hk ▸ hne)).symm⟩
  · intro d hd a ha b hb hne heq
    rw [slot_setTable, hs] at hne heq
    rw [slot_setTable, hs] at heq
    split at heq <;> split at heq
    · exact (‹d = dir ∧ a = i›).2.trans (‹d = dir ∧ b = i›).2.symm
    · exact absurd heq.symm (hnew d hd b hb)
    · exact absurd heq (hnew d hd a ha)
    · rw [if_neg ‹_›] at hne
      exact h.once d hd a ha b hb hne heq
  · intro d hd e he hde a ha b hb hne heq
    rw [slot_setTable, hs] at hne heq ⊢
    rw [slot_setTable, hs] at heq
    split
    · rename_i hc
      rw [if_pos hc] at heq
      split at heq
      · rename_i hc'
        exact absurd (hc.1.trans hc'.1.symm) hde
      · exact absurd heq.symm (hnew e he b hb)
    · rename_i hc
      rw [if_neg hc] at hne heq
      split at heq
      · exact absurd heq (hnew d hd a ha)
      · have hshared := h.shared d hd e he hde a ha b hb hne heq
        exact hshared.trans (hks a (hshared ▸ hne)).symm

theorem Sharing.newDirectory (h : Sharing owns M) (hf : dir ∉ M.liveDirectories) :
    Sharing owns (M.newDirectory dir) := by
  have hslot : ∀ d j, (M.newDirectory dir).slot d j = if d = dir then 0 else M.slot d j := by
    intro d j
    simp only [slot, Machine.newDirectory, Paging.setDirectory, Function.update_apply]
    split <;> rfl
  have hne : ∀ d ∈ M.liveDirectories, d ≠ dir := fun d hd he => hf (he ▸ hd)
  have hold : ∀ d ∈ M.liveDirectories, ∀ j, (M.newDirectory dir).slot d j = M.slot d j :=
    fun d hd j => by rw [hslot, if_neg (hne d hd)]
  have hmem : ∀ d ∈ (M.newDirectory dir).liveDirectories, ∀ j, (M.newDirectory dir).slot d j ≠ 0 →
      d ∈ M.liveDirectories := by
    intro d hd j hj
    refine (List.mem_cons.1 hd).resolve_left fun he => hj ?_
    rw [hslot, if_pos he]
  have hks : ∀ j, (M.newDirectory dir).kernelSlot j = M.kernelSlot j := hold _ h.kernel
  refine ⟨List.mem_cons_of_mem _ h.kernel, List.nodup_cons.2 ⟨hf, h.directories⟩, h.tables,
    fun t ht => ?_, ?_, ?_, ?_⟩
  · obtain ⟨hne, d, hd, j, hj, rfl⟩ := h.named t ht
    exact ⟨hne, d, List.mem_cons_of_mem _ hd, j, hj, hold d hd j⟩
  · intro d hd j hj hd0
    have hd' := hmem d hd j hd0
    rw [hks]
    rw [hold d hd'] at hd0 ⊢
    exact h.live d hd' j hj hd0
  · intro d hd a ha b hb hd0 heq
    have hd' := hmem d hd a hd0
    rw [hold d hd'] at hd0 heq
    rw [hold d hd'] at heq
    exact h.once d hd' a ha b hb hd0 heq
  · intro d hd e he hde a ha b hb hd0 heq
    have hd' := hmem d hd a hd0
    have he' := hmem e he b (heq ▸ hd0)
    rw [hks]
    rw [hold d hd'] at hd0 heq ⊢
    rw [hold e he'] at heq
    exact h.shared d hd' e he' hde a ha b hb hd0 heq

end

/-! ## What one call does -/

section
variable {kallocPa : Nat → Machine σ → Except Halt (Nat × Nat × Machine σ)}
  {kfree : Nat → Machine σ → Except Halt (Machine σ)} {M M' : Machine σ} {dir i : Nat}

/-- Memory for an object of `n` bytes is fresh, and no directory changes while it is given. -/
def GivesFresh (kallocPa : Nat → Machine σ → Except Halt (Nat × Nat × Machine σ)) (n : Nat)
    (M : Machine σ) : Prop :=
  ∀ a phys M', kallocPa n M = .ok (a, phys, M') →
    M.Fresh a ∧ ¬ M.Named a ∧ SameDirectories M M'

theorem Fresh.same {a : Nat} (h : M.Fresh a) (hs : SameDirectories M M') : M'.Fresh a :=
  ⟨h.notNull, hs.liveDirectories.symm ▸ h.directories, hs.liveTables.symm ▸ h.tables⟩

theorem SameDirectories.named {t : Nat} (hs : SameDirectories M M') : M'.Named t ↔ M.Named t := by
  simp only [Named, hs.slot, hs.liveDirectories]

/-- `Table::Clone`'s loop body writes page entries and frames only. -/
theorem cloneEntry_same {src dst : Nat} (h : cloneEntry src dst i M = .ok M') :
    SameDirectories M M' := by
  unfold cloneEntry at h
  by_cases h0 : (M.paging.page ⟨src, i⟩).frame = 0
  · rw [if_pos h0] at h
    cases h
    exact .refl M
  · rw [if_neg h0] at h
    obtain ⟨P, hP, h⟩ := bind_ok.1 h
    cases h
    rcases Paging.allocFrame_cases hP with ⟨-, rfl⟩ | ⟨-, f, b, -, -, rfl⟩ <;>
      exact ⟨rfl, rfl, rfl, rfl, rfl⟩

theorem cloneEntries_same {src dst n : Nat} : Meets (upTo (cloneEntry src dst) n M)
    (SameDirectories M) fun _ => True :=
  upTo_meets (I := fun _ => SameDirectories M) (.refl M) fun _ _ _ hs =>
    .intro fun _ h => hs.trans (cloneEntry_same h)

/-- `GetPage`: a table is made in an empty slot. -/
theorem makeTable_sharing (h : Sharing owns M) (hd : dir ∈ M.liveDirectories) (hi : i < arraySize)
    (hg : M.slot dir i = 0 → GivesFresh kallocPa sizeofTable M)
    (hm : makeTable kallocPa dir i M = .ok M') : Sharing owns M' := by
  unfold makeTable at hm
  split at hm
  · rename_i h0
    obtain ⟨⟨a, p, M₁⟩, ha, hm⟩ := bind_ok.1 hm
    cases hm
    obtain ⟨hf, hn, hs⟩ := hg h0 _ _ _ ha
    exact (h.same hs).setFresh (hs.liveDirectories.symm ▸ hd) hi ((hs.slot _ _).trans h0) (hf.same hs)
      fun hc => hn (hs.named.1 hc)
  · cases hm
    exact h

/-- A directory being filled by `Directory::Clone`, before slot `i`. -/
structure Filling (owns : Nat → Prop) (dir i : Nat) (M : Machine σ) : Prop where
  sharing : Sharing owns M
  live : dir ∈ M.liveDirectories
  notKernel : dir ≠ M.paging.kernelDirectory
  empty : ∀ j, i ≤ j → M.slot dir j = 0

theorem cloneTable_filling {src : Nat} (hi : i < arraySize) (h : Filling owns dir i M)
    (hg : M.slot src i ≠ 0 → M.slot src i ≠ M.kernelSlot i → GivesFresh kallocPa sizeofTable M)
    (hc : cloneTable kallocPa src dir i M = .ok M') : Filling owns dir (i + 1) M' := by
  have hempty := h.empty i (Nat.le_refl i)
  unfold cloneTable at hc
  simp only at hc
  split at hc
  · cases hc
    exact ⟨h.sharing, h.live, h.notKernel, fun j hj => h.empty j (by omega)⟩
  · rename_i h0
    split at hc
    · rename_i hk
      cases hc
      rw [← hk] at h0 ⊢
      refine ⟨h.sharing.setShared h.notKernel hempty hi h0, h.live, h.notKernel, fun j hj => ?_⟩
      rw [slot_setTable_other (by omega)]
      exact h.empty j (by omega)
    · rename_i hk
      obtain ⟨⟨t, p, M₂⟩, ht, hc⟩ := bind_ok.1 hc
      cases hc
      obtain ⟨⟨a, p', M₁⟩, ha, ht⟩ := bind_ok.1 ht
      obtain ⟨M₃, hM₃, ht⟩ := bind_ok.1 ht
      cases ht
      obtain ⟨hf, hn, hs⟩ := hg h0 (Ne.symm hk) _ _ _ ha
      have hs' := cloneEntries_same.ok hM₃
      have hset : Sharing owns ((M₁.newTable t).withPaging
          ((M₁.newTable t).paging.setTable dir i t (p ||| 0x7))) :=
        (h.sharing.same hs).setFresh (hs.liveDirectories.symm ▸ h.live) hi
          ((hs.slot _ _).trans hempty) (hf.same hs) fun hc => hn (hs.named.1 hc)
      refine ⟨hset.same ?_, ?_, ?_, fun j hj => ?_⟩
      · refine ⟨?_, hs'.kernel, hs'.current, hs'.liveDirectories, hs'.liveTables⟩
        simp only [withPaging, Paging.setTable, Paging.setDirectory, hs'.directories]
      · exact hs'.liveDirectories.symm ▸ hs.liveDirectories.symm ▸ h.live
      · exact (hs'.kernel.trans hs.kernel).symm ▸ h.notKernel
      · rw [slot_setTable_other (by omega), hs'.slot]
        exact (hs.slot _ _).trans (h.empty j (by omega))

/-- The new directory of `Directory::Clone`. -/
theorem newClone_filling {phys : Nat} (h : Sharing owns M) (hf : dir ∉ M.liveDirectories) :
    Filling owns dir 0 (M.newClone dir phys) := by
  refine ⟨(h.newDirectory hf).slots (fun d i => ?_) rfl rfl rfl, List.mem_cons_self,
    fun he => hf (he ▸ h.kernel), fun j _ => ?_⟩
  · simp only [slot, newClone, withPaging, Paging.setDirectory, Function.update_apply]
    split
    · rename_i hd
      rw [hd]
    · rfl
  · simp only [slot, newClone, newDirectory, withPaging, Paging.setDirectory, Function.update_self]

/-! ## Destruction -/

theorem mem_destroyed {t : Nat} : t ∈ M.destroyed dir ↔ t ≠ 0 ∧ ∃ i < arraySize, M.slot dir i = t := by
  simp only [destroyed, List.mem_filter, List.mem_map, List.mem_range, decide_eq_true_iff]
  exact and_comm

section
variable {owns' : Nat → Prop}

/-- What `kfree` takes back matters of tables that are named only. -/
theorem NoneFreed.congr (h : ∀ x, M.Named x → (owns x ↔ owns' x))
    (hN : NoneFreed owns M) : NoneFreed owns' M := fun d hd i hi h0 =>
  (hN d hd i hi h0).imp_right fun hn ho => hn ((h _ ⟨h0, d, hd, i, hi, rfl⟩).2 ho)

theorem Undestroyed.congr (h : ∀ x, M.Named x → (owns x ↔ owns' x))
    (hd : dir ∈ M.liveDirectories) : Undestroyed owns M dir ↔ Undestroyed owns' M dir :=
  forall₂_congr fun i hi => forall₂_congr fun h0 _ =>
    and_congr_right fun _ => not_congr (h _ ⟨h0, dir, hd, i, hi, rfl⟩)

theorem FreesItsOwn.congr (h : ∀ x, M.Named x → (owns x ↔ owns' x))
    (hd : dir ∈ M.liveDirectories) : FreesItsOwn owns M dir ↔ FreesItsOwn owns' M dir := by
  have hown : ∀ x ∈ M.destroyed dir, (owns x ↔ owns' x) := fun x hx => by
    obtain ⟨h0, i, hi, he⟩ := mem_destroyed.1 hx
    exact h x ⟨h0, dir, hd, i, hi, he⟩
  constructor
  · rintro ⟨h1, h2, h3⟩
    exact ⟨h1, h2, fun x hx ho => h3 x hx ((hown x hx).2 ho)⟩
  · rintro ⟨h1, h2, h3⟩
    exact ⟨h1, h2, fun x hx ho => h3 x hx ((hown x hx).1 ho)⟩

end

/-- A destruction destroys and frees tables once exactly when those it shares with `kernel_directory`
exist and are not taken back. -/
theorem Sharing.freesItsOwn_iff (h : Sharing owns M) (hd : dir ∈ M.liveDirectories)
    (hk : dir ≠ M.paging.kernelDirectory) : FreesItsOwn owns M dir ↔ Undestroyed owns M dir := by
  constructor
  · intro hf i hi hne heq
    have hmem : M.slot dir i ∈ M.destroyed dir := mem_destroyed.2 ⟨hne, i, hi, rfl⟩
    exact ⟨hf.live _ hmem, fun ho => hf.unnamed _ hmem ho _ h.kernel (Ne.symm hk) i hi heq.symm⟩
  · intro hp
    refine ⟨?_, ?_, ?_⟩
    · -- the slots that name a table name distinct ones
      rw [destroyed, List.filter_map]
      refine List.Nodup.map_on ?_ (List.nodup_range.filter _)
      intro i hi j hj heq
      simp only [List.mem_filter, List.mem_range, Function.comp_apply, decide_eq_true_iff] at hi hj
      exact h.once dir hd i hi.1 j hj.1 hi.2 heq
    · intro t ht
      obtain ⟨h0, i, hi, rfl⟩ := mem_destroyed.1 ht
      rcases h.live dir hd i hi h0 with hl | ⟨-, heq⟩
      · exact hl
      · exact (hp i hi h0 heq).1
    · intro t ht ho e he hne j hj heq
      obtain ⟨h0, i, hi, rfl⟩ := mem_destroyed.1 ht
      exact (hp i hi h0 (h.shared dir hd e he (Ne.symm hne) i hi j hj h0 heq.symm)).2 ho

/-- **A destruction that frees only tables of its own keeps `Sharing`.** -/
theorem Sharing.destroyed (h : Sharing owns M) (hd : dir ∈ M.liveDirectories)
    (hk : dir ≠ M.paging.kernelDirectory) (hp : Undestroyed owns M dir)
    (hslot : ∀ e i, M'.slot e i = M.slot e i)
    (hker : M'.paging.kernelDirectory = M.paging.kernelDirectory)
    (hdirs : M'.liveDirectories = M.liveDirectories.erase dir)
    (htables : M'.liveTables = M.liveTables.diff (M.destroyed dir)) : Sharing owns M' := by
  have hf := (h.freesItsOwn_iff hd hk).2 hp
  have hmem : ∀ e ∈ M.liveDirectories.erase dir, e ∈ M.liveDirectories ∧ e ≠ dir := fun e he =>
    ⟨List.mem_of_mem_erase he, fun heq => h.directories.not_mem_erase (heq ▸ he)⟩
  obtain ⟨k, d, t, n, l, o, s⟩ := h
  refine ⟨?_, ?_, ?_, ?_, ?_, ?_, ?_⟩ <;>
    simp only [Named, kernelSlot, hslot, hdirs, htables, hker]
  · exact (List.mem_erase_of_ne (Ne.symm hk)).2 k
  · exact d.erase dir
  · exact t.diff
  · intro x hx
    obtain ⟨hxl, hxd⟩ := t.mem_sdiff_iff.1 hx
    obtain ⟨h0, e, he, i, hi, rfl⟩ := n x hxl
    refine ⟨h0, e, (List.mem_erase_of_ne fun hed => hxd ?_).2 he, i, hi, rfl⟩
    exact mem_destroyed.2 ⟨h0, i, hi, hed ▸ rfl⟩
  · intro e he i hi hne
    obtain ⟨he, hed⟩ := hmem e he
    rcases l e he i hi hne with hl | hr
    · by_cases hin : M.slot e i ∈ M.destroyed dir
      · obtain ⟨-, j, hj, hji⟩ := mem_destroyed.1 hin
        -- the directories share it
        have hkern := s e he dir hd hed i hi j hj hne hji.symm
        exact .inr ⟨fun ho => hf.unnamed _ hin ho e he hed i hi rfl, hkern⟩
      · exact .inl (t.mem_sdiff_iff.2 ⟨hl, hin⟩)
    · exact .inr hr
  · intro e he
    exact o e (hmem e he).1
  · intro e he f hf'
    exact s e (hmem e he).1 f (hmem f hf').1

end

end Machine

end Dmanix
