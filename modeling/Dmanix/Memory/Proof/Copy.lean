import Dmanix.Memory.Proof.FirstPage
import Dmanix.Memory.Proof.Collision

/-!
# A faithful copy (`Directory::Clone`)

`HeldOnce`: the pages of a set of tables hold used frames, no two the same. `AllocFrame` then gives a
frame no page holds, so what `Directory::Clone` writes, a new table and a new frame at a time, leaves
the pages and the contents of the frames in use alone (`Untouched`), and each page it copies stays a
copy to the end (`EntryCopied`). `Copying` is what holds of a clone after its first `n` slots. All of it
rests on `kalloc_pa` giving memory in which no directory or table lies (`GivesVacant`), which it does
where the kernel heap serves the clone's requests (`HousedWith.copiesApart`).
-/

namespace Dmanix

open Word32 Bytes Outcome Machine Paging

namespace Paging

/-- `q` is an entry of one of the tables `S`. -/
def PageIn (S : Nat → Prop) (q : PagePtr) : Prop := S q.table ∧ q.entry < arraySize

/-- The pages of the tables `S` hold used frames, no two the same. -/
structure HeldOnce (S : Nat → Prop) (P : Paging) : Prop where
  size : 32 * P.frames.size ≤ 0x100000
  used : ∀ q, PageIn S q → (P.page q).frame ≠ 0 → P.frames.bit (P.page q).frame = true
  alone : ∀ q r, PageIn S q → PageIn S r → (P.page q).frame ≠ 0 →
    (P.page q).frame = (P.page r).frame → q = r

/-- The pages of the tables `S` keep their frames, those of other tables than `K` all they hold; used
frames stay used and keep their bytes. -/
structure Untouched (S K : Nat → Prop) (P P' : Paging) : Prop where
  bits : ∀ f, P.frames.bit f = true → P'.frames.bit f = true
  framed : ∀ q, PageIn S q → (P.page q).frame ≠ 0 → P'.page q = P.page q
  pages : ∀ q, PageIn S q → ¬ K q.table → P'.page q = P.page q
  contents : ∀ f, P.frames.bit f = true → ∀ k < 4096,
    P'.phys (frameToAddr f + k) = P.phys (frameToAddr f + k)

/-- The page `r` in `P'` is a copy of the page `q` in `P`, in a frame that was free there. -/
structure EntryCopied (P P' : Paging) (q r : PagePtr) : Prop where
  unframed : (P.page q).frame = 0 → P'.page r = Page.zero
  free : (P.page q).frame ≠ 0 → P.frames.bit (P'.page r).frame = false
  bits : (P.page q).frame ≠ 0 → P'.page r = { P.page q with frame := (P'.page r).frame }
  contents : (P.page q).frame ≠ 0 → ∀ k < 4096,
    P'.phys (frameToAddr (P'.page r).frame + k) = P.phys (frameToAddr (P.page q).frame + k)

variable {S S' K : Nat → Prop} {P P' P'' : Paging} {q r : PagePtr}

/-! ## Frames held once -/

theorem HeldOnce.mono (h : HeldOnce S P) (hs : ∀ t, S' t → S t) : HeldOnce S' P :=
  ⟨h.size, fun q hq => h.used q ⟨hs _ hq.1, hq.2⟩,
    fun q r hq hr => h.alone q r ⟨hs _ hq.1, hq.2⟩ ⟨hs _ hr.1, hr.2⟩⟩

theorem HeldOnce.congr (h : HeldOnce S P) (hf : P'.frames = P.frames) (ht : P'.tables = P.tables) :
    HeldOnce S P' := by
  obtain ⟨h1, h2, h3⟩ := h
  simp only [Paging.page] at h2 h3
  constructor <;> simpa only [Paging.page, hf, ht]

/-- **`AllocFrame`** gives a page a frame that no page holds. -/
theorem heldOnce_alloc : AllocKeeps (HeldOnce S) := by
  intro P P' q k w h ha
  rcases allocFrame_cases ha with ⟨-, rfl⟩ | ⟨h0, -⟩
  · exact h
  obtain ⟨f, -, hlt, hclear, hsz, hbits, hpage⟩ := allocFrame_gives ha h0
  have hsize := h.size
  have hframe : (P'.page q).frame = f := by
    rw [hpage]
    exact Nat.mod_eq_of_lt (by omega)
  -- a page that held a frame holds another one
  have hne : ∀ r, PageIn S r → (P.page r).frame ≠ 0 → (P.page r).frame ≠ f := fun r hr hr0 he => by
    rw [← he, h.used r hr hr0] at hclear
    cases hclear
  refine ⟨hsz ▸ h.size, fun r hr hr0 => ?_, fun r u hr hu hr0 he => ?_⟩
  · rw [hbits]
    by_cases hrq : r = q
    · rw [hrq, hframe, beq_self_eq_true, Bool.true_or]
    · rw [allocFrame_page ha hrq] at hr0 ⊢
      rw [h.used r hr hr0, Bool.or_true]
  · by_cases hrq : r = q
    · by_cases huq : u = q
      · exact hrq.trans huq.symm
      · rw [hrq, hframe] at hr0 he
        rw [allocFrame_page ha huq] at he
        exact absurd he.symm (hne u hu (he ▸ hr0))
    · rw [allocFrame_page ha hrq] at hr0 he
      by_cases huq : u = q
      · rw [huq, hframe] at he
        exact absurd he (hne r hr hr0)
      · rw [allocFrame_page ha huq] at he
        exact h.alone r u hr hu hr0 he

theorem allocFrame_phys {k w : Bool} (h : P.allocFrame q k w = .ok P') : P'.phys = P.phys := by
  rcases allocFrame_cases h with ⟨-, rfl⟩ | ⟨-, f, b, -, -, rfl⟩ <;> rfl

theorem HeldOnce.newTable (h : HeldOnce S P) (p : Nat) : HeldOnce (fun t => t = p ∨ S t)
    { P with tables := Function.update P.tables p fun _ => Page.zero } := by
  generalize hP' : ({ P with tables := Function.update P.tables p fun _ => Page.zero } : Paging) = P'
  have hpage : ∀ q : PagePtr, P'.page q = if q.table = p then Page.zero else P.page q := fun q => by
    subst hP'
    simp only [Paging.page, Function.update_apply]
    split <;> rfl
  have hframe : ∀ q, (P'.page q).frame ≠ 0 → q.table ≠ p ∧ P'.page q = P.page q := by
    intro q hq
    rw [hpage] at hq ⊢
    by_cases hqp : q.table = p
    · rw [if_pos hqp] at hq
      exact absurd rfl hq
    · exact ⟨hqp, if_neg hqp⟩
  have hbits : P'.frames = P.frames := by
    subst hP'
    rfl
  refine ⟨hbits ▸ h.size, fun q hq h0 => ?_, fun q r hq hr h0 he => ?_⟩
  · obtain ⟨hqp, hqe⟩ := hframe q h0
    rw [hqe] at h0 ⊢
    rw [hbits]
    exact h.used q ⟨hq.1.resolve_left hqp, hq.2⟩ h0
  · obtain ⟨hqp, hqe⟩ := hframe q h0
    obtain ⟨hrp, hre⟩ := hframe r (he ▸ h0)
    rw [hqe] at h0 he
    rw [hre] at he
    exact h.alone q r ⟨hq.1.resolve_left hqp, hq.2⟩ ⟨hr.1.resolve_left hrp, hr.2⟩ h0 he

theorem HeldOnce.setPage (h : HeldOnce S P) {v : Page} (hv : v.frame = (P.page q).frame) :
    HeldOnce S (P.setPage q v) := by
  have hframe : ∀ r, ((P.setPage q v).page r).frame = (P.page r).frame := by
    intro r
    by_cases hr : r = q
    · rw [hr, page_setPage_self, hv]
    · rw [page_setPage_ne v hr]
  refine ⟨h.size, fun r hr h0 => ?_, fun r u hr hu h0 he => ?_⟩
  · rw [hframe] at h0 ⊢
    exact h.used r hr h0
  · rw [hframe] at h0 he
    rw [hframe] at he
    exact h.alone r u hr hu h0 he

theorem heldOnce_build : BuildKeeps (HeldOnce fun _ => True) where
  alloc := heldOnce_alloc
  table _ t h := (h.newTable t).mono fun _ _ => .inr trivial
  entry _ _ _ _ _ _ h ha hv := (heldOnce_alloc _ _ _ _ _ h ha).setPage hv
  rest _ _ h hf ht := h.congr hf ht

/-! ## What is left alone -/

theorem Untouched.refl (S K : Nat → Prop) (P : Paging) : Untouched S K P P :=
  ⟨fun _ h => h, fun _ _ _ => rfl, fun _ _ _ => rfl, fun _ _ _ _ => rfl⟩

theorem Untouched.trans (h : Untouched S K P P') (h' : Untouched S K P' P'') :
    Untouched S K P P'' := by
  refine ⟨fun f hf => h'.bits f (h.bits f hf), fun q hq h0 => ?_, fun q hq hK => ?_,
    fun f hf k hk => ?_⟩
  · have he := h.framed q hq h0
    rw [h'.framed q hq (he.symm ▸ h0), he]
  · rw [h'.pages q hq hK, h.pages q hq hK]
  · rw [h'.contents f (h.bits f hf) k hk, h.contents f hf k hk]

theorem Untouched.mono (h : Untouched S K P P') (hs : ∀ t, S' t → S t) : Untouched S' K P P' :=
  ⟨h.bits, fun q hq => h.framed q ⟨hs _ hq.1, hq.2⟩, fun q hq => h.pages q ⟨hs _ hq.1, hq.2⟩,
    h.contents⟩

theorem Untouched.outside {p : Nat} (hp : ¬ S p)
    (hb : ∀ f, P.frames.bit f = true → P'.frames.bit f = true)
    (hpage : ∀ q : PagePtr, q.table ≠ p → P'.page q = P.page q)
    (hc : ∀ f, P.frames.bit f = true → ∀ k < 4096,
      P'.phys (frameToAddr f + k) = P.phys (frameToAddr f + k)) : Untouched S K P P' :=
  ⟨hb, fun q hq _ => hpage q fun he => hp (he ▸ hq.1),
    fun q hq _ => hpage q fun he => hp (he ▸ hq.1), hc⟩

/-! ## Copies -/

/-- What is copied from a page that was left alone is copied from it as it was. -/
theorem EntryCopied.before (h : EntryCopied P' P'' q r) (hu : Untouched S K P P')
    (hH : HeldOnce S P) (hq : PageIn S q) (hK : ¬ K q.table) : EntryCopied P P'' q r := by
  have he := hu.pages q hq hK
  obtain ⟨h1, h2, h3, h4⟩ := h
  rw [he] at h1 h2 h3 h4
  refine ⟨h1, fun h0 => ?_, h3, fun h0 k hk => ?_⟩
  · by_contra hb
    have := hu.bits _ (Bool.eq_true_of_not_eq_false hb)
    rw [h2 h0] at this
    cases this
  · rw [h4 h0 k hk, hu.contents _ (hH.used q hq h0) k hk]

theorem EntryCopied.later (h : EntryCopied P P' q r) (hz : P.frames.bit 0 = true)
    (hH : HeldOnce S P') (hr : PageIn S r) (he : P''.page r = P'.page r)
    (hc : ∀ f, P'.frames.bit f = true → ∀ k < 4096,
      P''.phys (frameToAddr f + k) = P'.phys (frameToAddr f + k)) : EntryCopied P P'' q r := by
  obtain ⟨h1, h2, h3, h4⟩ := h
  have hne : (P.page q).frame ≠ 0 → (P'.page r).frame ≠ 0 := fun h0 hr0 => by
    have := h2 h0
    rw [hr0, hz] at this
    cases this
  refine ⟨fun h0 => he.trans (h1 h0), fun h0 => he.symm ▸ h2 h0, fun h0 => he.symm ▸ h3 h0,
    fun h0 k hk => ?_⟩
  rw [he, hc _ (hH.used r hr (hne h0)) k hk, h4 h0 k hk]

end Paging

namespace Machine

variable {σ : Type} {M M' : Machine σ} {S S' K : Nat → Prop} {src dst i n : Nat}

/-! ## A table -/

theorem copyPagePhysical_other {m : Mem} {a f g k : Nat} (hfg : f ≠ g) (hk : k < 4096) :
    copyPagePhysical a (frameToAddr g) m (frameToAddr f + k) = m (frameToAddr f + k) := by
  refine if_neg ?_
  unfold frameToAddr
  omega

theorem copyPagePhysical_same {m : Mem} {a b k : Nat} (hk : k < 4096) :
    copyPagePhysical a b m (b + k) = m (a + k) := by
  refine (if_pos ⟨Nat.le_add_right _ _, Nat.add_lt_add_left hk b⟩).trans ?_
  rw [Nat.add_sub_cancel_left]

/-- **The loop body of `Table::Clone`** copies one page, into an entry that is zero. -/
theorem cloneEntry_copied (hH : HeldOnce S M.paging) (hz : M.paging.page ⟨dst, i⟩ = Page.zero)
    (h : cloneEntry src dst i M = .ok M') :
    HeldOnce S M'.paging ∧ EntryCopied M.paging M'.paging ⟨src, i⟩ ⟨dst, i⟩ ∧
      (∀ q, q ≠ ⟨dst, i⟩ → M'.paging.page q = M.paging.page q) ∧
      (∀ f, M.paging.frames.bit f = true → M'.paging.frames.bit f = true) ∧
      ∀ f, M.paging.frames.bit f = true → ∀ k < 4096,
        M'.paging.phys (frameToAddr f + k) = M.paging.phys (frameToAddr f + k) := by
  unfold cloneEntry at h
  dsimp only at h
  split at h
  · rename_i h0
    cases h
    exact ⟨hH, ⟨fun _ => hz, fun hne => absurd h0 hne, fun hne => absurd h0 hne,
      fun hne => absurd h0 hne⟩, fun _ _ => rfl, fun _ hf => hf, fun _ _ _ _ => rfl⟩
  · rename_i h0
    obtain ⟨P, hP, h⟩ := bind_ok.1 h
    have hz0 : (M.paging.page ⟨dst, i⟩).frame = 0 := by
      rw [hz]
      rfl
    obtain ⟨g, -, hlt, hclear, -, hbits, hpage⟩ := allocFrame_gives hP hz0
    have hsize := hH.size
    have hg : (P.page ⟨dst, i⟩).frame = g := by
      rw [hpage]
      exact Nat.mod_eq_of_lt (by omega)
    have hphys := allocFrame_phys hP
    rw [hg, page_setPage_self] at h
    have hnew : M'.paging.page ⟨dst, i⟩ = { M.paging.page ⟨src, i⟩ with frame := g } := by
      cases h
      exact page_setPage_self _ _ _
    have hother : ∀ q, q ≠ ⟨dst, i⟩ → M'.paging.page q = M.paging.page q := fun q hq => by
      cases h
      exact (page_setPage_ne _ hq).trans (allocFrame_page hP hq)
    have hcopy : M'.paging.phys = copyPagePhysical (frameToAddr (M.paging.page ⟨src, i⟩).frame)
        (frameToAddr g) M.paging.phys := by
      rw [← hphys]
      cases h
      rfl
    have hheld : HeldOnce S M'.paging := by
      cases h
      exact ((heldOnce_alloc _ _ _ _ _ hH hP).setPage (by rw [hg])).congr rfl rfl
    have hframes : M'.paging.frames = P.frames := by
      cases h
      rfl
    refine ⟨hheld, ⟨fun he => absurd he h0, fun _ => ?_, fun _ => ?_, fun _ k hk => ?_⟩, hother,
      fun f hf => ?_, fun f hf k hk => ?_⟩
    · rw [hnew]
      exact hclear
    · rw [hnew]
    · rw [hnew, hcopy]
      exact copyPagePhysical_same hk
    · rw [hframes, hbits, hf, Bool.or_true]
    · have hfg : f ≠ g := fun he => by
        rw [he, hclear] at hf
        cases hf
      rw [hcopy]
      exact copyPagePhysical_other hfg hk

/-- The first `n` entries of the table at `src` are copied to the new table at `dst`. -/
structure TableCopied (S K : Nat → Prop) (P : Paging) (src dst n : Nat) (P' : Paging) : Prop where
  frames : HeldOnce (fun t => t = dst ∨ S t) P'
  untouched : Untouched S K P P'
  rest : ∀ e, n ≤ e → P'.page ⟨dst, e⟩ = Page.zero
  copied : ∀ e < n, EntryCopied P P' ⟨src, e⟩ ⟨dst, e⟩

theorem TableCopied.next {P : Paging} (h : TableCopied S K P src dst i M.paging) (hi : i < arraySize)
    (hH : HeldOnce S P) (hz : P.frames.bit 0 = true) (hs : S src) (hK : ¬ K src) (hd : ¬ S dst)
    (hc : cloneEntry src dst i M = .ok M') : TableCopied S K P src dst (i + 1) M'.paging := by
  obtain ⟨hf, hcop, hpage, hbits, hcont⟩ :=
    cloneEntry_copied h.frames (h.rest i (Nat.le_refl i)) hc
  have hu : Untouched S K M.paging M'.paging := .outside hd hbits
    (fun q hq => hpage q fun he => hq (congrArg PagePtr.table he)) hcont
  refine ⟨hf, h.untouched.trans hu, fun e he => ?_, fun e he => ?_⟩
  · rw [hpage _ fun he' => by cases he'; omega]
    exact h.rest e (by omega)
  · by_cases hei : e = i
    · subst hei
      exact hcop.before h.untouched hH ⟨hs, hi⟩ hK
    · -- an entry copied before lies beside the one written
      exact (h.copied e (by omega)).later hz h.frames
        ⟨.inl rfl, show e < arraySize by omega⟩
        (hpage _ fun he' => hei (congrArg PagePtr.entry he')) hcont

end Machine

namespace Kernel

variable {M M' M₁ : Kernel} {S K : Nat → Prop} {rounds src dir dst phys n p i : Nat} {fresh : Mem}

theorem kallocPa_phys {size : Nat} (h : kallocPa rounds fresh size M = .ok (p, phys, M₁)) :
    M₁.paging.phys = M.paging.phys :=
  (kallocPa_each (I := fun P => P.phys = M.paging.phys)
    (fun _ _ _ _ _ hP _ ha => (allocFrame_phys ha).trans hP) size M rfl).ok h

/-- `kalloc_pa` leaves pages alone but for the kernel's without a frame. -/
theorem kallocPa_untouched {size : Nat} (hK : ∀ i < arraySize, K (M.kernelSlot i))
    (h : kallocPa rounds fresh size M = .ok (p, phys, M₁)) :
    Untouched S K M.paging M₁.paging := by
  have hkeeps : AllocKeeps fun P =>
      ∀ f, M.paging.frames.bit f = true → P.frames.bit f = true := by
    intro P P' q k w hb ha g hg
    by_cases h0 : (P.page q).frame = 0
    · obtain ⟨f, -, -, -, -, hbits, -⟩ := allocFrame_gives ha h0
      rw [hbits, hb g hg, Bool.or_true]
    · rcases allocFrame_cases ha with ⟨-, rfl⟩ | ⟨hz, -⟩
      · exact hb g hg
      · exact absurd hz h0
  have hb := (kallocPa_each hkeeps.kernel size M fun _ hf => hf).ok h
  exact ⟨hb, fun q _ h0 => kallocPa_framed h h0,
    fun q _ hq => kallocPa_other h fun i hi he => hq (he ▸ hK i hi),
    fun f _ k _ => congrFun (kallocPa_phys h) _⟩

/-- **`Table::Clone`** of a table that is not the kernel's. -/
theorem tableClone_copied {t : Nat} (hH : HeldOnce S M.paging) (hz : M.paging.frames.bit 0 = true)
    (hK : ∀ i < arraySize, K (M.kernelSlot i)) (hs : S t) (hKt : ¬ K t)
    (hd : ∀ p phys M₁, kallocPa rounds fresh sizeofTable M = .ok (p, phys, M₁) → ¬ S p)
    (h : tableClone (kallocPa rounds fresh) t M = .ok (p, phys, M')) :
    TableCopied S K M.paging t p arraySize M'.paging ∧
      ∃ M₁, kallocPa rounds fresh sizeofTable M = .ok (p, phys, M₁) ∧
        SameDirectories (M₁.newTable p) M' := by
  obtain ⟨⟨p', phys', M₁⟩, ha, h⟩ := bind_ok.1 h
  obtain ⟨M₂, h₂, h⟩ := bind_ok.1 h
  cases h
  have hp := hd _ _ _ ha
  have hu₁ : Untouched S K M.paging M₁.paging := kallocPa_untouched hK ha
  have hH₁ : HeldOnce S M₁.paging := (kallocPa_each heldOnce_alloc.kernel _ _ hH).ok ha
  have hpage : ∀ q : PagePtr, q.table ≠ p → (M₁.newTable p).paging.page q = M₁.paging.page q :=
    fun q hq => by
      show Function.update M₁.paging.tables p (fun _ => Page.zero) q.table q.entry = _
      rw [Function.update_of_ne hq]
      rfl
  have hu₂ : Untouched S K M.paging (M₁.newTable p).paging :=
    hu₁.trans (.outside hp (fun _ hf => hf) hpage fun _ _ _ _ => rfl)
  have hstart : TableCopied S K M.paging t p 0 (M₁.newTable p).paging := by
    refine ⟨hH₁.newTable p, hu₂, fun e _ => ?_, fun e he => absurd he (Nat.not_lt_zero e)⟩
    show Function.update M₁.paging.tables p (fun _ => Page.zero) p e = _
    rw [Function.update_self]
  refine ⟨?_, M₁, ha, cloneEntries_same.ok h₂⟩
  exact upTo_ok (I := fun n u => TableCopied S K M.paging t p n u.paging) h₂ hstart
    fun i u v hi _ hu hb => hu.next hi hH hz hs hKt hp hb

/-! ## A directory -/

section
variable (rounds : Nat) (fresh : Mem)

/-- The memory `kalloc_pa` gives for `n` bytes is vacant. -/
def GivesVacant (n : Nat) (M : Kernel) : Prop :=
  ∀ p phys M₁, kallocPa rounds fresh n M = .ok (p, phys, M₁) → M.Vacant n p

/-- `Directory::Clone` of the directory at `src` on `M` comes to slot `i` in the state `t`. -/
def ComesTo (src : Nat) (M : Kernel) (i : Nat) (t : Kernel) : Prop :=
  ∃ dir phys M₁, kallocPa rounds fresh sizeofDirectory M = .ok (dir, phys, M₁) ∧
    upTo (cloneTable (kallocPa rounds fresh) src dir) i (M₁.newClone dir phys) = .ok t

/-- The memory that `Directory::Clone` is given, for the directory and for each table it copies, is
vacant. -/
structure CopiesApart (src : Nat) (M : Kernel) : Prop where
  directory : GivesVacant rounds fresh sizeofDirectory M
  tables : ∀ i < arraySize, ∀ t, ComesTo rounds fresh src M i t → t.slot src i ≠ 0 →
    t.kernelSlot i ≠ t.slot src i → GivesVacant rounds fresh sizeofTable t

end

/-- Where a directory is copied: both directories exist, frame 0 is used and frames are held once, and a
table of the kernel's is named in the kernel's slot only. -/
structure Copyable (M : Kernel) (src : Nat) : Prop where
  kernel : M.paging.kernelDirectory ∈ M.liveDirectories
  source : src ∈ M.liveDirectories
  zero : M.paging.frames.bit 0 = true
  frames : HeldOnce M.Named M.paging
  own : ∀ i < arraySize, ∀ j < arraySize, M.slot src i ≠ 0 → M.slot src i = M.kernelSlot j → i = j

/-- Slot `i` of the directory at `dir`, filled from that of the directory at `src` in `M`. -/
structure SlotCopied (M : Kernel) (src dir i : Nat) (M' : Kernel) : Prop where
  missing : M.slot src i = 0 → M'.slot dir i = 0
  shared : M.slot src i ≠ 0 → M.slot src i = M.kernelSlot i → M'.slot dir i = M.slot src i ∧
    (M'.paging.directories dir).physical i = (M.paging.directories src).physical i
  made : M.slot src i ≠ 0 → M.slot src i ≠ M.kernelSlot i →
    M'.slot dir i ≠ 0 ∧ ¬ M.KernelNamed (M'.slot dir i)
  copied : M.slot src i ≠ 0 → M.slot src i ≠ M.kernelSlot i → ∀ e < arraySize,
    EntryCopied M.paging M'.paging ⟨M.slot src i, e⟩ ⟨M'.slot dir i, e⟩

/-- What holds of `Directory::Clone` after `n` slots. -/
structure Copying (M : Kernel) (src dir n : Nat) (M' : Kernel) : Prop where
  live : M'.liveDirectories = dir :: M.liveDirectories
  kernel : M'.paging.kernelDirectory = M.paging.kernelDirectory
  others : ∀ d, d ≠ dir → M'.paging.directories d = M.paging.directories d
  rest : ∀ i, n ≤ i → M'.slot dir i = 0
  frames : HeldOnce M'.Named M'.paging
  untouched : Untouched M.Named M.KernelNamed M.paging M'.paging
  slots : ∀ i < n, SlotCopied M src dir i M'

variable {t t' u : Kernel} {tb entry : Nat}

/-- A slot that is filled stays so where the pages and frames are left alone. -/
theorem SlotCopied.later (h : SlotCopied M src dir i t) (hi : i < arraySize)
    (hz : M.paging.frames.bit 0 = true) (hf : HeldOnce t.Named t.paging)
    (hd : dir ∈ t.liveDirectories) (hslot : u.slot dir i = t.slot dir i)
    (hphys : (u.paging.directories dir).physical i = (t.paging.directories dir).physical i)
    (hu : Untouched t.Named M.KernelNamed t.paging u.paging) : SlotCopied M src dir i u := by
  refine ⟨fun h0 => hslot.trans (h.missing h0), fun h0 he => ?_, fun h0 he => hslot.symm ▸ h.made h0 he,
    fun h0 he e hle => ?_⟩
  · obtain ⟨h1, h2⟩ := h.shared h0 he
    exact ⟨hslot.trans h1, hphys.trans h2⟩
  · obtain ⟨hne, hk⟩ := h.made h0 he
    have hin : PageIn t.Named ⟨t.slot dir i, e⟩ := ⟨⟨hne, dir, hd, i, hi, rfl⟩, hle⟩
    rw [hslot]
    exact (h.copied h0 he e hle).later hz hf hin (hu.pages _ hin hk) hu.contents

theorem Copying.slot_eq (h : Copying M src dir n t) {d : Nat} (hd : d ≠ dir) (j : Nat) :
    t.slot d j = M.slot d j := by
  rw [slot, h.others d hd]
  rfl

theorem Copying.setTable (h : Copying M src dir i t) (hC : Copyable M src)
    (hd : dir ∉ M.liveDirectories) (hi : i < arraySize) (hs : SameSlots t t')
    (hH : HeldOnce (fun x => x = tb ∨ t.Named x) t'.paging)
    (hu : Untouched t.Named M.KernelNamed t.paging t'.paging)
    (hnew : SlotCopied M src dir i (t'.withPaging (t'.paging.setTable dir i tb entry))) :
    Copying M src dir (i + 1) (t'.withPaging (t'.paging.setTable dir i tb entry)) := by
  have hslot : ∀ d j, (t'.withPaging (t'.paging.setTable dir i tb entry)).slot d j =
      if d = dir ∧ j = i then tb else t.slot d j := fun d j => by
    rw [slot_setTable]
    unfold slot
    rw [hs.directories]
  have hnamed : ∀ x, (t'.withPaging (t'.paging.setTable dir i tb entry)).Named x →
      x = tb ∨ t.Named x := by
    rintro x ⟨hx0, d, hd, j, hj, hx⟩
    rw [hslot] at hx
    split at hx
    · exact .inl hx.symm
    · exact .inr ⟨hx0, d, hs.liveDirectories ▸ hd, j, hj, hx⟩
  have hin : ∀ x, M.Named x → t.Named x := by
    rintro x ⟨hx0, d, hd', j, hj, hx⟩
    refine ⟨hx0, d, ?_, j, hj, ?_⟩
    · rw [h.live]
      exact List.mem_cons_of_mem _ hd'
    · rw [h.slot_eq fun he => hd (he ▸ hd')]
      exact hx
  refine ⟨hs.liveDirectories.trans h.live, hs.kernel.trans h.kernel, fun d hdd => ?_, fun j hj => ?_,
    (hH.mono hnamed).congr rfl rfl, ?_, fun j hj => ?_⟩
  · simp only [withPaging, Paging.setTable, Paging.setDirectory, Function.update_apply, if_neg hdd,
      hs.directories]
    exact h.others d hdd
  · rw [hslot, if_neg (by omega)]
    exact h.rest j (by omega)
  · have hu' := h.untouched.trans (hu.mono hin)
    exact ⟨hu'.bits, hu'.framed, hu'.pages, hu'.contents⟩
  · by_cases hji : j = i
    · rw [hji]
      exact hnew
    · refine (h.slots j (by omega)).later (by omega) hC.zero h.frames ?_ ?_ ?_ ⟨hu.bits,
        hu.framed, hu.pages, hu.contents⟩
      · rw [h.live]
        exact List.mem_cons_self
      · rw [hslot, if_neg fun hc => hji hc.2]
      · simp only [withPaging, Paging.setTable, Paging.setDirectory, Function.update_apply, if_true,
          if_neg hji, hs.directories]

/-- **One slot of `Directory::Clone`.** -/
theorem Copying.next (h : Copying M src dir i t) (hC : Copyable M src)
    (hd : dir ∉ M.liveDirectories) (hi : i < arraySize)
    (hg : t.slot src i ≠ 0 → t.kernelSlot i ≠ t.slot src i → GivesVacant rounds fresh sizeofTable t)
    (hc : cloneTable (kallocPa rounds fresh) src dir i t = .ok u) : Copying M src dir (i + 1) u := by
  have hsd : src ≠ dir := fun he => hd (he ▸ hC.source)
  have hkd : M.paging.kernelDirectory ≠ dir := fun he => hd (he ▸ hC.kernel)
  have hsrc : ∀ j, t.slot src j = M.slot src j := h.slot_eq hsd
  have hker : ∀ j, t.kernelSlot j = M.kernelSlot j := fun j => by
    rw [kernelSlot, h.kernel, h.slot_eq hkd]
    rfl
  have hnamed : ∀ j < arraySize, t.slot src j ≠ 0 → t.Named (t.slot src j) := fun j hj h0 =>
    ⟨h0, src, by rw [h.live]; exact List.mem_cons_of_mem _ hC.source, j, hj, rfl⟩
  unfold cloneTable at hc
  dsimp only at hc
  split at hc
  · -- an empty slot
    rename_i h0
    cases hc
    have h0' : M.slot src i = 0 := (hsrc i).symm.trans h0
    refine ⟨h.live, h.kernel, h.others, fun j hj => h.rest j (by omega), h.frames, h.untouched,
      fun j hj => ?_⟩
    by_cases hji : j = i
    · rw [hji]
      exact ⟨fun _ => h.rest i (Nat.le_refl i), fun hne => absurd h0' hne,
        fun hne => absurd h0' hne, fun hne => absurd h0' hne⟩
    · exact h.slots j (by omega)
  · rename_i h0
    replace h0 : t.slot src i ≠ 0 := h0
    split at hc
    · -- the kernel's table
      rename_i hk
      replace hk : t.kernelSlot i = t.slot src i := hk
      cases hc
      refine h.setTable hC hd hi (.refl t) (h.frames.mono fun x hx => ?_) (.refl _ _ _)
        ⟨fun hz => absurd ((hsrc i).trans hz) h0, fun _ _ => ?_, fun _ hne => ?_, fun _ hne => ?_⟩
      · rcases hx with rfl | hx
        · exact hnamed i hi h0
        · exact hx
      · refine ⟨?_, ?_⟩
        · rw [slot_setTable, if_pos ⟨rfl, rfl⟩]
          exact hsrc i
        · simp only [withPaging, Paging.setTable, Paging.setDirectory, Function.update_self]
          rw [h.others src hsd]
      · exact absurd ((hsrc i).symm.trans (hk.symm.trans (hker i))) hne
      · exact absurd ((hsrc i).symm.trans (hk.symm.trans (hker i))) hne
    · -- a table of its own
      rename_i hk
      replace hk : t.kernelSlot i ≠ t.slot src i := hk
      obtain ⟨⟨p, phys, t'⟩, ht, hc⟩ := bind_ok.1 hc
      cases hc
      have hne : M.slot src i ≠ M.kernelSlot i := fun he => hk (by rw [hker, hsrc, he])
      have hown : ¬ M.KernelNamed (M.slot src i) := by
        rintro ⟨j, hj, he⟩
        have := hC.own i hi j hj (hsrc i ▸ h0) he.symm
        subst this
        exact hne he.symm
      have hvac : ∀ p phys M₁, kallocPa rounds fresh sizeofTable t = .ok (p, phys, M₁) → p ≠ 0 ∧
          ¬ t.Named p := fun p phys M₁ ha => by
        obtain ⟨hp0, -, htab⟩ := hg h0 hk p phys M₁ ha
        refine ⟨hp0, fun hp => ?_⟩
        have := htab p hp
        simp only [Apart, sizeofTable] at this
        omega
      obtain ⟨hcop, M₁, ha, hsame⟩ := tableClone_copied (S := t.Named) (K := M.KernelNamed) h.frames
        (h.untouched.bits 0 hC.zero) (fun j hj => ⟨j, hj, (hker j).symm⟩) (hnamed i hi h0)
        (by rw [hsrc]; exact hown)
        (fun p phys M₁ ha => (hvac p phys M₁ ha).2) ht
      obtain ⟨hp0, hpn⟩ := hvac p phys M₁ ha
      have hs : SameSlots t t' := by
        have hp := kallocPa_same ha
        have hl : M₁.liveDirectories = t.liveDirectories := kallocPa_live ha
        exact ⟨hsame.directories.trans hp.directories, hsame.kernel.trans hp.kernel,
          hsame.current.trans hp.current, hsame.liveDirectories.trans hl⟩
      have hslot : (t'.withPaging (t'.paging.setTable dir i p (phys ||| 0x7))).slot dir i = p := by
        rw [slot_setTable, if_pos ⟨rfl, rfl⟩]
      have hpk : ¬ M.KernelNamed p := by
        rintro ⟨j, hj, he⟩
        refine hpn ⟨hp0, M.paging.kernelDirectory, ?_, j, hj, ?_⟩
        · rw [h.live]
          exact List.mem_cons_of_mem _ hC.kernel
        · rw [h.slot_eq hkd]
          exact he
      refine h.setTable hC hd hi hs hcop.frames hcop.untouched
        ⟨fun hz => absurd ((hsrc i).trans hz) h0, fun _ he => absurd he hne,
          fun _ _ => by rw [hslot]; exact ⟨hp0, hpk⟩, fun _ _ e he => ?_⟩
      rw [hslot]
      have hcopied := hcop.copied e he
      rw [hsrc] at hcopied
      have hsource : PageIn M.Named ⟨M.slot src i, e⟩ :=
        ⟨⟨hsrc i ▸ h0, src, hC.source, i, hi, rfl⟩, he⟩
      have := hcopied.before h.untouched hC.frames hsource hown
      exact ⟨this.unframed, this.free, this.bits, this.contents⟩

theorem copying_start (hC : Copyable M src)
    (ha : kallocPa rounds fresh sizeofDirectory M = .ok (dir, phys, M₁)) :
    Copying M src dir 0 (M₁.newClone dir phys) := by
  have hcl := cloned_newClone M₁ src dir phys
  have hs := kallocPa_same ha
  have hlive := kallocPa_live ha
  have hu : Untouched M.Named M.KernelNamed M.paging M₁.paging :=
    kallocPa_untouched (fun i hi => ⟨i, hi, rfl⟩) ha
  have hH : HeldOnce M.Named M₁.paging := (kallocPa_each heldOnce_alloc.kernel _ _ hC.frames).ok ha
  have hzero : ∀ i, (M₁.newClone dir phys).slot dir i = 0 := fun i => by
    rw [slot, hcl.tables, if_neg (Nat.not_lt_zero i)]
  refine ⟨by rw [hcl.liveDirectories, hlive], hcl.kernel.trans hs.kernel, fun d hdd => ?_,
    fun i _ => hzero i, ?_, ?_, fun i hi => absurd hi (Nat.not_lt_zero i)⟩
  · rw [hcl.others d hdd, hs.directories]
  · refine (hH.mono ?_).congr hcl.frames hcl.pages
    rintro x ⟨hx0, d, hdl, j, hj, hx⟩
    by_cases hdd : d = dir
    · rw [hdd, hzero] at hx
      exact absurd hx.symm hx0
    · rw [hcl.liveDirectories, hlive] at hdl
      rw [slot, hcl.others d hdd, hs.directories] at hx
      exact ⟨hx0, d, (List.mem_cons.1 hdl).resolve_left hdd, j, hj, hx⟩
  · exact ⟨hu.bits, hu.framed, hu.pages, hu.contents⟩

/-! ## The copy -/

/-- The directory at `dir` in `M'` is a faithful copy of what the directory at `src` was in `M`, and
that directory is as it was, with the bytes in the frames of its own tables (the kernel's memory, which
the heap writes, is in those of the tables it shares). -/
structure FaithfulCopy (M : Kernel) (src dir : Nat) (M' : Kernel) : Prop where
  slots : ∀ i < arraySize, SlotCopied M src dir i M'
  distinct : ∀ i < arraySize, M.slot src i ≠ 0 → M.slot src i ≠ M.kernelSlot i → ∀ e < arraySize,
    (M.paging.page ⟨M.slot src i, e⟩).frame ≠ 0 → ∀ q, PageIn M'.Named q →
      q ≠ ⟨M'.slot dir i, e⟩ → (M'.paging.page q).frame ≠ (M'.paging.page ⟨M'.slot dir i, e⟩).frame
  directory : M'.paging.directories src = M.paging.directories src
  pages : ∀ i < arraySize, M.slot src i ≠ 0 → ∀ e < arraySize,
    M.slot src i ≠ M.kernelSlot i ∨ (M.paging.page ⟨M.slot src i, e⟩).frame ≠ 0 →
      M'.paging.page ⟨M.slot src i, e⟩ = M.paging.page ⟨M.slot src i, e⟩
  contents : ∀ i < arraySize, M.slot src i ≠ 0 → M.slot src i ≠ M.kernelSlot i → ∀ e < arraySize,
    (M.paging.page ⟨M.slot src i, e⟩).frame ≠ 0 → ∀ k < 4096,
      M'.paging.phys (frameToAddr (M.paging.page ⟨M.slot src i, e⟩).frame + k) =
        M.paging.phys (frameToAddr (M.paging.page ⟨M.slot src i, e⟩).frame + k)

/-- The copy is faithful where the memory given, for the directory and for each table, is vacant. -/
theorem Copyable.faithful (hC : Copyable M src) (hap : CopiesApart rounds fresh src M)
    (h : clone (kallocPa rounds fresh) src M = .ok (dir, M')) : FaithfulCopy M src dir M' := by
  obtain ⟨⟨dir', phys, M₁⟩, ha, h⟩ := bind_ok.1 h
  obtain ⟨M₂, h₂, h⟩ := bind_ok.1 h
  cases h
  have hd : dir ∉ M.liveDirectories := fun hd => by
    have := (hap.directory _ _ _ ha).directories dir hd
    simp only [Apart, sizeofDirectory] at this
    omega
  have hcop : Copying M src dir arraySize M' :=
    upTo_ok (I := fun n t => Copying M src dir n t) h₂ (copying_start hC ha)
      fun i t u hi ht hI hb => hI.next hC hd hi (hap.tables i hi t ⟨dir, phys, M₁, ha, ht⟩) hb
  have hsd : src ≠ dir := fun he => hd (he ▸ hC.source)
  have hin : ∀ i < arraySize, M.slot src i ≠ 0 → ∀ e < arraySize, PageIn M.Named ⟨M.slot src i, e⟩ :=
    fun i hi h0 e he => ⟨⟨h0, src, hC.source, i, hi, rfl⟩, he⟩
  refine ⟨hcop.slots, fun i hi h0 hne e he hf q hq hqne hqf => ?_, hcop.others src hsd,
    fun i hi h0 e he hor => ?_, fun i hi h0 _ e he hf k hk => ?_⟩
  · -- the frame was free, so it is not frame 0, and one page holds it
    have hs := hcop.slots i hi
    have hfree := (hs.copied h0 hne e he).free hf
    have hg0 : (M'.paging.page ⟨M'.slot dir i, e⟩).frame ≠ 0 := fun hz => by
      rw [hz, hC.zero] at hfree
      cases hfree
    have hr : PageIn M'.Named ⟨M'.slot dir i, e⟩ :=
      ⟨⟨(hs.made h0 hne).1, dir, by rw [hcop.live]; exact List.mem_cons_self, i, hi, rfl⟩, he⟩
    exact hqne (hcop.frames.alone q _ hq hr (hqf.symm ▸ hg0) hqf)
  · rcases hor with hne | hf
    · refine hcop.untouched.pages _ (hin i hi h0 e he) ?_
      rintro ⟨j, hj, hjk⟩
      have := hC.own i hi j hj h0 hjk.symm
      subst this
      exact hne hjk.symm
    · exact hcop.untouched.framed _ (hin i hi h0 e he) hf
  · exact hcop.untouched.contents _ (hC.frames.used _ (hin i hi h0 e he) hf) k hk

variable {made : List (Nat × Nat)} {held : HeapName → List (Nat × Nat)}

/-- **The memory given for a clone is vacant** where the kernel heap serves its requests. -/
theorem HousedWith.copiesApart (hH : Housed made held M) (hsrc : src ∈ M.liveDirectories)
    (hs : M.Serves .kheap (M.requests (.clone src) .kheap)) : CopiesApart rounds fresh src M := by
  refine ⟨fun p phys M₁ ha => (newClone_duplicating built_true hH hs hsrc ha).2,
    fun i hi t ⟨dir, phys, M₁, ha, ht⟩ h0 hne p phys' M₂ ha' => ?_⟩
  have hdup := clone_duplicating built_true hH hs hsrc ha (Nat.le_of_lt hi) ht
  obtain ⟨made', hH'⟩ := hdup.housed
  have hserves := hdup.serves
  rw [privateSlots_copied hi h0 hne.symm, tableRequests_succ] at hserves
  exact (hH'.kallocPa_vacant built_true hserves ha').2.2

theorem HousedWith.copyable (hH : Housed made held M) (hsrc : src ∈ M.liveDirectories)
    (hz : M.paging.frames.bit 0 = true) (hf : HeldOnce M.Named M.paging) : Copyable M src :=
  ⟨hH.kernel, hsrc, hz, hf, fun i hi j hj h0 he => hH.index src hsrc i hi _ hH.kernel j hj h0 he⟩

theorem initialize_heldOnce {base memEnd : Nat}
    (h : memoryInitialize rounds fresh memEnd (image base) = .ok M) :
    HeldOnce (fun _ => True) M.paging := by
  refine (memoryInitialize_kept heldOnce_build (show NoHeap (image base) from fun _ => rfl)
    ⟨?_, fun _ _ h0 => absurd rfl h0, fun _ _ _ _ h0 => absurd rfl h0⟩).ok h
  have hlt : memEnd * 1024 % 4294967296 < 4294967296 := Nat.mod_lt _ (by decide)
  show 32 * (numFrames memEnd / 32) ≤ 0x100000
  unfold numFrames
  omega

theorem Initialized.copyable {m : Nat} (h : Initialized m M)
    (hH : HeldOnce (fun _ => True) M.paging) : Copyable M firstClone := by
  obtain ⟨K, k, hb, hlow, -, -⟩ := h.identity
  have hbase := h.bumped.low
  have hle := hb.le
  have hfits := hb.fits
  refine ⟨?_, ?_, ?_, hH.mono fun _ _ => trivial, fun i hi j hj h0 he => ?_⟩
  · rw [h.directories]
    simp
  · rw [h.directories]
    exact List.mem_cons_self
  · rw [hb.bits 0 (by omega), decide_eq_true_iff]
    omega
  · have hi' : M.slot firstClone i = M.paging.kernelTable i := (h.shared i hi).1
    rw [hi'] at h0 he
    exact hb.apart i hi j hj h0 he

theorem Copyable.same (h : Copyable M src) (hP : M'.paging = M.paging)
    (hl : M'.liveDirectories = M.liveDirectories) : Copyable M' src := by
  obtain ⟨h1, h2, h3, h4, h5⟩ := h
  constructor
  · rwa [hP, hl]
  · rwa [hl]
  · rwa [hP]
  · refine (h4.congr (congrArg _ hP) (congrArg _ hP)).mono fun x hx => ?_
    simpa only [Named, slot, hP, hl] using hx
  · simpa only [slot, kernelSlot, hP] using h5

/-- The current directory has one page of its own, the first of slot 32. -/
structure OnePage (M : Kernel) : Prop where
  current : M.paging.currentDirectory = firstClone
  source : firstClone ∈ M.liveDirectories
  user : M.paging.kernelDirectory < kheapStart
  table : M.slot firstClone 32 = processTable
  unshared : M.kernelSlot 32 = 0
  shared : ∀ j < arraySize, j ≠ 32 → M.slot firstClone j = M.kernelSlot j
  heapTable : M.slot firstClone 768 ≠ 0
  page : (M.paging.page ⟨processTable, 0⟩).frame ≠ 0
  rest : ∀ e, e ≠ 0 → (M.paging.page ⟨processTable, e⟩).frame = 0
  clear : 0 < M.paging.frames.clearBits
  zero : M.paging.frames.bit 0 = true
  frames : HeldOnce (fun _ => True) M.paging
  kheap : HeapAt M .kheap 0xC0081000 kheapEnd processBlocks

theorem TableMade.onePage {u : Kernel} {P : Paging} (hinit : Initialized 512 M) (hu : TableMade M u)
    (hP : u.paging.allocFrame ⟨processTable, 0⟩ false true = .ok P)
    (hz : M.paging.frames.bit 0 = true) (hf : HeldOnce (fun _ => True) M.paging)
    (hc : 2 ≤ M.paging.frames.clearBits) : OnePage (u.withPaging P) := by
  have hs := allocFrame_same hP
  have hslot : ∀ d j, (u.withPaging P).slot d j = u.slot d j := fun d j => by
    show (P.directories d).tables j = _
    rw [hs.directories]
    rfl
  have hkd : (u.withPaging P).paging.kernelDirectory = M.paging.kernelDirectory :=
    hs.kernel.trans hu.kernel
  have hkernel : ∀ j, (u.withPaging P).kernelSlot j = M.paging.kernelTable j := fun j => by
    rw [kernelSlot, hslot, hkd, hu.slots, if_neg fun hc =>
      hinit.coherent.user (hinit.current.trans hc.1.symm)]
    rfl
  have hnew : ∀ j, j ≠ 32 → (u.withPaging P).slot firstClone j = M.slot firstClone j := fun j hj => by
    rw [hslot, hu.slots, if_neg fun hc => hj hc.2]
  have hheld : HeldOnce (fun _ => True) u.paging :=
    ((hf.newTable processTable).mono fun _ _ => .inr trivial).congr hu.frames hu.pages
  have h0 : (u.paging.page ⟨processTable, 0⟩).frame = 0 := by
    rw [hu.zero]
    rfl
  obtain ⟨f, -, hlt, hclear, hsz, hbits, hpage⟩ := allocFrame_gives hP h0
  have hf0 : f ≠ 0 := by
    rintro rfl
    rw [hu.frames, hz] at hclear
    cases hclear
  have hsize := hheld.size
  refine ⟨hs.current.trans hu.current, ?_, hkd ▸ hinit.kernel, ?_, ?_, fun j hlt hj => ?_, ?_, ?_,
    fun e he => ?_, ?_, ?_, heldOnce_alloc _ _ _ _ _ hheld hP, hu.kheap.congr rfl⟩
  · show firstClone ∈ u.liveDirectories
    rw [hu.liveDirectories, hinit.directories]
    exact List.mem_cons_self
  · rw [hslot, hu.slots, if_pos ⟨rfl, rfl⟩]
  · rw [hkernel, ← (hinit.shared 32 (by decide)).1]
    exact hinit.slot_empty (Nat.le_refl _) (by decide) not_heapSlot
  · rw [hnew j hj, hkernel]
    exact (hinit.shared j hlt).1
  · rw [hnew 768 (by decide)]
    exact hinit.current ▸ hinit.heapTable
  · rw [show (u.withPaging P).paging = P from rfl, hpage]
    show f % 0x100000 ≠ 0
    omega
  · rw [show (u.withPaging P).paging = P from rfl, allocFrame_page hP fun hc =>
      he (congrArg PagePtr.entry hc), hu.zero]
    rfl
  · have := Bitset.clearBits_set hsz hbits
    rw [hu.frames] at this
    show 0 < P.frames.clearBits
    omega
  · show P.frames.bit 0 = true
    rw [hbits, hu.frames, hz, Bool.or_true]

/-- Where the copy of the directory lies. -/
def processClone : Nat := 0xC0087000

/-- The kernel heap with this directory behind the first table. -/
def cloneBlocks : List Block :=
  [⟨false, 40⟩, ⟨true, 4052⟩, ⟨false, 8204⟩, ⟨true, 4084⟩, ⟨false, 4104⟩, ⟨true, 4088⟩, ⟨false, 8204⟩,
    ⟨true, 487416⟩]

theorem OnePage.serves (h : OnePage M) : M.Serves .kheap (M.requests (.clone firstClone) .kheap) := by
  have hone : M.privateSlots firstClone 0 = {32} := by
    ext j
    rw [mem_privateSlots, Finset.mem_singleton]
    constructor
    · rintro ⟨hj, -, -, hne⟩
      by_contra hj'
      exact hne (h.shared j hj hj')
    · rintro rfl
      refine ⟨by decide, Nat.zero_le _, ?_, ?_⟩
      · rw [h.table]
        decide
      · rw [h.table, h.unshared]
        decide
  show M.Serves .kheap (_ :: tableRequests (M.privateSlots firstClone 0).card)
  rw [hone, Finset.card_singleton, tableRequests_succ, tableRequests_zero]
  refine HeapAt.serves [⟨false, 40⟩, ⟨true, 4052⟩, ⟨false, 8204⟩, ⟨true, 4084⟩, ⟨false, 4104⟩]
    sizeofDirectory true h.kheap rfl (by decide) (by decide) (by decide) (by decide) (by decide)
    fun M' h' => ?_
  exact HeapAt.serves [⟨false, 40⟩, ⟨true, 4052⟩, ⟨false, 8204⟩, ⟨true, 4084⟩, ⟨false, 4104⟩,
    ⟨true, 4088⟩, ⟨false, 8204⟩] sizeofTable true (show HeapAt M' _ _ _ cloneBlocks from h') rfl
    (by decide) (by decide) (by decide) (by decide) (by decide) fun M' _ => serves_nil M' _

/-- While the directory is cloned: the directories are as they were, and up to slot 32 so are the
kernel heap and the table. -/
structure Cloning (M : Kernel) (i : Nat) (t : Kernel) : Prop where
  others : ∀ d, d ≠ processClone → t.paging.directories d = M.paging.directories d
  kernel : t.paging.kernelDirectory = M.paging.kernelDirectory
  current : t.paging.currentDirectory = M.paging.currentDirectory
  kheap : i ≤ 32 → HeapAt t .kheap 0xC0081000 kheapEnd cloneBlocks
  pages : i ≤ 32 → t.paging.tables = M.paging.tables ∧ t.paging.frames = M.paging.frames

theorem OnePage.cloneEntries (h : OnePage M) {N : Kernel} (dst : Nat) (hd : dst ≠ processTable)
    (hp : ∀ e, N.paging.page ⟨processTable, e⟩ = M.paging.page ⟨processTable, e⟩)
    (hf : N.paging.frames = M.paging.frames) :
    ∃ u, upTo (cloneEntry processTable dst) arraySize N = .ok u := by
  have hother : ∀ {e e' : Nat}, (⟨processTable, e⟩ : PagePtr) ≠ ⟨dst, e'⟩ := fun he =>
    hd (congrArg PagePtr.table he).symm
  have hloop := @upTo_meets _ _ (fun _ => False) (cloneEntry processTable dst)
    (fun e v => (∀ e, v.paging.page ⟨processTable, e⟩ = M.paging.page ⟨processTable, e⟩) ∧
      (e = 0 → v.paging.frames = M.paging.frames)) arraySize N ⟨hp, fun _ => hf⟩
    fun e v _ ⟨hp, hf⟩ => ?_
  · exact hloop.returns.imp fun _ h => h.1
  · unfold cloneEntry
    dsimp only
    by_cases h0 : (v.paging.page ⟨processTable, e⟩).frame = 0
    · rw [if_pos h0]
      exact .pure ⟨hp, fun he => absurd he (Nat.succ_ne_zero e)⟩
    · have he : e = 0 := by
        by_contra he
        exact h0 ((congrArg Page.frame (hp e)).trans (h.rest e he))
      obtain ⟨P, hP⟩ := Paging.allocFrame_ok (P := v.paging) (q := ⟨dst, e⟩) (k := false) (w := false)
        (hf he ▸ h.clear)
      rw [if_neg h0, hP, ok_bind]
      refine .pure ⟨fun e' => ?_, fun he => absurd he (Nat.succ_ne_zero e)⟩
      exact (page_setPage_ne _ hother).trans ((allocFrame_page hP hother).trans (hp e'))

/-- **`Table::Clone`** of this table. -/
theorem OnePage.tableClone (h : OnePage M) {t : Kernel} (hc : Cloning M 32 t) (rounds : Nat)
    (fresh : Mem) : ∃ p phys u, tableClone (kallocPa rounds fresh) processTable t = .ok (p, phys, u) ∧
      u.paging.directories = t.paging.directories ∧
      u.paging.kernelDirectory = t.paging.kernelDirectory ∧
      u.paging.currentDirectory = t.paging.currentDirectory := by
  have hcur : (t.paging.directories t.paging.currentDirectory).tables 768 ≠ 0 := by
    rw [hc.current, h.current, hc.others _ (by decide)]
    exact h.heapTable
  obtain ⟨s, phys, ha, hs, -, -⟩ := HeapAt.alloc rounds fresh [⟨false, 40⟩, ⟨true, 4052⟩,
    ⟨false, 8204⟩, ⟨true, 4084⟩, ⟨false, 4104⟩, ⟨true, 4088⟩, ⟨false, 8204⟩] sizeofTable true true
    (hc.kheap (Nat.le_refl _)) rfl (by decide) (by decide) (by decide) (by decide) (by decide)
    fun _ => hcur
  replace ha : kallocPa rounds fresh sizeofTable t = .ok (0xC008A000, phys, t.putHeap .kheap s) := ha
  obtain ⟨htab, hfr⟩ := hc.pages (Nat.le_refl _)
  obtain ⟨u, hu⟩ := h.cloneEntries (N := (t.putHeap .kheap s).newTable 0xC008A000)
    0xC008A000 (by decide) (fun e => by
      show Function.update (t.putHeap .kheap s).paging.tables 0xC008A000 (fun _ => Page.zero)
        processTable e = _
      rw [Function.update_of_ne (by decide), hs.paging, htab]
      rfl) (by
      show (t.putHeap .kheap s).paging.frames = _
      rw [hs.paging, hfr])
  have hsame := cloneEntries_same.ok hu
  refine ⟨0xC008A000, phys, u, ?_, ?_, ?_, ?_⟩
  · unfold Machine.tableClone
    rw [ha, ok_bind]
    dsimp only
    rw [hu]
    rfl
  · rw [hsame.directories]
    show (t.putHeap .kheap s).paging.directories = _
    rw [hs.paging]
  · rw [hsame.kernel]
    show (t.putHeap .kheap s).paging.kernelDirectory = _
    rw [hs.paging]
  · rw [hsame.current]
    show (t.putHeap .kheap s).paging.currentDirectory = _
    rw [hs.paging]

theorem Cloning.setTable {t u : Kernel} {tb entry : Nat} (h : Cloning M i t)
    (hd : u.paging.directories = t.paging.directories)
    (hk : u.paging.kernelDirectory = t.paging.kernelDirectory)
    (hc : u.paging.currentDirectory = t.paging.currentDirectory)
    (hsame : i < 32 → u.allocator = t.allocator ∧ u.paging.tables = t.paging.tables ∧
      u.paging.frames = t.paging.frames) :
    Cloning M (i + 1) (u.withPaging (u.paging.setTable processClone i tb entry)) := by
  refine ⟨fun d hdd => ?_, hk.trans h.kernel, hc.trans h.current, fun hi => ?_, fun hi => ?_⟩
  · simp only [withPaging, Paging.setTable, Paging.setDirectory, Function.update_apply, if_neg hdd, hd]
    exact h.others d hdd
  · exact (h.kheap (by omega)).congr (hsame hi).1
  · obtain ⟨h1, h2⟩ := h.pages (by omega)
    exact ⟨(hsame hi).2.1.trans h1, (hsame hi).2.2.trans h2⟩

/-- **A process with one page is cloned.** -/
theorem OnePage.clone (h : OnePage M) (rounds : Nat) (fresh : Mem) :
    ∃ M', clone (kallocPa rounds fresh) firstClone M = .ok (processClone, M') := by
  have hcur : (M.paging.directories M.paging.currentDirectory).tables 768 ≠ 0 := by
    rw [h.current]
    exact h.heapTable
  obtain ⟨s, phys, ha, hs, hk, -⟩ := HeapAt.alloc rounds fresh
    [⟨false, 40⟩, ⟨true, 4052⟩, ⟨false, 8204⟩, ⟨true, 4084⟩, ⟨false, 4104⟩] sizeofDirectory true true
    h.kheap rfl (by decide) (by decide) (by decide) (by decide) (by decide) fun _ => hcur
  replace ha : kallocPa rounds fresh sizeofDirectory M =
    .ok (processClone, phys, M.putHeap .kheap s) := ha
  have hcl := cloned_newClone (M.putHeap .kheap s) firstClone processClone phys
  have hker : M.paging.kernelDirectory ≠ processClone := by
    have := h.user
    rw [kheapStart_eq] at this
    rw [processClone]
    omega
  have hstart : Cloning M 0 ((M.putHeap .kheap s).newClone processClone phys) :=
    ⟨fun d hd => by rw [hcl.others d hd, hs.paging], by rw [hcl.kernel, hs.paging],
      by rw [hcl.current, hs.paging], fun _ => hk.congr hcl.allocator, fun _ =>
        ⟨by rw [hcl.pages, hs.paging], by rw [hcl.frames, hs.paging]⟩⟩
  have hloop := @upTo_meets _ _ (fun _ => False)
    (cloneTable (kallocPa rounds fresh) firstClone processClone) (Cloning M) arraySize _ hstart
    fun i t hi hc => ?_
  · obtain ⟨M', h', -⟩ := hloop.returns
    refine ⟨M', ?_⟩
    unfold Machine.clone
    rw [ha, ok_bind]
    dsimp only
    rw [h']
    rfl
  · have hslot : (t.paging.directories firstClone).tables i = M.slot firstClone i := by
      rw [hc.others _ (by decide)]
      rfl
    have hkslot : (t.paging.directories t.paging.kernelDirectory).tables i = M.kernelSlot i := by
      rw [hc.kernel, hc.others _ hker]
      rfl
    unfold cloneTable
    dsimp only
    rw [hslot, hkslot]
    split
    · exact .pure ⟨hc.others, hc.kernel, hc.current, fun hi => hc.kheap (by omega),
        fun hi => hc.pages (by omega)⟩
    · split
      · exact .pure (hc.setTable rfl rfl rfl fun _ => ⟨rfl, rfl, rfl⟩)
      · rename_i hne
        have hi32 : i = 32 := by
          by_contra hi'
          exact hne (h.shared i hi hi').symm
        subst hi32
        rw [h.table]
        obtain ⟨p, ph, u, hu, h1, h2, h3⟩ := h.tableClone hc rounds fresh
        rw [hu, ok_bind]
        exact .pure (hc.setTable h1 h2 h3 fun hlt => absurd hlt (Nat.lt_irrefl _))

end Kernel

end Dmanix
