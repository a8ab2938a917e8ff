import Dmanix.Memory.Proof.FirstPage
import Dmanix.Memory.Proof.Present

/-!
# A page that is given a frame again

The changes of the paging state, with the ghost list of `Frames` carried along: the newest entry of a
page is the frame `AllocFrame` gave it last. `Traced` is the kernel with this list: `memory::Initialize`
and every call make a run of such changes (`Traced.exists_run`). The calls are in order
(`Kernel.CallOk`), so that tables and directories keep memory of their own.

`AllocFrame` reads off a page's frame number whether it has a frame. So a call on a page with a frame
does nothing, unless it is frame 0: `allocFrame_again`.
-/

namespace Dmanix

open Word32 Bytes Outcome

/-- A change of the paging state. -/
inductive FrameChange where
  | alloc (q : PagePtr) (isKernel isWriteable : Bool)
  | free (q : PagePtr)
  /-- `new (table) Table()` -/
  | table (table : Nat)
  /-- the bits of an entry, without its frame (`Table::Clone`) -/
  | entry (q : PagePtr) (v : Page)
  /-- what is no page entry -/
  | rest (directories : Nat → Directory) (kernelDirectory currentDirectory : Nat) (phys : Mem)

namespace Frames

/-- One change. -/
def change : FrameChange → Frames → Except Halt Frames
  | .alloc q k w, s => s.allocFrame q k w
  | .free q, s => s.freeFrame q
  | .table t, s => return s.newTable t
  | .entry q v, s => return { s with
      paging := s.paging.setPage q { v with frame := (s.paging.page q).frame } }
  | .rest d k c m, s => return { s with
      paging := { s.paging with
        directories := d, kernelDirectory := k, currentDirectory := c, phys := m } }

/-- One change, as a step. -/
def Changes (s : Frames) (c : FrameChange) (s' : Frames) : Prop := change c s = .ok s'

/-- Any run. -/
abbrev Run : Frames → Frames → Prop := Guarded.Run Changes fun _ _ => True

/-! ## The kernel's calls -/

/-- A paging state that a run from `s` reaches. -/
def Reached (s : Frames) (P : Paging) : Prop := ∃ t, Run s t ∧ t.paging = P

theorem Run.change {s t u : Frames} (h : Run s t) {c : FrameChange} (hc : Changes t c u) :
    Reached s u.paging := ⟨u, h.tail trivial hc, rfl⟩

theorem reached_kept (s : Frames) : ChangeKeeps (Reached s) where
  alloc := by
    rintro P P' q k w ⟨t, ht, rfl⟩ ha
    exact ht.change (c := .alloc q k w) (u := ⟨P', _⟩) (bind_ok.2 ⟨P', ha, rfl⟩)
  free := by
    rintro P P' q ⟨t, ht, rfl⟩ hf
    exact ht.change (c := .free q) (u := ⟨P', _⟩) (bind_ok.2 ⟨P', hf, rfl⟩)
  table := by
    rintro P p ⟨t, ht, rfl⟩
    exact ht.change (c := .table p) rfl
  entry := by
    rintro P P' q k w v ⟨t, ht, rfl⟩ ha hv
    have ha' : Changes t (.alloc q k w) ⟨P', _⟩ := bind_ok.2 ⟨P', ha, rfl⟩
    have h := Run.change (ht.tail trivial ha') (c := .entry q v) rfl
    rwa [show ({ v with frame := (P'.page q).frame } : Page) = v from hv ▸ rfl] at h
  rest := by
    rintro P ⟨b, tables, d, k, c, m⟩ ⟨t, ht, rfl⟩ rfl rfl
    exact ht.change (c := .rest d k c m) rfl

end Frames

/-- The kernel's callers with the frames that `AllocFrame` gave the pages. -/
structure Traced where
  callers : Callers
  frames : Frames

namespace Traced

/-- A call, with what it does to the paging state. -/
def Step (x : Traced) (p : Kernel.Performed) (y : Traced) : Prop :=
  Callers.Step x.callers p y.callers ∧ Frames.Run x.frames y.frames ∧
    y.frames.paging = y.callers.kernel.paging

/-- The guard of runs. -/
def CallOk (x : Traced) (p : Kernel.Performed) : Prop := x.callers.CallOk p

/-- A state `memory::Initialize` leaves, with the frames it gave from the all-clear bit set on. -/
def Started (x : Traced) : Prop :=
  (∃ rounds fresh memEnd M₀, Kernel.Start M₀ ∧
    Kernel.memoryInitialize rounds fresh memEnd M₀ = .ok x.callers.kernel ∧
    Kernel.Below x.callers.kernel ∧
    Frames.Run (.start M₀.paging (Kernel.numFrames memEnd)) x.frames) ∧
  x.frames.paging = x.callers.kernel.paging ∧ ∀ name, x.callers.held name = []

theorem Started.callers {x : Traced} (h : Started x) : x.callers.Started := by
  obtain ⟨⟨rounds, fresh, memEnd, M₀, hs, hok, hb, -⟩, -, hheld⟩ := h
  exact ⟨⟨rounds, fresh, memEnd, M₀, hs, hok, hb⟩, hheld⟩

/-- **Every run of calls is traced.** -/
theorem exists_run {c₀ c : Callers} (h₀ : c₀.Started)
    (h : Guarded.Run Callers.Step Callers.CallOk c₀ c) :
    ∃ s₀ s, Started ⟨c₀, s₀⟩ ∧ Guarded.Run Step CallOk ⟨c₀, s₀⟩ ⟨c, s⟩ := by
  obtain ⟨⟨rounds, fresh, memEnd, M₀, hs, hok, hb⟩, hheld⟩ := h₀
  have hk := Frames.reached_kept (Frames.start M₀.paging (Kernel.numFrames memEnd))
  obtain ⟨s₀, hrun, hpaging⟩ : Frames.Reached _ c₀.kernel.paging :=
    (Kernel.memoryInitialize_kept hk.toBuildKeeps hs.noHeap ⟨_, .refl, rfl⟩).ok hok
  have hex : ∃ s, Guarded.Run Step CallOk ⟨c₀, s₀⟩ ⟨c, s⟩ ∧ s.paging = c.kernel.paging := by
    induction h with
    | refl => exact ⟨s₀, .refl, hpaging⟩
    | @tail t u p _ hg hst ih =>
      obtain ⟨s, hs, hp⟩ := ih
      obtain ⟨v, hv, hvp⟩ : Frames.Reached s u.kernel.paging :=
        (Kernel.perform_kept (Frames.reached_kept s) ⟨s, .refl, hp⟩).ok hst.kernel.2
      have hstep : Step ⟨t, s⟩ p ⟨u, v⟩ := ⟨hst, hv, hvp⟩
      exact ⟨v, hs.tail hg hstep, hvp⟩
  obtain ⟨s, hs, -⟩ := hex
  exact ⟨s₀, s, ⟨⟨rounds, fresh, memEnd, M₀, ‹_›, hok, hb, hrun⟩, hpaging, hheld⟩, hs⟩

theorem run_frames {x y : Traced} (h : Guarded.Run Step CallOk x y)
    (hx : x.frames.paging = x.callers.kernel.paging) :
    Frames.Run x.frames y.frames ∧ y.frames.paging = y.callers.kernel.paging :=
  h.invariant (P := fun y => Frames.Run x.frames y.frames ∧
    y.frames.paging = y.callers.kernel.paging) ⟨.refl, hx⟩
    fun _ _ _ ht _ hs => ⟨ht.1.trans hs.2.1, hs.2.2⟩

end Traced

namespace Frames

/-! ## The frame a page was given last -/

/-- The newest entry of a page in a list of held frames. -/
def newest (q : PagePtr) (l : List (PagePtr × Nat)) : Option Nat :=
  (l.find? fun h => h.1 = q).map (·.2)

/-- The frame `AllocFrame` gave a page last, if it was not freed since. -/
def last (s : Frames) (q : PagePtr) : Option Nat := newest q s.held

theorem newest_self (q : PagePtr) (f : Nat) (l : List (PagePtr × Nat)) :
    newest q ((q, f) :: l) = some f := by
  simp [newest]

theorem newest_ne {q r : PagePtr} (f : Nat) (l : List (PagePtr × Nat)) (h : r ≠ q) :
    newest r ((q, f) :: l) = newest r l := by
  simp [newest, h.symm]

/-- What is left of a list is of pages that stay, and their newest. -/
theorem newest_filter (l : List (PagePtr × Nat)) (p : PagePtr → Bool) (r : PagePtr) :
    newest r (l.filter fun x => p x.1) = if p r then newest r l else none := by
  unfold newest
  rw [List.find?_filter]
  by_cases hp : p r
  · rw [if_pos hp]
    congr 1
    refine congrArg (List.find? · l) (funext fun x => ?_)
    by_cases hx : x.1 = r <;> simp [hx, hp]
  · rw [if_neg hp, List.find?_eq_none.2 fun x _ => ?_]
    · rfl
    · by_cases hx : x.1 = r <;> simp [hx, hp]

theorem newest_stays {l : List (PagePtr × Nat)} {p : PagePtr → Bool} {r : PagePtr} {f : Nat}
    (h : newest r (l.filter fun x => p x.1) = some f) : p r = true ∧ newest r l = some f := by
  rw [newest_filter] at h
  split at h
  · exact ⟨‹_›, h⟩
  · cases h

/-- The frame field of a page is the frame it was given last. -/
structure FieldsLast (s : Frames) : Prop where
  size : 32 * s.paging.frames.size ≤ 0x100000
  field : ∀ q f, s.last q = some f → (s.paging.page q).frame = f

section
variable {s s' : Frames} {q : PagePtr} {k w : Bool}

theorem FieldsLast.alloc (h : FieldsLast s) (hs : s.allocFrame q k w = .ok s') : FieldsLast s' := by
  obtain ⟨P', hP, hs⟩ := bind_ok.1 hs
  cases hs
  by_cases h0 : (s.paging.page q).frame = 0
  · obtain ⟨f, hn, hlt, -, hsz, -, hpage⟩ := Paging.allocFrame_gives hP h0
    have hg : given s.paging q = some f := (if_pos h0).trans hn
    have hsize := h.size
    rw [hg]
    refine ⟨hsz.symm ▸ hsize, fun r g hr => ?_⟩
    replace hr : newest r ((q, f) :: s.held) = some g := hr
    by_cases hrq : r = q
    · subst hrq
      rw [newest_self] at hr
      cases hr
      show (P'.page r).frame = f
      rw [hpage]
      exact Nat.mod_eq_of_lt (by omega)
    · rw [newest_ne f s.held hrq] at hr
      show (P'.page r).frame = g
      rw [Paging.allocFrame_page hP hrq]
      exact h.field r g hr
  · have hg : given s.paging q = none := if_neg h0
    rw [hg]
    rcases Paging.allocFrame_cases hP with ⟨-, rfl⟩ | ⟨hz, -⟩
    · exact h
    · exact absurd hz h0

theorem FieldsLast.free (h : FieldsLast s) (hs : s.freeFrame q = .ok s') : FieldsLast s' := by
  obtain ⟨P', hP, hs⟩ := bind_ok.1 hs
  cases hs
  refine ⟨(Paging.freeFrame_same hP).size.symm ▸ h.size, fun r f hr => ?_⟩
  obtain ⟨hrq, hr⟩ := newest_stays (p := fun r => decide (r ≠ q)) hr
  show (P'.page r).frame = f
  rw [Paging.freeFrame_page hP (of_decide_eq_true hrq)]
  exact h.field r f hr

theorem FieldsLast.newTable (h : FieldsLast s) (t : Nat) : FieldsLast (s.newTable t) := by
  refine ⟨h.size, fun r f hr => ?_⟩
  obtain ⟨hrt, hr⟩ := newest_stays (p := fun r => decide (r.table ≠ t)) hr
  rw [← h.field r f hr]
  show (Function.update s.paging.tables t (fun _ => Page.zero) r.table r.entry).frame = _
  rw [Function.update_of_ne (of_decide_eq_true hrt)]
  rfl

theorem FieldsLast.entry (h : FieldsLast s) (v : Page) : FieldsLast { s with
    paging := s.paging.setPage q { v with frame := (s.paging.page q).frame } } := by
  refine ⟨h.size, fun r f hr => ?_⟩
  rw [← h.field r f hr]
  by_cases hrq : r = q
  · rw [hrq]
    show ((s.paging.setPage q _).page q).frame = _
    rw [Paging.page_setPage_self]
  · show ((s.paging.setPage q _).page r).frame = _
    rw [Paging.page_setPage_ne _ hrq]

/-- **Every change** keeps it. -/
theorem FieldsLast.change {c : FrameChange} (h : FieldsLast s) (hs : Changes s c s') :
    FieldsLast s' := by
  cases c with
  | alloc q k w => exact h.alloc hs
  | free q => exact h.free hs
  | table t =>
    cases hs
    exact h.newTable t
  | entry q v =>
    cases hs
    exact h.entry v
  | rest d k c m =>
    cases hs
    exact ⟨h.size, h.field⟩

/-! ## `AllocFrame` again -/

/-- `AllocFrame` does nothing just when the page's frame number is not 0. -/
theorem allocFrame_same_iff {P : Paging} :
    P.allocFrame q k w = .ok P ↔ (P.page q).frame ≠ 0 := by
  constructor
  · intro h h0
    obtain ⟨f, -, -, hclear, -, hbit, -⟩ := Paging.allocFrame_gives h h0
    have := hbit f
    rw [hclear, beq_self_eq_true] at this
    cases this
  · intro h0
    exact if_pos h0

end

theorem fieldsLast_start {P : Paging} {memEnd : Nat} :
    FieldsLast (start P (Kernel.numFrames memEnd)) :=
  ⟨Kernel.numFrames_le memEnd, fun _ _ h => by cases h⟩

/-- Every page that is present or has a frame number was given that frame last. -/
structure GivenLast (s : Frames) : Prop where
  size : 32 * s.paging.frames.size ≤ 0x100000
  last : ∀ q, (s.paging.page q).present = true ∨ (s.paging.page q).frame ≠ 0 →
    s.last q = some (s.paging.page q).frame

section
variable {s s' : Frames} {q : PagePtr} {k w : Bool}

/-- `AllocFrame` keeps it, and so its page was given its frame. -/
theorem GivenLast.alloc (h : GivenLast s) (hs : s.allocFrame q k w = .ok s') :
    GivenLast s' ∧ s'.last q = some (s'.paging.page q).frame := by
  obtain ⟨P', hP, hs⟩ := bind_ok.1 hs
  cases hs
  by_cases h0 : (s.paging.page q).frame = 0
  · obtain ⟨f, hn, hlt, -, hsz, -, hpage⟩ := Paging.allocFrame_gives hP h0
    have hg : given s.paging q = some f := (if_pos h0).trans hn
    have hsize := h.size
    have hfield : (P'.page q).frame = f := by
      rw [hpage]
      exact Nat.mod_eq_of_lt (by omega)
    rw [hg]
    have hq : newest q ((q, f) :: s.held) = some (P'.page q).frame := by
      rw [newest_self, hfield]
    refine ⟨⟨hsz.symm ▸ hsize, fun r hr => ?_⟩, hq⟩
    show newest r ((q, f) :: s.held) = some (P'.page r).frame
    by_cases hrq : r = q
    · rw [hrq]
      exact hq
    · have hpr : P'.page r = s.paging.page r := Paging.allocFrame_page hP hrq
      rw [newest_ne f s.held hrq, hpr]
      exact h.last r (hpr ▸ hr)
  · have hg : given s.paging q = none := if_neg h0
    rw [hg]
    rcases Paging.allocFrame_cases hP with ⟨-, rfl⟩ | ⟨hz, -⟩
    · exact ⟨h, h.last q (.inr h0)⟩
    · exact absurd hz h0

theorem GivenLast.newTable (h : GivenLast s) (t : Nat) : GivenLast (s.newTable t) := by
  refine ⟨h.size, fun r hr => ?_⟩
  by_cases hrt : r.table = t
  · have hz : (s.newTable t).paging.page r = Page.zero := by
      show Function.update s.paging.tables t (fun _ => Page.zero) r.table r.entry = _
      rw [hrt, Function.update_self]
    rw [hz] at hr
    rcases hr with hr | hr
    · cases hr
    · exact absurd rfl hr
  · have hpage : (s.newTable t).paging.page r = s.paging.page r := by
      show Function.update s.paging.tables t (fun _ => Page.zero) r.table r.entry = _
      rw [Function.update_of_ne hrt]
      rfl
    rw [hpage] at hr ⊢
    show newest r (s.held.filter fun x => decide (x.1.table ≠ t)) = _
    rw [newest_filter s.held fun r => decide (r.table ≠ t), if_pos (decide_eq_true hrt)]
    exact h.last r hr

theorem GivenLast.entry (h : GivenLast s) (hq : s.last q = some (s.paging.page q).frame) (v : Page) :
    GivenLast { s with
      paging := s.paging.setPage q { v with frame := (s.paging.page q).frame } } := by
  refine ⟨h.size, fun r hr => ?_⟩
  by_cases hrq : r = q
  · subst hrq
    show s.last r = some ((s.paging.setPage r _).page r).frame
    rw [Paging.page_setPage_self]
    exact hq
  · have hpage : (s.paging.setPage q { v with frame := (s.paging.page q).frame }).page r =
      s.paging.page r := Paging.page_setPage_ne _ hrq
    show s.last r = some ((s.paging.setPage q _).page r).frame
    rw [hpage]
    exact h.last r (hpage ▸ hr)

end

theorem givenLast_build (s : Frames) :
    BuildKeeps fun P => ∃ t, Run s t ∧ t.paging = P ∧ GivenLast t where
  alloc := by
    rintro P P' q k w ⟨t, ht, rfl, hg⟩ ha
    have hc : Changes t (.alloc q k w) ⟨P', _⟩ := bind_ok.2 ⟨P', ha, rfl⟩
    exact ⟨_, ht.tail trivial hc, rfl, (hg.alloc hc).1⟩
  table := by
    rintro P p ⟨t, ht, rfl, hg⟩
    exact ⟨_, ht.tail trivial (i := .table p) rfl, rfl, hg.newTable p⟩
  entry := by
    rintro P P' q k w v ⟨t, ht, rfl, hg⟩ ha hv
    have hc : Changes t (.alloc q k w) ⟨P', _⟩ := bind_ok.2 ⟨P', ha, rfl⟩
    obtain ⟨hg', hq⟩ := hg.alloc hc
    have hv' : ({ v with frame := (P'.page q).frame } : Page) = v := hv ▸ rfl
    refine ⟨_, (ht.tail trivial hc).tail trivial (i := .entry q v) rfl, ?_,
      hg'.entry hq v⟩
    show P'.setPage q { v with frame := (P'.page q).frame } = _
    rw [hv']
  rest := by
    rintro P ⟨b, tables, d, k, c, m⟩ ⟨t, ht, rfl, hg⟩ rfl rfl
    exact ⟨_, ht.tail trivial (i := .rest d k c m) rfl, rfl, hg.size, hg.last⟩

theorem image_traced : ∃ x, Traced.Started x ∧ Kernel.Initialized 512 x.callers.kernel ∧
    0 < x.callers.kernel.paging.frames.clearBits ∧ GivenLast x.frames ∧
    x.callers.held = fun _ => [] := by
  obtain ⟨M, hM, hb, hinit, K, k, hback, hk⟩ := Kernel.image_initialized
  have hstart : Kernel.Start (Kernel.image 0x200000) := Kernel.start_image (by decide) (by decide)
  obtain ⟨s, hrun, hp, hg⟩ := (Kernel.memoryInitialize_kept (givenLast_build _) hstart.noHeap
    ⟨start (Kernel.image 0x200000).paging (Kernel.numFrames 65536), .refl, rfl,
      Kernel.numFrames_le _, fun q hq => by
        rcases hq with hq | hq
        · cases hq
        · exact absurd rfl hq⟩).ok hM
  refine ⟨⟨⟨M, fun _ => []⟩, s⟩, ⟨⟨1, _, 65536, _, hstart, hM, hb, hrun⟩, hp, fun _ => rfl⟩, hinit,
    ?_, hg, rfl⟩
  show 0 < M.paging.frames.clearBits
  rw [Bitset.clearBits_from hback.bits, hinit.size]
  omega

end Frames

end Dmanix
