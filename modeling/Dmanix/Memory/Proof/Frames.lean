import Dmanix.Memory.Paging
import Dmanix.Lib.Run

/-!
# Who holds a frame

A run of `AllocFrame` and `FreeFrame` calls with a ghost list of who holds what: a page holds the
frame an `AllocFrame` call gave it until `FreeFrame` is called on the page. `Owned`: the frame bit
set is the set of held frames and no frame has two holders.

`FreeFrame` clears the bit of the frame number divided by 4096, and treats frame 0 as no frame, so
it never gives back the frame it takes: `freeFrame_not_owned`. Every run that calls it only on
pages holding nothing keeps `Owned`: `FrameRun.owned`.
-/

namespace Dmanix

/-- A call on one page. -/
inductive FrameCall where
  | alloc (q : PagePtr) (isKernel isWriteable : Bool)
  | free (q : PagePtr)

/-- The paging state with the frames each page holds. -/
structure Frames where
  paging : Paging
  held : List (PagePtr × Nat)

namespace Frames

/-- The frame an `AllocFrame` call on `q` gives, if it gives one. -/
def given (P : Paging) (q : PagePtr) : Option Nat :=
  if (P.page q).frame = 0 then P.frames.next else none

/-- One call. -/
inductive Step : Frames → FrameCall → Frames → Prop
  | alloc {s : Frames} {q : PagePtr} {k w : Bool} {P' : Paging} :
      s.paging.allocFrame q k w = .ok P' →
      Step s (.alloc q k w) ⟨P', (given s.paging q).toList.map (q, ·) ++ s.held⟩
  | free {s : Frames} {q : PagePtr} {P' : Paging} : s.paging.freeFrame q = .ok P' →
      Step s (.free q) ⟨P', s.held.filter (·.1 ≠ q)⟩

/-- `q` holds `f`. -/
def Holds (s : Frames) (q : PagePtr) (f : Nat) : Prop := (q, f) ∈ s.held

/-- **Frame ownership**: a bit is set exactly when some page holds its frame, and no two pages
hold the same frame. -/
def Owned (s : Frames) : Prop :=
  (∀ f < 32 * s.paging.frames.size, s.paging.frames.bit f = true ↔ ∃ q, s.Holds q f) ∧
  ∀ q q' f, s.Holds q f → s.Holds q' f → q = q'

/-- A call that does not take a frame back: any `AllocFrame`, and `FreeFrame` of a page holding
nothing. -/
def KeepsFrames (s : Frames) : FrameCall → Prop
  | .alloc _ _ _ => True
  | .free q => ∀ f, ¬ s.Holds q f

/-- An all-clear bit set of `n` bits and pages without frames. -/
def start (P : Paging) (n : Nat) : Frames := ⟨{ P with frames := .create n }, []⟩

/-- Pages without frames. -/
def Unmapped (P : Paging) : Prop := ∀ q, (P.page q).frame = 0

/-! ## The invariant -/

/-- `Owned`, with held frames inside the bit set and every frame field (20 bits) taken from a held
frame. -/
structure Inv (s : Frames) : Prop where
  owned : s.Owned
  below : ∀ q f, s.Holds q f → f < 32 * s.paging.frames.size
  field : ∀ q, (s.paging.page q).frame ≠ 0 →
    ∃ f, s.Holds q f ∧ (s.paging.page q).frame = f % 0x100000

theorem inv_start {P : Paging} {n : Nat} (h : Unmapped P) : Inv (start P n) := by
  refine ⟨⟨fun f _ => ?_, fun q _ _ hq => ?_⟩, fun q _ hq => ?_, fun q hq => absurd (h q) hq⟩
  · simp [start, Holds]
  · cases hq
  · cases hq

theorem mem_held {q r : PagePtr} {f g : Nat} {s : Frames} :
    (r, g) ∈ (q, f) :: s.held ↔ r = q ∧ g = f ∨ s.Holds r g := by
  rw [List.mem_cons, Prod.mk.injEq]
  rfl

/-- A frame nobody holds, given to a page, has that holder alone. -/
theorem alone_given {s : Frames} {q : PagePtr} {f : Nat} (hfree : ∀ r, ¬ s.Holds r f)
    (h : ∀ q r g, s.Holds q g → s.Holds r g → q = r) {r r' : PagePtr} {g : Nat}
    (hr : (r, g) ∈ (q, f) :: s.held) (hr' : (r', g) ∈ (q, f) :: s.held) : r = r' := by
  rcases mem_held.1 hr with ⟨hrq, hgf⟩ | h1 <;> rcases mem_held.1 hr' with ⟨hrq', hgf'⟩ | h2
  · exact hrq.trans hrq'.symm
  · exact absurd (hgf ▸ h2) (hfree r')
  · exact absurd (hgf' ▸ h1) (hfree r)
  · exact h r r' g h1 h2

theorem inv_alloc {s s' : Frames} {q : PagePtr} {k w : Bool} (hi : Inv s)
    (hs : Step s (.alloc q k w) s') : Inv s' := by
  cases hs with
  | @alloc _ _ _ P' h =>
    by_cases h0 : (s.paging.page q).frame = 0
    · obtain ⟨f, hn, hlt, hclear, hsz, hbit, hpage⟩ := Paging.allocFrame_gives h h0
      have hg : given s.paging q = some f := (if_pos h0).trans hn
      rw [hg]
      have hfree : ∀ r, ¬ s.Holds r f := fun r hr => by
        rw [(hi.owned.1 f hlt).2 ⟨r, hr⟩] at hclear
        cases hclear
      refine ⟨⟨fun g hg' => ?_, fun r r' g hr hr' => alone_given hfree hi.owned.2 hr hr'⟩,
        fun r g hr => ?_, fun r hr => ?_⟩
      · show P'.frames.bit g = true ↔ ∃ r, (r, g) ∈ (q, f) :: s.held
        rw [hbit, Bool.or_eq_true, beq_iff_eq, hi.owned.1 g (hsz ▸ hg')]
        constructor
        · rintro (rfl | ⟨r, hr⟩)
          · exact ⟨q, mem_held.2 (.inl ⟨rfl, rfl⟩)⟩
          · exact ⟨r, mem_held.2 (.inr hr)⟩
        · rintro ⟨r, hr⟩
          rcases mem_held.1 hr with ⟨-, rfl⟩ | hr
          · exact .inl rfl
          · exact .inr ⟨r, hr⟩
      · rcases mem_held.1 hr with ⟨-, rfl⟩ | hr
        · exact hsz.symm ▸ hlt
        · exact hsz.symm ▸ hi.below r g hr
      · by_cases hrq : r = q
        · subst hrq
          exact ⟨f, mem_held.2 (.inl ⟨rfl, rfl⟩), by rw [hpage]⟩
        · rw [Paging.allocFrame_page h hrq] at hr ⊢
          obtain ⟨g, hg1, hg2⟩ := hi.field r hr
          exact ⟨g, mem_held.2 (.inr hg1), hg2⟩
    · have hg : given s.paging q = none := if_neg h0
      rw [hg]
      rcases Paging.allocFrame_cases h with ⟨-, rfl⟩ | ⟨hz, -⟩
      · exact hi
      · exact absurd hz h0

theorem inv_free {s s' : Frames} {q : PagePtr} (hi : Inv s) (hq : ∀ f, ¬ s.Holds q f)
    (hs : Step s (.free q) s') : Inv s' := by
  cases hs with
  | @free _ P' h =>
    have h0 : (s.paging.page q).frame = 0 := by
      by_contra hne
      obtain ⟨f, hf, -⟩ := hi.field q hne
      exact hq f hf
    rcases Paging.freeFrame_cases h with ⟨-, rfl⟩ | ⟨hne, -⟩
    · have hfil : s.held.filter (·.1 ≠ q) = s.held := by
        refine List.filter_eq_self.2 fun p hp => decide_eq_true fun he => hq p.2 ?_
        show (q, p.2) ∈ s.held
        rw [← he]
        exact hp
      rw [hfil]
      exact hi
    · exact absurd h0 hne

/-- **`FreeFrame` of a page holding a frame breaks ownership**: the frame's bit stays set, since
the bit cleared, if any, is another one. -/
theorem freeFrame_not_owned {s s' : Frames} {q : PagePtr} {f : Nat} (hi : Inv s)
    (hq : s.Holds q f) (hs : Step s (.free q) s') : ¬ s'.Owned := by
  cases hs with
  | @free _ P' h =>
    intro ho
    -- a frame of `q` whose bit is set afterwards, and that nobody else holds
    have hkey : ∃ g, s.Holds q g ∧ g < 32 * P'.frames.size ∧ P'.frames.bit g = true := by
      rcases Paging.freeFrame_cases h with ⟨-, rfl⟩ | ⟨hne, b, hb, rfl⟩
      · exact ⟨f, hq, hi.below q f hq, (hi.owned.1 f (hi.below q f hq)).2 ⟨q, hq⟩⟩
      · obtain ⟨g, hg, hfield⟩ := hi.field q hne
        have hlt := hi.below q g hg
        have hle : (s.paging.page q).frame / 4096 < g := by
          have := Nat.mod_le g 0x100000
          omega
        obtain ⟨b', hb', hsz, hbit⟩ := Bitset.clear_ok (b := s.paging.frames)
          (f := (s.paging.page q).frame / 4096) (by omega)
        cases hb.symm.trans hb'
        refine ⟨g, hg, hsz.symm ▸ hlt, ?_⟩
        show b.bit g = true
        rw [hbit, (hi.owned.1 g hlt).2 ⟨q, hg⟩, Bool.and_true, bne_iff_ne]
        omega
    obtain ⟨g, hg, hlt, hbit⟩ := hkey
    obtain ⟨r, hr⟩ := (ho.1 g hlt).1 hbit
    obtain ⟨hr1, hr2⟩ := List.mem_filter.1 hr
    exact of_decide_eq_true hr2 (hi.owned.2 r q g hr1 hg)

theorem inv_run {P : Paging} {n : Nat} {s : Frames} (hP : Unmapped P)
    (h : Guarded.Run Step KeepsFrames (start P n) s) : Inv s := by
  refine h.invariant (inv_start hP) fun t i u hi hg hs => ?_
  cases i with
  | alloc q k w => exact inv_alloc hi hs
  | free q => exact inv_free hi hg hs

/-- **Physical frame ownership.** Along every run from an all-clear frame bit set in which
`FreeFrame` is called only on pages holding nothing, the set bits are the held frames and no two
pages hold the same frame; and the first call outside that condition ends ownership. -/
theorem owned_run {P : Paging} {n : Nat} {s : Frames} (hP : Unmapped P)
    (h : Guarded.Run Step KeepsFrames (start P n) s) :
    s.Owned ∧ ∀ i s', Step s i s' → (s'.Owned ↔ KeepsFrames s i) := by
  have hi := inv_run hP h
  refine ⟨hi.owned, fun i s' hs => ?_⟩
  cases i with
  | alloc q k w => exact iff_of_true (inv_alloc hi hs).owned trivial
  | free q =>
    refine ⟨fun ho f hf => freeFrame_not_owned hi hf hs ho, fun hq => (inv_free hi hq hs).owned⟩

/-! ## A run -/

/-- Paging objects with every page entry zero and no tables. -/
def blank : Paging :=
  ⟨.create 0, fun _ _ => .zero, fun _ => ⟨fun _ => 0, fun _ => 0, 0⟩, 0, 0, fun _ => 0⟩

/-- The first entry of a table. -/
def firstPage : PagePtr := ⟨0x200000, 0⟩

/-- The state after the first page was given a frame. -/
def oneAlloc : Frames :=
  ⟨{ blank with frames := (Bitset.create 64).store 0 1#32 }.setPage firstPage
    { Page.zero with present := true, user := true }, [(firstPage, 0)]⟩

theorem step_oneAlloc : Step (start blank 64) (.alloc firstPage false false) oneAlloc := by
  have h : (start blank 64).paging.allocFrame firstPage false false = .ok oneAlloc.paging := rfl
  exact .alloc h

theorem run_oneAlloc : Guarded.Run Step KeepsFrames (start blank 64) oneAlloc :=
  .tail (i := .alloc firstPage false false) .refl trivial step_oneAlloc

/-- The second entry. -/
def secondPage : PagePtr := ⟨0x200000, 1⟩

/-- The third. -/
def thirdPage : PagePtr := ⟨0x200000, 2⟩

/-- The state after the second page was given a frame too. -/
def twoAlloc : Frames :=
  ⟨{ oneAlloc.paging with frames := oneAlloc.paging.frames.store 0 3#32 }.setPage secondPage
    { Page.zero with present := true, user := true, frame := 1 }, [(secondPage, 1), (firstPage, 0)]⟩

/-- The state after the third page was. -/
def threeAlloc : Frames :=
  ⟨{ twoAlloc.paging with frames := twoAlloc.paging.frames.store 0 7#32 }.setPage thirdPage
    { Page.zero with present := true, user := true, frame := 2 }, (thirdPage, 2) :: twoAlloc.held⟩

theorem step_twoAlloc : Step oneAlloc (.alloc secondPage false false) twoAlloc := by
  have h : oneAlloc.paging.allocFrame secondPage false false = .ok twoAlloc.paging := rfl
  exact .alloc h

theorem step_threeAlloc : Step twoAlloc (.alloc thirdPage false false) threeAlloc := by
  have h : twoAlloc.paging.allocFrame thirdPage false false = .ok threeAlloc.paging := rfl
  exact .alloc h

theorem keeps_thirdPage : KeepsFrames twoAlloc (.free thirdPage) := by
  intro f hf
  simp [Holds, twoAlloc, thirdPage, secondPage, firstPage] at hf

/-- Two pages are given frames, a page without one is freed and then given one. -/
theorem run_threeAlloc : Guarded.Run Step KeepsFrames (start blank 64) threeAlloc := by
  have h : twoAlloc.paging.freeFrame thirdPage = .ok twoAlloc.paging := rfl
  have hs : Step twoAlloc (.free thirdPage) twoAlloc := .free h
  have h₂ : Guarded.Run Step KeepsFrames (start blank 64) twoAlloc :=
    .tail (i := .alloc secondPage false false) run_oneAlloc trivial step_twoAlloc
  exact .tail (i := .alloc thirdPage false false) (h₂.tail keeps_thirdPage hs) trivial step_threeAlloc

theorem owned_run_threeAlloc : threeAlloc.Owned ∧
    ∀ i s', Step threeAlloc i s' → (s'.Owned ↔ KeepsFrames threeAlloc i) :=
  owned_run (P := blank) (n := 64) (fun _ => rfl) run_threeAlloc

/-- **A frame taken back is lost**: after one `AllocFrame` and one `FreeFrame` of the same page,
frame 0 is marked used and no page holds it. -/
theorem freed_frame_lost : Guarded.Run Step (fun _ _ => True) (start blank 64)
    ⟨oneAlloc.paging, []⟩ ∧ ¬ Owned ⟨oneAlloc.paging, []⟩ := by
  have h : oneAlloc.paging.freeFrame firstPage = .ok oneAlloc.paging := rfl
  have hs : Step oneAlloc (.free firstPage) ⟨oneAlloc.paging, []⟩ := .free h
  have hi : Inv oneAlloc := inv_run (P := blank) (fun _ => rfl) run_oneAlloc
  exact ⟨.tail (.tail .refl trivial step_oneAlloc) trivial hs,
    freeFrame_not_owned hi (f := 0) List.mem_cons_self hs⟩

end Frames

end Dmanix
