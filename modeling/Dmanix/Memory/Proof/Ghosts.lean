import Dmanix.Memory.Proof.Stages

/-!
# What `Free` stores and touches

The two ghosts of a heap, stage by stage: `Fits s t` says that every size assigned between `s` and
`t` fits its 22 bits, `Touches Q s t` that every tag read or written between them satisfies `Q` with
the limits the heap had then. Each stage of `Free` has both under a condition on the tags it reads.
-/

namespace Dmanix

open Word32 Bytes

/-- The word touched lay between the limits. -/
def Touch.Inside (a : Touch) : Prop := a.lo ≤ a.addr ∧ a.addr + 4 ≤ a.hi

namespace HeapState

/-- Every size stored on the way from `s` to `t` fits its field. -/
def Fits (s t : HeapState) : Prop := ∀ v ∈ t.stored, v ∈ s.stored ∨ v < 4194304

/-- Every tag touched on the way from `s` to `t` satisfies `Q`. -/
def Touches (Q : Touch → Prop) (s t : HeapState) : Prop :=
  ∃ ts, t.touched = ts ++ s.touched ∧ ∀ a ∈ ts, Q a

/-- The tag at `a`, with the limits of `s`, satisfies `Q`. -/
def At (Q : Touch → Prop) (s : HeapState) (a : Nat) : Prop := Q ⟨a, s.startAddress, s.endAddress⟩

variable {Q : Touch → Prop} {s t u : HeapState} {a f h v x y : Nat}

theorem At.congr (h : At Q s a) (ht : t.toHeap = s.toHeap) : At Q t a := by
  unfold At
  rw [show t.startAddress = s.startAddress from congrArg Heap.startAddress ht,
    show t.endAddress = s.endAddress from congrArg Heap.endAddress ht]
  exact h

theorem at_inside (h1 : s.startAddress ≤ a) (h2 : a + 4 ≤ s.endAddress) : At Touch.Inside s a :=
  ⟨h1, h2⟩

/-! ## One store -/

theorem Fits.refl (s : HeapState) : Fits s s := fun _ hv => .inl hv

theorem Fits.trans (h : Fits s t) (h' : Fits t u) : Fits s u :=
  fun v hv => (h' v hv).elim (h v) .inr

theorem Fits.of_eq (h : t.stored = s.stored) : Fits s t := fun _ hv => .inl (h ▸ hv)

theorem Fits.cons (hv : v < 4194304) (h : t.stored = v :: s.stored) : Fits s t := by
  intro w hw
  rw [h] at hw
  rcases List.mem_cons.1 hw with rfl | hw
  · exact .inr hv
  · exact .inl hw

theorem Touches.refl (s : HeapState) : Touches Q s s := ⟨[], rfl, fun _ h => nomatch h⟩

theorem Touches.trans (h : Touches Q s t) (h' : Touches Q t u) : Touches Q s u := by
  obtain ⟨ts, ht, hi⟩ := h
  obtain ⟨us, hu, hj⟩ := h'
  refine ⟨us ++ ts, by rw [hu, ht, List.append_assoc], fun a ha => ?_⟩
  exact (List.mem_append.1 ha).elim (hj a) (hi a)

theorem Touches.of_eq (h : t.touched = s.touched) : Touches Q s t := ⟨[], h, fun _ h => nomatch h⟩

/-- A touch. -/
theorem Touches.touch (ha : At Q s a) (h : t.touched = (s.touch a).touched) : Touches Q s t := by
  refine ⟨[⟨a, s.startAddress, s.endAddress⟩], h, fun b hb => ?_⟩
  rw [List.mem_singleton] at hb
  subst hb
  exact ha

theorem Touches.touchAll : ∀ (as : List Nat) {s : HeapState}, (∀ a ∈ as, At Q s a) →
    Touches Q s (s.touchAll as)
  | [], s, _ => .refl s
  | a :: as, s, h => by
    rw [touchAll_cons]
    have ha : Touches Q s (s.touch a) := .touch (h a List.mem_cons_self) rfl
    exact ha.trans (touchAll as fun b hb => (h b (List.mem_cons_of_mem _ hb)).congr rfl)

/-! ## The index -/

theorem indexRemove_ghosts {i : Nat} (h : s.indexRemove i = .ok t) : Fits s t ∧ Touches Q s t := by
  unfold indexRemove at h
  obtain ⟨idx, -, h⟩ := bind_ok.1 h
  cases h
  exact ⟨.of_eq rfl, .of_eq rfl⟩

theorem mem_compared (h : a ∈ s.compared x) : a ∈ s.index.items ∨ a = x := by
  unfold compared at h
  obtain ⟨y, hy, ha⟩ := List.mem_flatMap.1 h
  rcases List.mem_cons.1 ha with rfl | ha
  · exact .inl (List.mem_of_mem_take hy)
  · exact .inr (List.mem_singleton.1 ha)

theorem indexInsert_fits (h : s.indexInsert x = .ok t) : Fits s t := by
  unfold indexInsert at h
  obtain ⟨idx, -, h⟩ := bind_ok.1 h
  cases h
  exact .of_eq (stored_touchAll _ _)

/-- `Insert` compares entries with the new one. -/
theorem indexInsert_touches (hi : ∀ y ∈ s.index.items, At Q s y) (hx : At Q s x)
    (h : s.indexInsert x = .ok t) : Touches Q s t := by
  unfold indexInsert at h
  obtain ⟨idx, -, h⟩ := bind_ok.1 h
  cases h
  have hall : Touches Q s (s.touchAll (s.compared x)) := by
    refine .touchAll _ fun a ha => ?_
    rcases mem_compared ha with ha | rfl
    · exact hi a ha
    · exact hx
  exact hall.trans (.of_eq rfl)

/-! ## The tags -/

theorem storeHeaderSize_fits (hv : v < 4194304) : Fits s (s.storeHeaderSize a v) := .cons hv rfl

/-- A footer gets a size that was read from a header. -/
theorem storeFooterSize_fits (f h : Nat) : Fits s (s.storeFooterSize f (s.header h).size) :=
  .cons (header_size_lt _ _) rfl

theorem storeHeaderSize_touches (v : Nat) (ha : At Q s a) : Touches Q s (s.storeHeaderSize a v) :=
  .touch ha rfl

theorem storeFooterSize_touches (v : Nat) (ha : At Q s a) : Touches Q s (s.storeFooterSize a v) :=
  .touch ha rfl

theorem sealFooter_fits (f h : Nat) : Fits s (s.sealFooter f h) :=
  Fits.trans (t := s.storeFooterMagic f) (.of_eq rfl) (storeFooterSize_fits _ _)

theorem sealFooter_touches (hf : At Q s f) (h : Nat) : Touches Q s (s.sealFooter f h) := by
  have h1 : Touches Q s (s.storeFooterMagic f) := .touch hf rfl
  exact h1.trans (.touch (hf.congr rfl) rfl)

theorem marked_fits (a f : Nat) : Fits s (s.marked a f) := .of_eq rfl

theorem marked_touches (ha : At Q s a) (hf : At Q s f) : Touches Q s (s.marked a f) := by
  have h1 : Touches Q s (s.touch a) := .touch ha rfl
  have h2 : Touches Q (s.touch a) ((s.touch a).touch f) := .touch (hf.congr rfl) rfl
  exact (h1.trans h2).trans (.touch (ha.congr rfl) rfl)

/-! ## The neighbours -/

theorem coalesceLeft_fits (hx : ∀ x, s.holeBefore a = some x →
    (s.header x).size + (s.header a).size < 4194304) : Fits s (s.coalesceLeft a f).1 := by
  cases hb : s.holeBefore a with
  | none =>
    rw [coalesceLeft_none hb]
    split
    · exact .of_eq rfl
    · exact .of_eq rfl
  | some x =>
    have hlt := hx x hb
    rw [coalesceLeft_some hb]
    refine Fits.trans (t := ((s.touch (sub32 a 4)).touch x).touch a) (.of_eq rfl) ?_
    refine (storeHeaderSize_fits ?_).trans (storeFooterSize_fits _ _)
    rw [add32_eq (by omega)]
    exact hlt

theorem coalesceLeft_touches (h4 : At Q s (sub32 a 4))
    (hx : (s.footer (sub32 a 4)).magic = 0x1FF → At Q s (sub32 a (s.footer (sub32 a 4)).size))
    (ha : At Q s a) (hf : At Q s f) : Touches Q s (s.coalesceLeft a f).1 := by
  have h1 : Touches Q s (s.touch (sub32 a 4)) := .touch h4 rfl
  have h2 (hm : (s.footer (sub32 a 4)).magic = 0x1FF) : Touches Q s
      ((s.touch (sub32 a 4)).touch (sub32 a (s.footer (sub32 a 4)).size)) :=
    h1.trans (.touch ((hx hm).congr rfl) rfl)
  cases hb : s.holeBefore a with
  | none =>
    rw [coalesceLeft_none hb]
    split
    · exact h2 ‹_›
    · exact h1
  | some x =>
    obtain ⟨hm, rfl⟩ : (s.footer (sub32 a 4)).magic = 0x1FF ∧
        sub32 a (s.footer (sub32 a 4)).size = x := by
      unfold holeBefore at hb
      dsimp only at hb
      split at hb
      · rename_i h
        cases hb
        exact ⟨h.1, rfl⟩
      · cases hb
    rw [coalesceLeft_some hb]
    have h3 : Touches Q s (((s.touch (sub32 a 4)).touch
        (sub32 a (s.footer (sub32 a 4)).size)).touch a) :=
      (h2 hm).trans (.touch (ha.congr rfl) rfl)
    have hx3 := (hx hm).congr (t := ((s.touch (sub32 a 4)).touch
      (sub32 a (s.footer (sub32 a 4)).size)).touch a) rfl
    exact h3.trans ((storeHeaderSize_touches _ hx3).trans (storeFooterSize_touches _ (hf.congr rfl)))

theorem mergeRight_fits (h : (s.header x).size + (s.header y).size < 4194304) :
    Fits s (s.mergeRight x y).1 := by
  have hv : add32 (s.header x).size (s.header y).size < 4194304 := by
    rw [add32_eq (by omega)]
    exact h
  unfold mergeRight
  generalize add32 (s.header x).size (s.header y).size = v at *
  have h1 : Fits s ((s.storeHeaderSize x v).touch y) :=
    (storeHeaderSize_fits (a := x) hv).trans (.of_eq rfl)
  exact h1.trans (storeFooterSize_fits _ _)

theorem mergeRight_touches (hx : At Q s x) (hy : At Q s y)
    (hf : At Q s (s.mergeRight x y).2) : Touches Q s (s.mergeRight x y).1 := by
  unfold mergeRight at hf ⊢
  generalize add32 (s.header x).size (s.header y).size = v at *
  have h1 : Touches Q s ((s.storeHeaderSize x v).touch y) :=
    (storeHeaderSize_touches v hx).trans (.touch (hy.congr rfl) rfl)
  exact h1.trans (storeFooterSize_touches _ (hf.congr rfl))

end HeapState

end Dmanix
