import Dmanix.Memory.Proof.FirstPage

/-!
# The pages `AllocateRange` maps (`src/memory/paging.cc`)

`Round`: the rounds the loop of `AllocateRange` makes. `Found` is what `GetPage` does in one of them:
the page has a table and no page loses its frame, as long as a table it makes lies apart from the ones
that exist (`MakesApart`), which they do where the kernel heap serves the requests for them
(`HousedWith.roundsApart`). So the loop covers the pages up to that of `address + size`
(`rounds_cover`), and the last one without a frame gets one (`last_given`).
-/

namespace Dmanix

open Word32 Bytes Outcome Machine

namespace Machine

variable {σ : Type}

/-- The table of page `v`, if it has one, is named in this slot of the current directory alone. -/
structure OwnTable (M : Machine σ) (v : Nat) : Prop where
  user : M.paging.currentDirectory ≠ M.paging.kernelDirectory
  alone : M.currentSlot (v / 1024) ≠ 0 → ∀ j < arraySize, j ≠ v / 1024 →
    M.currentSlot j ≠ M.currentSlot (v / 1024)
  unshared : M.currentSlot (v / 1024) ≠ 0 → ∀ j < arraySize,
    M.kernelSlot j ≠ M.currentSlot (v / 1024)

end Machine

namespace Kernel

/-- Page `n` intersects `[address, address + size)`. -/
def Intersects (address size n : Nat) : Prop :=
  ∃ x, address ≤ x ∧ x < address + size ∧ x / 0x1000 = n

section
variable (rounds : Nat) (fresh : Mem)

/-- A table that `GetPage` makes now lies apart from the tables of the current directory and of
`kernel_directory`. -/
def MakesApart (M : Kernel) : Prop :=
  ∀ p phys M₁, kallocPa rounds fresh sizeofTable M = .ok (p, phys, M₁) →
    ∀ i < arraySize, M.currentSlot i ≠ p ∧ M.kernelSlot i ≠ p

/-- `AllocateRange(address, size)` on `M` comes to a round with counter `i` and state `t`. -/
def Round (address size : Nat) (M : Kernel) (i : Nat) (t : Kernel) : Prop :=
  Enters (fun i _ => i ≤ pageBits (add32 address size)) (add32 · 0x1000)
    (fun i M => allocPage (kallocPa rounds fresh) M.paging.currentDirectory true i M)
    (pageBits address) M i t

/-- A round gives page `n` a frame. -/
def Gives (address size : Nat) (M : Kernel) (n : Nat) : Prop :=
  ∃ i t q u, Round rounds fresh address size M i t ∧ i / 0x1000 = n ∧
    getPage (kallocPa rounds fresh) t.paging.currentDirectory i t = .ok (q, u) ∧
    (u.paging.page q).frame = 0

/-- Every table that a round makes lies apart. -/
def RoundsApart (address size : Nat) (M : Kernel) : Prop :=
  ∀ i t, Round rounds fresh address size M i t → t.currentSlot (i / 0x1000 / 1024) = 0 →
    MakesApart rounds fresh t

end

variable {rounds address size : Nat} {fresh : Mem} {M t u : Kernel} {i n lo hi : Nat} {q : PagePtr}
  {made : List (Nat × Nat)} {held : HeapName → List (Nat × Nat)}

/-! ## One round -/

/-- The kernel heap's `end_address` -/
def heapEnd (M : Kernel) : Nat :=
  match M.allocator.heap .kheap with
  | some g => g.endAddress
  | none => 0

/-- Page `n` is one by which the kernel heap has grown from `M` to `u`. -/
def GrewOver (M u : Kernel) (n : Nat) : Prop := ∃ a, M.heapEnd ≤ a ∧ a < u.heapEnd ∧ a / 0x1000 = n

/-- `kalloc_pa` changes only the entries of pages by which the kernel heap grows. -/
theorem HousedWith.kallocPa_page {p phys : Nat} {M₁ : Kernel} (h : Housed made held M)
    (ha : kallocPa rounds fresh size M = .ok (p, phys, M₁)) :
    (heapFirst .kheap ≤ M.heapEnd ∧ M.heapEnd ≤ M₁.heapEnd ∧ M₁.heapEnd ≤ heapMax .kheap) ∧
      ∀ q, (∀ a, M.heapEnd ≤ a → a < M₁.heapEnd → M.paging.pageAt (a / 0x1000) ≠ q) →
        M₁.paging.page q = M.paging.page q := by
  obtain ⟨g, bs, hg, hl, -⟩ := id (h.heaps .kheap)
  obtain ⟨s, hs, rfl⟩ := allocInternal_ok hg ha
  have hgrow := (grows_of_held h.slots .kheap).1
  have hend : M.heapEnd = g.endAddress := by rw [heapEnd, hg]
  have hend₁ : (M.putHeap .kheap s).heapEnd = s.endAddress := rfl
  rw [hend, hend₁]
  have hlow : heapFirst .kheap ≤ g.endAddress := (Nat.le_add_right _ _).trans hl.least
  -- entries have changed on the pages up to the end `e` only
  have hpages : ∀ e ≤ heapMax .kheap, Grows (fun P => Paging.SameTables M.paging P ∧
      ∀ q, (∀ a, g.endAddress ≤ a → a < e → M.paging.pageAt (a / 0x1000) ≠ q) →
        P.page q = M.paging.page q) g.endAddress e := by
    refine fun e he => ⟨fun hP h1 h2 => hgrow.table hP.1 (hlow.trans h1) (h2.trans_le he),
      fun {P P' a k w} hP h1 h2 ha =>
        ⟨hgrow.alloc hP.1 (hlow.trans h1) (h2.trans_le he) ha, fun q hq => ?_⟩⟩
    rw [Paging.allocFrame_page ha fun he => ?_, hP.2 q hq]
    exact hq a h1 h2 ((hP.1.pageAt _).symm.trans he.symm)
  obtain ⟨hl', hle, -, hkept⟩ := (HeapState.allocN_grows hpages
    (fun he hP => ⟨hP.1, fun q hq => hP.2 q fun a h1 h2 => hq a h1 (h2.trans_le he)⟩)
    (heapMax_le .kheap) rounds hl (Nat.le_refl g.endAddress) ⟨.refl _, fun _ _ => rfl⟩).ok hs
  exact ⟨⟨hlow, hle, hl'.most⟩, hkept⟩

/-- What `GetPage` does to the current directory. -/
structure Found (M : Kernel) (n : Nat) (q : PagePtr) (u : Kernel) : Prop where
  entry : q = u.currentPage n
  made : u.currentSlot (n / 1024) ≠ 0
  kept : ∀ v < 0x100000, M.HasFrame v → u.HasFrame v

theorem getPage_found
    (hap : M.currentSlot (i / 0x1000 / 1024) = 0 → MakesApart rounds fresh M)
    (h : getPage (kallocPa rounds fresh) M.paging.currentDirectory i M = .ok (q, u)) :
    Found M (i / 0x1000) q u := by
  obtain ⟨M₁, hm, h⟩ := bind_ok.1 h
  obtain ⟨q', hq, h⟩ := bind_ok.1 h
  cases h
  have hcur : u.paging.currentDirectory = M.paging.currentDirectory := by
    rcases makeTable_cases hm with ⟨-, rfl⟩ | ⟨-, p, phys, M₂, -, hmade⟩
    · rfl
    · exact hmade.current
  have hent : u.currentSlot (i / 0x1000 / 1024) ≠ 0 ∧ q = u.currentPage (i / 0x1000) := by
    unfold Paging.getPage at hq
    dsimp only at hq
    split at hq
    · cases hq
    · rename_i h0
      cases hq
      unfold currentPage currentSlot
      rw [hcur]
      exact ⟨h0, rfl⟩
  refine ⟨hent.2, hent.1, fun v hv hf => ?_⟩
  rcases makeTable_cases hm with ⟨-, rfl⟩ | ⟨h0, p, phys, M₂, ha, hmade⟩
  · exact hf
  · have hp := (hap h0 p phys M₂ ha (v / 1024) (show _ < 1024 by omega)).1
    have hslot : u.currentSlot (v / 1024) = M.currentSlot (v / 1024) := by
      unfold currentSlot
      rw [hmade.slots, hmade.current, if_neg]
      rintro ⟨-, hv'⟩
      exact hf.1 (hv'.symm ▸ h0)
    have hpage : u.currentPage v = M.currentPage v := by rw [currentPage, hslot]; rfl
    refine ⟨hslot.symm ▸ hf.1, ?_⟩
    rw [hpage, hmade.framed (M.currentPage v) hp hf.2]
    exact hf.2

/-- `GetPage` gives frames only to pages by which the kernel heap grows. -/
theorem getPage_others (hH : Housed made held t)
    (hap : t.currentSlot (i / 0x1000 / 1024) = 0 → MakesApart rounds fresh t)
    (h : getPage (kallocPa rounds fresh) t.paging.currentDirectory i t = .ok (q, u)) :
    t.heapEnd ≤ u.heapEnd ∧ ∀ v < 0x100000, u.HasFrame v → t.HasFrame v ∨ GrewOver t u v := by
  obtain ⟨M₁, hm, h⟩ := bind_ok.1 h
  obtain ⟨q', hq, h⟩ := bind_ok.1 h
  cases h
  rcases makeTable_cases hm with ⟨-, rfl⟩ | ⟨h0, p, phys, M₂, ha, hmade⟩
  · exact ⟨Nat.le_refl _, fun v _ hv => .inl hv⟩
  · obtain ⟨⟨hlo, hle, hmax⟩, hkept⟩ := hH.kallocPa_page ha
    have hend : u.heapEnd = M₂.heapEnd := by
      rw [makeTable_eq h0 ha hm]
      rfl
    have hslot : ∀ j, u.currentSlot j = if j = i / 0x1000 / 1024 then p else t.currentSlot j := by
      intro j
      unfold currentSlot
      rw [hmade.slots, hmade.current]
      simp
    refine ⟨hend ▸ hle, fun v hv ⟨hmade', hframe⟩ => ?_⟩
    by_cases hvi : v / 1024 = i / 0x1000 / 1024
    · -- the new table is empty
      rw [currentPage, hslot, if_pos hvi, hmade.zero] at hframe
      exact absurd rfl hframe
    · have hne := (hap h0 p phys M₂ ha (v / 1024) (show _ < 1024 by omega)).1
      rw [currentPage, hslot, if_neg hvi, makeTable_page h0 ha hm (show _ ≠ p from hne)] at hframe
      rw [hslot, if_neg hvi] at hmade'
      by_cases hheap : ∃ a, t.heapEnd ≤ a ∧ a < M₂.heapEnd ∧
          t.paging.pageAt (a / 0x1000) = t.currentPage v
      · obtain ⟨a, h1, h2, he⟩ := hheap
        have hbound := heapMax_le .kheap
        have htable : t.currentSlot (v / 1024) = t.kernelSlot (a / 0x1000 / 1024) :=
          (congrArg PagePtr.table he).symm
        have hentry : a / 0x1000 % 1024 = v % 1024 := congrArg PagePtr.entry he
        have := hH.index _ hH.current (v / 1024) (show _ < 1024 by omega) _ hH.kernel
          (a / 0x1000 / 1024) (show _ < 1024 by omega) hmade' htable
        exact .inr ⟨a, h1, hend ▸ h2, by omega⟩
      · have hpage := hkept (t.currentPage v) fun a h1 h2 he => hheap ⟨a, h1, h2, he⟩
        exact .inl ⟨hmade', hpage ▸ hframe⟩

/-- **One round**: `GetPage`, then `AllocFrame`. -/
theorem allocPage_found (hap : t.currentSlot (i / 0x1000 / 1024) = 0 → MakesApart rounds fresh t)
    (h : allocPage (kallocPa rounds fresh) t.paging.currentDirectory true i t = .ok u) :
    (∀ v < 0x100000, t.HasFrame v → u.HasFrame v) ∧
    (u.HasFrame (i / 0x1000) ∨ ∃ q t₁, getPage (kallocPa rounds fresh) t.paging.currentDirectory i t =
      .ok (q, t₁) ∧ (t₁.paging.page q).frame = 0) := by
  obtain ⟨⟨q, t₁⟩, hg, h⟩ := bind_ok.1 h
  obtain ⟨P, hP, h⟩ := bind_ok.1 h
  cases h
  have hf := getPage_found hap hg
  have hs := Paging.allocFrame_same hP
  have hkept : ∀ v, t₁.HasFrame v → (t₁.withPaging P).HasFrame v := by
    intro v hv
    refine ⟨(currentSlot_withPaging hs _).symm ▸ hv.1, ?_⟩
    rw [currentPage_withPaging hs]
    show (P.page (t₁.currentPage v)).frame ≠ 0
    by_cases hvq : t₁.currentPage v = q
    · have hq : (t₁.paging.page q).frame ≠ 0 := hvq ▸ hv.2
      rcases Paging.allocFrame_cases hP with ⟨-, rfl⟩ | ⟨h0, -⟩
      · exact hv.2
      · exact absurd h0 hq
    · rw [Paging.allocFrame_page hP hvq]
      exact hv.2
  refine ⟨fun v hv h => hkept v (hf.kept v hv h), ?_⟩
  by_cases h0 : (t₁.paging.page q).frame = 0
  · exact .inr ⟨q, t₁, hg, h0⟩
  · exact .inl (hkept _ ⟨hf.made, hf.entry ▸ h0⟩)

theorem getPage_bare {v : Nat} (hv : v < 0x100000)
    (hap : t.currentSlot (i / 0x1000 / 1024) = 0 → MakesApart rounds fresh t)
    (ho : OwnTable t v) (hb : ¬ t.HasFrame v)
    (h : getPage (kallocPa rounds fresh) t.paging.currentDirectory i t = .ok (q, u)) :
    OwnTable u v ∧ ¬ u.HasFrame v := by
  obtain ⟨M₁, hm, h⟩ := bind_ok.1 h
  obtain ⟨q', hq, h⟩ := bind_ok.1 h
  cases h
  rcases makeTable_cases hm with ⟨-, rfl⟩ | ⟨h0, p, phys, M₂, ha, hmade⟩
  · exact ⟨ho, hb⟩
  · have hp := hap h0 p phys M₂ ha
    have hslot : ∀ j, u.currentSlot j = if j = i / 0x1000 / 1024 then p else t.currentSlot j := by
      intro j
      unfold currentSlot
      rw [hmade.slots, hmade.current]
      simp
    have hker : ∀ j, u.kernelSlot j = t.kernelSlot j := by
      intro j
      unfold kernelSlot
      rw [hmade.slots, hmade.kernel, if_neg fun hc => ho.user hc.1.symm]
    have huser : u.paging.currentDirectory ≠ u.paging.kernelDirectory := by
      rw [hmade.current, hmade.kernel]
      exact ho.user
    by_cases hvi : v / 1024 = i / 0x1000 / 1024
    · -- the table of this page is the new one
      have hvp : u.currentSlot (v / 1024) = p := by rw [hslot, if_pos hvi]
      refine ⟨⟨huser, fun _ j hj hne => ?_, fun _ j hj => ?_⟩, fun hf => ?_⟩
      · rw [hvp, hslot, if_neg (hvi ▸ hne)]
        exact (hp j hj).1
      · rw [hvp, hker]
        exact (hp j hj).2
      · refine hf.2 ?_
        rw [currentPage, hvp, hmade.zero]
        rfl
    · have hvp : u.currentSlot (v / 1024) = t.currentSlot (v / 1024) := by rw [hslot, if_neg hvi]
      have hne : t.currentSlot (v / 1024) ≠ p := (hp (v / 1024) (show _ < 1024 by omega)).1
      refine ⟨⟨huser, fun h0 j hj hjv => ?_, fun h0 j hj => ?_⟩, fun hf => hb ?_⟩
      · rw [hvp, hslot]
        split
        · exact hne.symm
        · exact ho.alone (hvp ▸ h0) j hj hjv
      · rw [hvp, hker]
        exact ho.unshared (hvp ▸ h0) j hj
      · have h0 : t.currentSlot (v / 1024) ≠ 0 := hvp ▸ hf.1
        have hpage : u.currentPage v = t.currentPage v := by rw [currentPage, hvp]; rfl
        refine ⟨h0, ?_⟩
        rw [← hmade.other (t.currentPage v) hne (ho.unshared h0), ← hpage]
        exact hf.2

theorem allocPage_bare {v : Nat} (hv : v < 0x100000) (hne : i / 0x1000 ≠ v)
    (hap : t.currentSlot (i / 0x1000 / 1024) = 0 → MakesApart rounds fresh t)
    (hi : i < 4294967296) (ho : OwnTable t v) (hb : ¬ t.HasFrame v)
    (h : allocPage (kallocPa rounds fresh) t.paging.currentDirectory true i t = .ok u) :
    OwnTable u v ∧ ¬ u.HasFrame v := by
  obtain ⟨⟨q, t₁⟩, hg, h⟩ := bind_ok.1 h
  obtain ⟨P, hP, h⟩ := bind_ok.1 h
  cases h
  have hf := getPage_found hap hg
  obtain ⟨ho₁, hb₁⟩ := getPage_bare hv hap ho hb hg
  have hs := Paging.allocFrame_same hP
  have hslot := currentSlot_withPaging hs
  have hkslot := kernelSlot_withPaging hs
  have ho' : OwnTable (t₁.withPaging P) v := by
    obtain ⟨huser, halone, hunshared⟩ := ho₁
    refine ⟨?_, ?_, ?_⟩
    · show P.currentDirectory ≠ P.kernelDirectory
      rw [hs.current, hs.kernel]
      exact huser
    · simpa only [hslot] using halone
    · simpa only [hslot, hkslot] using hunshared
  refine ⟨ho', fun hfr => hb₁ ?_⟩
  have h0 : t₁.currentSlot (v / 1024) ≠ 0 := hslot _ ▸ hfr.1
  refine ⟨h0, ?_⟩
  -- the entries of the two pages differ
  have hvq : t₁.currentPage v ≠ q := by
    rw [hf.entry]
    intro hc
    have h1 : t₁.currentSlot (v / 1024) = t₁.currentSlot (i / 0x1000 / 1024) :=
      congrArg PagePtr.table hc
    have h2 : v % 1024 = i / 0x1000 % 1024 := congrArg PagePtr.entry hc
    refine ho₁.alone h0 (i / 0x1000 / 1024) (show _ < 1024 by omega) (fun h3 => hne ?_) h1.symm
    omega
  rw [← Paging.allocFrame_page hP hvq, ← currentPage_withPaging hs]
  exact hfr.2

/-! ## The loop -/

theorem last_eq (h : address + size < 4294967296) :
    pageBits (add32 address size) = (address + size) / 0x1000 * 0x1000 := by
  rw [add32_eq h, pageBits_eq h]

theorem range_kept {k : Nat} (hap : RoundsApart rounds fresh address size M)
    (h : allocateRange (kallocPa rounds fresh) k address size M = .ok u) :
    ∀ v < 0x100000, M.HasFrame v → u.HasFrame v := by
  obtain ⟨_, hu, -⟩ := loop_ok (I := fun _ t => ∀ v < 0x100000, M.HasFrame v → t.HasFrame v) h
    (fun _ _ hv => hv) fun j t u he hI hb v hv hf =>
      (allocPage_found (hap j t he) hb).1 v hv (hI v hv hf)
  exact hu

/-- **The loop covers the pages** from that of `address` to that of `address + size`. -/
theorem rounds_cover {k : Nat} (hsum : address + size < 0xFFFFF000)
    (hap : RoundsApart rounds fresh address size M)
    (h : allocateRange (kallocPa rounds fresh) k address size M = .ok u) :
    ∀ n, address / 0x1000 ≤ n → n ≤ (address + size) / 0x1000 →
      u.HasFrame n ∨ Gives rounds fresh address size M n := by
  have hfirst : pageBits address = address / 0x1000 * 0x1000 := pageBits_eq (by omega)
  have hlast : pageBits (add32 address size) = (address + size) / 0x1000 * 0x1000 :=
    last_eq (by omega)
  have hloop := loop_ok (I := fun j t => j % 0x1000 = 0 ∧ address / 0x1000 ≤ j / 0x1000 ∧
    j / 0x1000 ≤ (address + size) / 0x1000 + 1 ∧
    ∀ n, address / 0x1000 ≤ n → n < j / 0x1000 →
      t.HasFrame n ∨ Gives rounds fresh address size M n) h
    ⟨by omega, by omega, by
      have := Nat.div_le_div_right (c := 0x1000) (Nat.le_add_right address size)
      omega, by omega⟩ ?_
  · obtain ⟨j, ⟨hj, -, -, hcov⟩, hend⟩ := hloop
    rw [decide_eq_false_iff_not, hlast] at hend
    intro n h1 h2
    exact hcov n h1 (by omega)
  · rintro j t u he ⟨hj, hlo, hhi, hcov⟩ hb
    have htest : j ≤ (address + size) / 0x1000 * 0x1000 := hlast ▸ of_decide_eq_true he.test_eq
    have hnext : add32 j 0x1000 = j + 0x1000 := add32_eq (by omega)
    obtain ⟨hkept, hgot⟩ := allocPage_found (hap j t he) hb
    rw [hnext]
    refine ⟨by omega, by omega, by omega, fun n h1 h2 => ?_⟩
    by_cases hn : n < j / 0x1000
    · exact (hcov n h1 hn).imp_left (hkept n (by omega))
    · have hnj : n = j / 0x1000 := by omega
      subst hnj
      rcases hgot with hgot | ⟨q, t₁, hg, h0⟩
      · exact .inl hgot
      · exact .inr ⟨j, t, q, t₁, he, rfl, hg, h0⟩

theorem Round.bounds (hsum : address + size < 0xFFFFF000)
    (h : Round rounds fresh address size M i t) :
    i % 0x1000 = 0 ∧ address / 0x1000 ≤ i / 0x1000 ∧ i / 0x1000 ≤ (address + size) / 0x1000 := by
  have hfirst : pageBits address = address / 0x1000 * 0x1000 := pageBits_eq (by omega)
  have hlast : pageBits (add32 address size) = (address + size) / 0x1000 * 0x1000 :=
    last_eq (by omega)
  have htest : ∀ {j t}, Round rounds fresh address size M j t →
      j ≤ (address + size) / 0x1000 * 0x1000 := fun he => hlast ▸ of_decide_eq_true he.test_eq
  have hlow := Enters.invariant (I := fun j _ => j % 0x1000 = 0 ∧ address / 0x1000 ≤ j / 0x1000) h
    ⟨by omega, by omega⟩ fun j t _ he ⟨hj, hlo⟩ _ => by
      have := htest he
      rw [show add32 j 0x1000 = j + 0x1000 from add32_eq (by omega)]
      exact ⟨by omega, by omega⟩
  have := htest h
  exact ⟨hlow.1, hlow.2, by omega⟩

theorem top_round (ha : address < 4294967296) (hsum : address + size = 4294967296)
    (h : Round rounds fresh address size M i t) : address < 0x1000 ∧ i = 0 ∧ t = M := by
  have hfirst : pageBits address = address / 0x1000 * 0x1000 := pageBits_eq ha
  have hlast : pageBits (add32 address size) = 0 := by
    rw [add32, hsum]
    rfl
  have htest : ∀ {j t}, Round rounds fresh address size M j t → j = 0 := fun he => by
    have := of_decide_eq_true he.test_eq
    omega
  have hi := htest h
  cases h with
  | start ht => exact ⟨by omega, hi, rfl⟩
  | round he _ _ =>
    rw [htest he] at hi
    cases hi

/-- A round gives frames only to its page, and to pages by which the kernel heap grows. -/
theorem allocPage_others {S : Finset Nat} (hE : Extending (fun _ _ => True) held S t)
    (hi : i < 4294967296) (hS : i / 0x1000 / 1024 ∈ S)
    (hap : t.currentSlot (i / 0x1000 / 1024) = 0 → MakesApart rounds fresh t)
    (h : allocPage (kallocPa rounds fresh) t.paging.currentDirectory true i t = .ok u) :
    t.heapEnd ≤ u.heapEnd ∧
      ∀ v < 0x100000, u.HasFrame v → t.HasFrame v ∨ v = i / 0x1000 ∨ GrewOver t u v := by
  obtain ⟨⟨q, t₁⟩, hg, h⟩ := bind_ok.1 h
  obtain ⟨P, hP, h⟩ := bind_ok.1 h
  cases h
  obtain ⟨made, hH⟩ := hE.housed
  obtain ⟨made₁, hH₁⟩ := (getPage_extending built_true hE hi hS hg).1.housed
  obtain ⟨hle, hothers⟩ := getPage_others hH hap hg
  have hs := Paging.allocFrame_same hP
  refine ⟨hle, fun v hv ⟨hmade, hframe⟩ => ?_⟩
  rw [currentSlot_withPaging hs] at hmade
  rw [currentPage_withPaging hs] at hframe
  by_cases hvq : t₁.currentPage v = q
  · -- the entry of a page is no other page's
    rw [(getPage_found hap hg).entry] at hvq
    have htable : t₁.currentSlot (v / 1024) = t₁.currentSlot (i / 0x1000 / 1024) :=
      congrArg PagePtr.table hvq
    have hentry : v % 1024 = i / 0x1000 % 1024 := congrArg PagePtr.entry hvq
    have := hH₁.index _ hH₁.current (v / 1024) (show _ < 1024 by omega) _ hH₁.current
      (i / 0x1000 / 1024) (show _ < 1024 by omega) hmade htable
    exact .inr (.inl (by omega))
  · have hframe₁ : (t₁.paging.page (t₁.currentPage v)).frame ≠ 0 :=
      Paging.allocFrame_page hP hvq ▸ hframe
    exact (hothers v hv ⟨hmade, hframe₁⟩).imp_right .inr

/-- The range ends below the last page, or with memory. -/
def Ends (address size : Nat) : Prop :=
  address + size < 0xFFFFF000 ∨ address < 4294967296 ∧ address + size = 4294967296

theorem Round.extending (hends : Ends address size)
    (hE : Extending (fun _ _ => True) held (slotsOf (pageBits address) (pageBits (add32 address size))) M)
    (h : Round rounds fresh address size M i t) :
    Extending (fun _ _ => True) held (slotsOf (pageBits address) (pageBits (add32 address size))) t := by
  rcases hends with hsum | ⟨ha, htop⟩
  · have hfirst : pageBits address = address / 0x1000 * 0x1000 := pageBits_eq (by omega)
    have hlast : pageBits (add32 address size) = (address + size) / 0x1000 * 0x1000 :=
      last_eq (by omega)
    refine Enters.invariant (I := fun _ t => Extending (fun _ _ => True) held _ t) h hE
      fun j t u he ht hb => ?_
    have hbd := Round.bounds hsum he
    exact allocPage_extending built_true ht (by omega)
      (mem_slotsOf.2 ⟨show _ < 1024 by omega, by omega, by omega⟩) hb
  · obtain ⟨-, -, rfl⟩ := top_round ha htop h
    exact hE

theorem Extending.makesApart {S : Finset Nat} (hE : Extending (fun _ _ => True) held S t)
    (hs : n ∈ S) (h0 : t.currentSlot n = 0) : MakesApart rounds fresh t := by
  obtain ⟨⟨made, hH⟩, hserves⟩ := hE
  obtain ⟨k, hk⟩ : ∃ k, (t.missingSlots S).card = k + 1 :=
    Nat.exists_eq_succ_of_ne_zero (Finset.card_ne_zero_of_mem (mem_missingSlots.2 ⟨hs, h0⟩))
  rw [hk, tableRequests_succ] at hserves
  intro p phys M₁ ha i hi'
  have hsame := kallocPa_same ha
  have hun := (hH.alloc built_true hserves ha).1.unnamed
  have hslot : ∀ d, M₁.slot d i = t.slot d i := fun d => by rw [slot, hsame.directories]; rfl
  have hlive : M₁.liveDirectories = t.liveDirectories := kallocPa_live ha
  have hne : ∀ d ∈ t.liveDirectories, t.slot d i ≠ p := fun d hd =>
    hslot d ▸ hun d (hlive ▸ hd) i hi'
  exact ⟨hne _ hH.current, hne _ hH.kernel⟩

/-- **Every table that a round makes lies apart** where the kernel heap serves the requests. -/
theorem HousedWith.roundsApart (hH : Housed made held M)
    (hs : M.Serves .kheap (M.requests (.allocateRange address size) .kheap))
    (hends : Ends address size) : RoundsApart rounds fresh address size M := by
  intro i t he h0
  have hE : Extending (fun _ _ => True) held _ t := he.extending hends ⟨⟨made, hH⟩, hs⟩
  have hslot : i / 0x1000 / 1024 < arraySize ∧ pageBits address / 0x400000 ≤ i / 0x1000 / 1024 ∧
      i / 0x1000 / 1024 ≤ pageBits (add32 address size) / 0x400000 := by
    show _ < 1024 ∧ _
    rcases hends with hsum | ⟨ha, htop⟩
    · have hfirst : pageBits address = address / 0x1000 * 0x1000 := pageBits_eq (by omega)
      have hlast : pageBits (add32 address size) = (address + size) / 0x1000 * 0x1000 :=
        last_eq (by omega)
      have hbd := Round.bounds hsum he
      omega
    · obtain ⟨ha0, rfl, -⟩ := top_round ha htop he
      have hfirst : pageBits address = address / 0x1000 * 0x1000 := pageBits_eq ha
      omega
  exact hE.makesApart (mem_slotsOf.2 hslot) h0

/-- The table of page `v` in the current directory is not the kernel's. -/
structure PrivateTable (M : Kernel) (v : Nat) : Prop where
  user : M.paging.currentDirectory ≠ M.paging.kernelDirectory
  unshared : M.currentSlot (v / 1024) ≠ 0 → M.kernelSlot (v / 1024) ≠ M.currentSlot (v / 1024)

theorem HousedWith.ownTable {v : Nat} (hH : Housed made held M) (hv : v < 0x100000)
    (hp : PrivateTable M v) : OwnTable M v := by
  have hslot : v / 1024 < arraySize := show _ < 1024 by omega
  refine ⟨hp.user, fun h0 j hj hne he => hne ?_, fun h0 j hj he => ?_⟩
  · exact (hH.index _ hH.current _ hslot _ hH.current j hj h0 he.symm).symm
  · have := hH.index _ hH.current _ hslot _ hH.kernel j hj h0 he.symm
    subst this
    exact hp.unshared h0 he

theorem not_gives {v : Nat} (hv : v < 0x100000) (hap : RoundsApart rounds fresh address size M)
    (hf : M.HasFrame v) : ¬ Gives rounds fresh address size M v := by
  rintro ⟨i, t, q, u, he, rfl, hg, h0⟩
  have ht : t.HasFrame (i / 0x1000) :=
    Enters.invariant (I := fun _ t => t.HasFrame (i / 0x1000)) he hf fun j t u he' ht hb =>
      (allocPage_found (hap j t he') hb).1 _ hv ht
  have hfound := getPage_found (hap i t he) hg
  exact (hfound.kept _ hv ht).2 (hfound.entry ▸ h0)

/-- **The last page is given a frame** if it has none. -/
theorem last_given {k : Nat} (hsum : address + size < 0xFFFFF000)
    (hap : RoundsApart rounds fresh address size M)
    (ho : OwnTable M ((address + size) / 0x1000)) (hb : ¬ M.HasFrame ((address + size) / 0x1000))
    (h : allocateRange (kallocPa rounds fresh) k address size M = .ok u) :
    Gives rounds fresh address size M ((address + size) / 0x1000) := by
  generalize hv : (address + size) / 0x1000 = v at ho hb ⊢
  have hfirst : pageBits address = address / 0x1000 * 0x1000 := pageBits_eq (by omega)
  have hlast : pageBits (add32 address size) = (address + size) / 0x1000 * 0x1000 :=
    last_eq (by omega)
  have hloop := loop_ok (I := fun j t => j % 0x1000 = 0 ∧
    (j / 0x1000 ≤ v → OwnTable t v ∧ ¬ t.HasFrame v) ∧
    (v < j / 0x1000 → Gives rounds fresh address size M v)) h
    ⟨by omega, fun _ => ⟨ho, hb⟩, fun hlt => by
      have := Nat.div_le_div_right (c := 0x1000) (Nat.le_add_right address size)
      omega⟩ ?_
  · obtain ⟨j, ⟨hj, -, hgiven⟩, hend⟩ := hloop
    rw [decide_eq_false_iff_not, hlast] at hend
    exact hgiven (by omega)
  · rintro j t u he ⟨hj, hbare, -⟩ hbody
    have hbd := Round.bounds hsum he
    have hnext : add32 j 0x1000 = j + 0x1000 := add32_eq (by omega)
    rw [hnext]
    obtain ⟨ho', hb'⟩ := hbare (by omega)
    refine ⟨by omega, fun hle => ?_, fun hlt => ?_⟩
    · exact allocPage_bare (by omega) (by omega) (hap j t he) (by omega) ho' hb' hbody
    · have hjv : j / 0x1000 = v := by omega
      obtain ⟨⟨q, t₁⟩, hg, -⟩ := bind_ok.1 hbody
      have hf := getPage_found (hap j t he) hg
      obtain ⟨-, hnone⟩ := getPage_bare (by omega) (hap j t he) ho' hb' hg
      refine ⟨j, t, q, t₁, he, hjv, hg, ?_⟩
      by_contra hne
      rw [← hjv] at hnone
      exact hnone ⟨hf.made, hf.entry ▸ hne⟩

/-! ## Exactly the range -/

/-- **The pages with frames afterwards**: those that had one, those the loop visits, and those by which
the kernel heap grows. -/
theorem range_others {k : Nat} (hsum : address + size < 0xFFFFF000) (hH : Housed made held M)
    (hs : M.Serves .kheap (M.requests (.allocateRange address size) .kheap))
    (h : allocateRange (kallocPa rounds fresh) k address size M = .ok u) :
    ∀ v < 0x100000, u.HasFrame v → M.HasFrame v ∨
      address / 0x1000 ≤ v ∧ v ≤ (address + size) / 0x1000 ∨ GrewOver M u v := by
  have hfirst : pageBits address = address / 0x1000 * 0x1000 := pageBits_eq (by omega)
  have hlast : pageBits (add32 address size) = (address + size) / 0x1000 * 0x1000 :=
    last_eq (by omega)
  have hap : RoundsApart rounds fresh address size M := hH.roundsApart hs (.inl hsum)
  have hloop := loop_ok (I := fun _ t => M.heapEnd ≤ t.heapEnd ∧ ∀ v < 0x100000, t.HasFrame v →
    M.HasFrame v ∨ address / 0x1000 ≤ v ∧ v ≤ (address + size) / 0x1000 ∨ GrewOver M t v) h
    ⟨Nat.le_refl _, fun _ _ => .inl⟩ ?_
  · obtain ⟨_, ⟨-, hu⟩, -⟩ := hloop
    exact hu
  · rintro j t u he ⟨hle, hI⟩ hb
    have hE : Extending (fun _ _ => True) held _ t :=
      Round.extending (.inl hsum) ⟨⟨made, hH⟩, hs⟩ he
    have hbd := Round.bounds hsum he
    obtain ⟨hle', hothers⟩ := allocPage_others hE (by omega)
      (mem_slotsOf.2 ⟨show _ < 1024 by omega, by omega, by omega⟩) (hap j t he) hb
    refine ⟨hle.trans hle', fun v hv hf => ?_⟩
    rcases hothers v hv hf with hf | rfl | ⟨a, h1, h2, ha⟩
    · rcases hI v hv hf with hf | hrange | ⟨a, h1, h2, ha⟩
      · exact .inl hf
      · exact .inr (.inl hrange)
      · exact .inr (.inr ⟨a, h1, h2.trans_le hle', ha⟩)
    · exact .inr (.inl hbd.2)
    · exact .inr (.inr ⟨a, hle.trans h1, h2, ha⟩)

/-- After `AllocateRange(address, size)` every page that intersects the range has a frame (frame 0, where
`AllocFrame` has just given it, is one), and no other page has been given one; none but these has one
that had none, except for the pages by which the kernel heap has grown for a table. -/
structure MapsExactly (rounds : Nat) (fresh : Mem) (address size : Nat) (M u : Kernel) : Prop where
  covers : ∀ n, Intersects address size n → u.HasFrame n ∨ Gives rounds fresh address size M n
  only : ∀ n, Gives rounds fresh address size M n → Intersects address size n
  others : ∀ n < 0x100000, u.HasFrame n → ¬ M.HasFrame n → Intersects address size n ∨ GrewOver M u n

/-- The page of `address + size` intersects the range, or has a frame already. -/
def EndTaken (M : Kernel) (address size : Nat) : Prop :=
  0 < size ∧ (address + size) % 0x1000 ≠ 0 ∨ M.HasFrame ((address + size) / 0x1000)

theorem intersects_bounds (h : Intersects address size n) :
    address / 0x1000 ≤ n ∧ n ≤ (address + size) / 0x1000 := by
  obtain ⟨x, h1, h2, rfl⟩ := h
  omega

theorem intersects_of {n : Nat} (h1 : address / 0x1000 ≤ n) (h2 : n * 0x1000 < address + size)
    (h3 : 0 < size) : Intersects address size n := by
  refine ⟨max address (n * 0x1000), by omega, by omega, ?_⟩
  omega

/-- There is memory for the table that `GetPage` may make and a frame for the page. -/
def Served (rounds : Nat) (fresh : Mem) (i : Nat) (t : Kernel) : Prop :=
  ∃ q u, getPage (kallocPa rounds fresh) t.paging.currentDirectory i t = .ok (q, u) ∧
    ((u.paging.page q).frame = 0 → 0 < u.paging.frames.clearBits)

/-- Every round is served. -/
def RoundsServed (rounds : Nat) (fresh : Mem) (address size : Nat) (M : Kernel) : Prop :=
  ∀ i t, Round rounds fresh address size M i t → Served rounds fresh i t

theorem Served.returns (h : Served rounds fresh i t) :
    ∃ u, allocPage (kallocPa rounds fresh) t.paging.currentDirectory true i t = .ok u := by
  obtain ⟨q, u, hg, hfree⟩ := h
  obtain ⟨P, hP⟩ : ∃ P, u.paging.allocFrame q false true = .ok P := by
    by_cases h0 : (u.paging.page q).frame = 0
    · exact Paging.allocFrame_ok (hfree h0)
    · exact ⟨_, if_pos h0⟩
  refine ⟨u.withPaging P, ?_⟩
  unfold allocPage
  rw [hg, ok_bind]
  dsimp only
  rw [hP]
  rfl

theorem allocateRange_returns (hsum : address + size < 0xFFFFF000)
    (hserved : RoundsServed rounds fresh address size M) :
    ∃ k u, allocateRange (kallocPa rounds fresh) k address size M = .ok u := by
  have hlast : pageBits (add32 address size) = (address + size) / 0x1000 * 0x1000 :=
    last_eq (by omega)
  -- the measure is the distance to the first address past the range
  refine loop_returns .hang (fun i => (address + size) / 0x1000 * 0x1000 + 0x1000 - i) _ _ M
    (Nat.le_refl _) fun i t he => ⟨(hserved i t he).returns, ?_⟩
  have htest : i ≤ (address + size) / 0x1000 * 0x1000 := hlast ▸ of_decide_eq_true he.test_eq
  rw [show add32 i 0x1000 = i + 0x1000 from add32_eq (by omega)]
  omega

theorem allocateRange_hangs {k : Nat} (hlo : 0xFFFFF000 ≤ address + size)
    (hhi : address + size < 4294967296) :
    allocateRange (kallocPa rounds fresh) k address size M ≠ .ok u := by
  intro h
  have hfirst : pageBits address = address / 0x1000 * 0x1000 := pageBits_eq (by omega)
  have hlast := last_eq hhi
  obtain ⟨j, ⟨hj, hlt⟩, hend⟩ := loop_ok (I := fun j _ => j % 0x1000 = 0 ∧ j < 4294967296) h
    ⟨by omega, by omega⟩ fun j t u _ ⟨hj, _⟩ _ => ⟨by unfold add32; omega, add32_lt _ _⟩
  rw [decide_eq_false_iff_not, hlast] at hend
  omega

theorem first_round (h0 : M.currentSlot 0 ≠ 0)
    (hf : ∀ i < arraySize, i ≠ 0 → M.currentSlot i ≠ M.currentSlot 0)
    (h : allocPage (kallocPa rounds fresh) M.paging.currentDirectory true 0 M = .ok u) {v : Nat}
    (hv : v < 0x100000) (hv0 : v ≠ 0) (hu : u.HasFrame v) : M.HasFrame v := by
  obtain ⟨⟨q, t₁⟩, hg, h⟩ := bind_ok.1 h
  obtain ⟨P, hP, h⟩ := bind_ok.1 h
  cases h
  obtain ⟨M₁, hm, hg⟩ := bind_ok.1 hg
  obtain ⟨q', hq, hg⟩ := bind_ok.1 hg
  cases hg
  rcases makeTable_cases hm with ⟨-, rfl⟩ | ⟨hz, -⟩
  · rw [Paging.getPage_some (show (t₁.paging.directories t₁.paging.currentDirectory).tables
      (0 / 0x1000 / 1024) ≠ 0 from h0)] at hq
    cases hq
    have hs := Paging.allocFrame_same hP
    refine ⟨currentSlot_withPaging hs _ ▸ hu.1, ?_⟩
    rw [← Paging.allocFrame_page (r := t₁.currentPage v) hP, ← currentPage_withPaging hs]
    · exact hu.2
    · intro hc
      have h1 : t₁.currentSlot (v / 1024) = t₁.currentSlot 0 := congrArg PagePtr.table hc
      have h2 : v % 1024 = 0 := congrArg PagePtr.entry hc
      exact hf (v / 1024) (show _ < 1024 by omega) (by omega) h1
  · exact absurd hz h0

/-- Where it has no table, the round for page 0 makes one, in which no other page has a frame. -/
theorem first_empty (h0 : M.currentSlot 0 = 0)
    (h : allocPage (kallocPa rounds fresh) M.paging.currentDirectory true 0 M = .ok u) :
    ¬ u.HasFrame 1 := by
  obtain ⟨⟨q, t₁⟩, hg, h⟩ := bind_ok.1 h
  obtain ⟨P, hP, h⟩ := bind_ok.1 h
  cases h
  have hs := Paging.allocFrame_same hP
  obtain ⟨M₁, hm, hg⟩ := bind_ok.1 hg
  obtain ⟨q', hq, hg⟩ := bind_ok.1 hg
  cases hg
  rcases makeTable_cases hm with ⟨hne, -⟩ | ⟨-, p, phys, M₂, -, hmade⟩
  · exact absurd h0 hne
  · rintro ⟨-, hf⟩
    have hp : t₁.currentSlot 0 = p := by
      rw [currentSlot, hmade.slots, hmade.current]
      exact if_pos ⟨rfl, rfl⟩
    have hpage : (t₁.withPaging P).currentPage 1 = ⟨p, 1⟩ := by
      rw [currentPage_withPaging hs]
      exact congrArg (PagePtr.mk · 1) hp
    have hq1 : (⟨p, 1⟩ : PagePtr) ≠ q := by
      rintro rfl
      unfold Paging.getPage at hq
      dsimp only at hq
      split at hq <;> cases hq
    rw [hpage] at hf
    refine hf ?_
    show (P.page ⟨p, 1⟩).frame = 0
    rw [Paging.allocFrame_page hP hq1, hmade.zero]
    rfl

/-- A range that ends with memory: the pages that have frames then, but for page 0, had them, or the
whole range is not covered. -/
theorem top_kept {k v : Nat} (ha : address < 4294967296) (htop : address + size = 4294967296)
    (hH : Housed made held M)
    (h : allocateRange (kallocPa rounds fresh) k address size M = .ok u)
    (hcov : ∀ n, Intersects address size n → u.HasFrame n ∨ Gives rounds fresh address size M n)
    (hv : v < 0x100000) (hv0 : v ≠ 0) (hu : u.HasFrame v) : M.HasFrame v := by
  have hone : ∀ n, Gives rounds fresh address size M n → n = 0 := by
    rintro n ⟨i, t, q, t₁, he, hi, -⟩
    obtain ⟨-, rfl, -⟩ := top_round ha htop he
    exact hi.symm
  by_cases h0 : M.currentSlot 0 = 0
  · rcases Nat.lt_or_ge address 0x1000 with hlow | hhigh
    · -- page 1 is in the range
      have hlast : pageBits (add32 address size) = 0 := by
        rw [add32, htop]
        rfl
      have hfirst : pageBits address = 0 := by
        rw [pageBits_eq ha]
        omega
      obtain ⟨j, hj, hend⟩ := loop_ok (I := fun j u => j = 0 ∨ ¬ u.HasFrame 1) h (.inl hfirst)
        fun j t u he _ hb => by
          obtain ⟨-, rfl, rfl⟩ := top_round ha htop he
          exact .inr (first_empty h0 hb)
      rw [decide_eq_false_iff_not, hlast] at hend
      refine absurd ?_ (hj.resolve_left (by omega))
      exact (hcov 1 ⟨0x1000, by omega, by omega, rfl⟩).resolve_right fun hg =>
        absurd (hone 1 hg) (by decide)
    · obtain ⟨j, hj, -⟩ := loop_ok (I := fun _ t => t = M) h rfl fun j t u he _ _ =>
        absurd (top_round ha htop he).1 (by omega)
      rwa [← hj]
  · have hslot : ∀ i < arraySize, i ≠ 0 → M.currentSlot i ≠ M.currentSlot 0 := fun i hi hi0 he =>
      hi0 (hH.index _ hH.current 0 (by decide) _ hH.current i hi h0 he.symm).symm
    obtain ⟨j, hj, -⟩ := loop_ok (I := fun _ t => t.HasFrame v → M.HasFrame v) h id
      fun j t u he _ hb hf => by
        obtain ⟨-, rfl, rfl⟩ := top_round ha htop he
        exact first_round h0 hslot hb hv hv0 hf
    exact hj hu

/-- After `memory::Initialize` the rounds for one page or two in slot 32 are served. -/
theorem Initialized.roundsServed (rounds : Nat) (fresh : Mem) (address size : Nat)
    (h : Initialized 512 M) (hc : 2 ≤ M.paging.frames.clearBits)
    (hlo : 0x8000000 ≤ address) (hhi : address + size < 0x8400000)
    (hpages : (address + size) / 0x1000 ≤ address / 0x1000 + 1) :
    RoundsServed rounds fresh address size M := by
  intro i t he
  have hbd := Round.bounds (by omega) he
  -- the first round starts from `M`, the second finds the table
  have hstate : i / 0x1000 = address / 0x1000 ∧ t = M ∨ i / 0x1000 = address / 0x1000 + 1 ∧
      t.currentSlot 32 ≠ 0 ∧ 0 < t.paging.frames.clearBits ∨ address / 0x1000 + 1 < i / 0x1000 := by
    refine Enters.invariant (I := fun i t => i / 0x1000 = address / 0x1000 ∧ t = M ∨
      i / 0x1000 = address / 0x1000 + 1 ∧ t.currentSlot 32 ≠ 0 ∧ 0 < t.paging.frames.clearBits ∨
        address / 0x1000 + 1 < i / 0x1000) he (.inl ⟨?_, rfl⟩) fun j t u he hI hb => ?_
    · rw [pageBits_eq (by omega)]
      omega
    · have hbd := Round.bounds (by omega) he
      have hnext : add32 j 0x1000 = j + 0x1000 := add32_eq (by omega)
      rcases hI with ⟨hj, rfl⟩ | ⟨hj, -⟩ | hj
      · obtain ⟨v, hg, hv⟩ := h.getPage_first (i := j) (by omega) rounds fresh
        obtain ⟨⟨q, t₁⟩, hg', hb⟩ := bind_ok.1 hb
        rw [h.current] at hg'
        cases hg.symm.trans hg'
        obtain ⟨P, hP, hb⟩ := bind_ok.1 hb
        cases hb
        refine .inr (.inl ⟨by omega, ?_, ?_⟩)
        · rw [currentSlot_withPaging (Paging.allocFrame_same hP), currentSlot, hv.slots, hv.current,
            if_pos ⟨rfl, rfl⟩]
          decide
        · have hz : (v.paging.page ⟨processTable, j / 0x1000 % 1024⟩).frame = 0 := by
            rw [hv.zero]
            rfl
          obtain ⟨f, -, -, -, hsz, hbit, -⟩ := Paging.allocFrame_gives hP hz
          have hset := Bitset.clearBits_set hsz hbit
          rw [hv.frames] at hset
          show 0 < P.frames.clearBits
          omega
      · exact .inr (.inr (by omega))
      · exact .inr (.inr (by omega))
  rcases hstate with ⟨hi, rfl⟩ | ⟨hi, hslot, hclear⟩ | hi
  · obtain ⟨u, hg, hu⟩ := h.getPage_first (i := i) (by omega) rounds fresh
    rw [← h.current] at hg
    exact ⟨_, u, hg, fun _ => by rw [hu.frames]; omega⟩
  · have hs : i / 0x1000 / 1024 = 32 := by omega
    exact ⟨_, t, getPage_held (by rw [hs]; exact hslot), fun _ => hclear⟩
  · omega

/-- The state that `memory::Initialize` leaves, with the requests for slot 32 served. -/
theorem image_ready : ∃ M, Callers.Started ⟨M, fun _ => []⟩ ∧ Initialized 512 M ∧
    Housed initialObjects (fun _ => []) M ∧ 2 ≤ M.paging.frames.clearBits := by
  obtain ⟨M, h₀, hb, hinit, K, k, hback, hk⟩ := image_initialized
  refine ⟨M, ⟨⟨_, _, _, _, start_image (by decide) (by decide), h₀, hb⟩, fun _ => rfl⟩, hinit,
    hinit.housedWith trivial, ?_⟩
  rw [Bitset.clearBits_from hback.bits, hinit.size]
  omega

end Kernel

end Dmanix
