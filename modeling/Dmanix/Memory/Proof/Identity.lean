import Dmanix.Memory.Paging

/-!
# Frames in address order

`Backed P K k`: the frames below `k` are used, the first `K` pages of the kernel's address space
are mapped to the frames of their own numbers, and a page above them is not present or is mapped to a
frame from `K` to `k`. `AllocFrame` takes frame `k`: for page `K = k` the identity mapping grows
(`Backed.identity`), for another page the frames above it do (`Backed.heapPage`). `Granted` is what
it leaves at a page.
-/

namespace Dmanix

namespace Paging

/-- The same directories, with other page entries or frames. -/
structure SameTables (P P' : Paging) : Prop where
  directories : P'.directories = P.directories
  kernel : P'.kernelDirectory = P.kernelDirectory
  current : P'.currentDirectory = P.currentDirectory
  size : P'.frames.size = P.frames.size

theorem SameTables.refl (P : Paging) : SameTables P P := ⟨rfl, rfl, rfl, rfl⟩

theorem SameTables.trans {P P' P'' : Paging} (h : SameTables P P') (h' : SameTables P' P'') :
    SameTables P P'' :=
  ⟨h'.directories.trans h.directories, h'.kernel.trans h.kernel, h'.current.trans h.current,
    h'.size.trans h.size⟩

/-- `kernel_directory->tables[i]` -/
def kernelTable (P : Paging) (i : Nat) : Nat := (P.directories P.kernelDirectory).tables i

/-- The entry of page number `v` in `kernel_directory`. -/
def pageAt (P : Paging) (v : Nat) : PagePtr := ⟨P.kernelTable (v / 1024), v % 1024⟩

theorem SameTables.kernelTable {P P' : Paging} (h : SameTables P P') (i : Nat) :
    P'.kernelTable i = P.kernelTable i := by
  rw [Paging.kernelTable, h.directories, h.kernel]
  rfl

theorem SameTables.pageAt {P P' : Paging} (h : SameTables P P') (v : Nat) :
    P'.pageAt v = P.pageAt v := by
  rw [Paging.pageAt, h.kernelTable]
  rfl

theorem getPage_some {P : Paging} {dir a : Nat} {make : Bool}
    (h : (P.directories dir).tables (a / 0x1000 / 1024) ≠ 0) : P.getPage dir a make =
      .ok ⟨(P.directories dir).tables (a / 0x1000 / 1024), a / 0x1000 % 1024⟩ := by
  unfold Paging.getPage
  exact if_neg h

theorem getPage_kernel {P : Paging} {a : Nat} {make : Bool}
    (h : P.kernelTable (a / 0x1000 / 1024) ≠ 0) :
    P.getPage P.kernelDirectory a make = .ok (P.pageAt (a / 0x1000)) :=
  getPage_some h

theorem allocFrame_same {P P' : Paging} {q : PagePtr} {k w : Bool}
    (h : P.allocFrame q k w = .ok P') : SameTables P P' := by
  rcases allocFrame_cases h with ⟨-, rfl⟩ | ⟨-, f, b, hn, hb, rfl⟩
  · exact .refl _
  · obtain ⟨b', hb', hsz, -⟩ := Bitset.set_ok (b := P.frames) (f := f)
      (by have := (Bitset.next_some hn).1; omega)
    cases hb.symm.trans hb'
    exact ⟨rfl, rfl, rfl, hsz⟩

theorem freeFrame_same {P P' : Paging} {q : PagePtr} (h : P.freeFrame q = .ok P') :
    SameTables P P' := by
  rcases freeFrame_cases h with ⟨-, rfl⟩ | ⟨-, b, hb, rfl⟩
  · exact .refl _
  · unfold Bitset.clear at hb
    dsimp only at hb
    split at hb
    · cases hb
      exact ⟨rfl, rfl, rfl, rfl⟩
    · cases hb

/-- Frames in address order (module doc). -/
structure Backed (P : Paging) (K k : Nat) : Prop where
  apart : ∀ i < 1024, ∀ j < 1024, P.kernelTable i ≠ 0 → P.kernelTable i = P.kernelTable j → i = j
  size : 32 * P.frames.size ≤ 0x100000
  fits : k ≤ 32 * P.frames.size
  le : K ≤ k
  bits : ∀ f < 32 * P.frames.size, P.frames.bit f = decide (f < k)
  identity : ∀ v < K, P.kernelTable (v / 1024) ≠ 0 ∧ (P.page (P.pageAt v)).present = true ∧
    (P.page (P.pageAt v)).frame = v
  above : ∀ v, K ≤ v → v < 0x100000 → P.kernelTable (v / 1024) ≠ 0 →
    ((P.page (P.pageAt v)).frame = 0 ∧ (P.page (P.pageAt v)).present = false) ∨
      K ≤ (P.page (P.pageAt v)).frame ∧ (P.page (P.pageAt v)).frame < k ∧
        (P.page (P.pageAt v)).present = true

namespace Backed

variable {P P' : Paging} {K k u v : Nat} {isKernel w : Bool}

theorem pageAt_inj (h : Backed P K k) (hu : u < 0x100000) (hv : v < 0x100000)
    (hT : P.kernelTable (v / 1024) ≠ 0) (he : P.pageAt u = P.pageAt v) : u = v := by
  have h1 : P.kernelTable (u / 1024) = P.kernelTable (v / 1024) := congrArg PagePtr.table he
  have h2 : u % 1024 = v % 1024 := congrArg PagePtr.entry he
  have := h.apart (v / 1024) (by omega) (u / 1024) (by omega) hT h1.symm
  omega

/-- It is about the frames, the pages and the tables of `kernel_directory`. -/
theorem congr (h : Backed P K k) (hT : ∀ i, P'.kernelTable i = P.kernelTable i)
    (ht : P'.tables = P.tables) (hf : P'.frames = P.frames) : Backed P' K k := by
  have hpage : ∀ v, P'.page (P'.pageAt v) = P.page (P.pageAt v) := fun v => by
    rw [Paging.page, Paging.page, Paging.pageAt, Paging.pageAt, hT, ht]
  obtain ⟨h1, h2, h3, h4, h5, h6, h7⟩ := h
  refine ⟨?_, ?_, ?_, h4, ?_, ?_, ?_⟩ <;> simpa only [hT, hpage, hf]

theorem next (h : Backed P K k) {f : Nat} (hn : P.frames.next = some f) :
    f = k ∧ k < 32 * P.frames.size := by
  obtain ⟨hlt, hclear, hbelow⟩ := Bitset.next_some hn
  rw [h.bits f hlt, decide_eq_false_iff_not] at hclear
  have : ¬ k < f := fun hkf => by
    have := hbelow k hkf
    rw [h.bits k (by omega), decide_eq_true_iff] at this
    omega
  omega

/-- A frame is left as long as `k` has not reached the end of the bit set. -/
theorem clearBits (h : Backed P K k) (hk : k < 32 * P.frames.size) : 0 < P.frames.clearBits := by
  refine List.countP_pos_iff.2 ⟨k, List.mem_range.2 hk, ?_⟩
  rw [h.bits k hk]
  simp

/-- **A page without a frame gets frame `k`**, and no other page changes. -/
theorem given (h : Backed P K k) (hv : v < 0x100000) (hT : P.kernelTable (v / 1024) ≠ 0)
    (h0 : (P.page (P.pageAt v)).frame = 0) (ha : P.allocFrame (P.pageAt v) isKernel w = .ok P') :
    k < 32 * P.frames.size ∧
    (∀ f < 32 * P'.frames.size, P'.frames.bit f = decide (f < k + 1)) ∧
    (P'.page (P.pageAt v)).present = true ∧ (P'.page (P.pageAt v)).frame = k ∧
    ∀ u < 0x100000, u ≠ v → P'.page (P.pageAt u) = P.page (P.pageAt u) := by
  obtain ⟨f, hn, -, -, hsz, hbit, hpage⟩ := allocFrame_gives ha h0
  obtain ⟨rfl, hk⟩ := h.next hn
  have hsize := h.size
  refine ⟨hk, fun g hg => ?_, ?_, ?_, fun u hu hne =>
    allocFrame_page ha fun he => hne (h.pageAt_inj hu hv hT he)⟩
  · rw [hbit, h.bits g (hsz ▸ hg), Bool.eq_iff_iff]
    simp only [Bool.or_eq_true, beq_iff_eq, decide_eq_true_iff]
    omega
  · rw [hpage]
  · rw [hpage]
    exact Nat.mod_eq_of_lt (by omega)

/-- **The identity mapping grows** by the page of the next frame. -/
theorem identityPage (h : Backed P k k) (hv : k < 0x100000) (hT : P.kernelTable (k / 1024) ≠ 0)
    (ha : P.allocFrame (P.pageAt k) isKernel w = .ok P') : Backed P' (k + 1) (k + 1) := by
  have hs := allocFrame_same ha
  have hnone : ∀ v, k ≤ v → v < 0x100000 → P.kernelTable (v / 1024) ≠ 0 →
      (P.page (P.pageAt v)).frame = 0 ∧ (P.page (P.pageAt v)).present = false :=
    fun v h1 h2 h3 => (h.above v h1 h2 h3).resolve_right fun h0 => by omega
  obtain ⟨hk, hbits, hpres, hframe, hother⟩ :=
    h.given hv hT (hnone k (Nat.le_refl k) hv hT).1 ha
  have hsize := h.size
  refine ⟨?_, ?_, ?_, Nat.le_refl _, hbits, fun u hu => ?_, fun u h1 h2 h3 => .inl ?_⟩
  · simpa only [hs.kernelTable] using h.apart
  · rw [hs.size]
    exact h.size
  · rw [hs.size]
    exact hk
  · rw [hs.pageAt, hs.kernelTable]
    rcases Nat.lt_succ_iff_lt_or_eq.1 hu with hu | rfl
    · rw [hother u (by omega) (by omega)]
      exact h.identity u hu
    · exact ⟨hT, hpres, hframe⟩
  · rw [hs.kernelTable] at h3
    rw [hs.pageAt, hother u h2 (by omega)]
    exact hnone u (by omega) h2 h3

/-- **A page above page 0 without a frame gets one**, above the identity mapping. -/
theorem newPage (h : Backed P K k) (hv0 : 0 < v) (hv : v < 0x100000)
    (hT : P.kernelTable (v / 1024) ≠ 0) (h0 : (P.page (P.pageAt v)).frame = 0)
    (ha : P.allocFrame (P.pageAt v) isKernel w = .ok P') : Backed P' K (k + 1) := by
  have hs := allocFrame_same ha
  obtain ⟨hk, hbits, hpres, hframe, hother⟩ := h.given hv hT h0 ha
  have hKv : K ≤ v := by
    by_contra hlt
    have := (h.identity v (by omega)).2.2
    omega
  have hsize := h.size
  have hle := h.le
  refine ⟨?_, ?_, ?_, ?_, hbits, fun u hu => ?_, fun u h1 h2 h3 => ?_⟩
  · simpa only [hs.kernelTable] using h.apart
  · rw [hs.size]
    exact h.size
  · rw [hs.size]
    exact hk
  · omega
  · rw [hs.pageAt, hs.kernelTable, hother u (by omega) (by omega)]
    exact h.identity u hu
  · rw [hs.kernelTable] at h3
    rw [hs.pageAt]
    by_cases huv : u = v
    · rw [huv, hframe]
      exact .inr ⟨h.le, by omega, hpres⟩
    · rw [hother u h2 huv]
      rcases h.above u h1 h2 h3 with hz | hz
      · exact .inl hz
      · exact .inr ⟨hz.1, by omega, hz.2.2⟩

/-- **A page above page 0 gets a frame**, if it has none. -/
theorem heapPage (h : Backed P K k) (hv0 : 0 < v) (hv : v < 0x100000)
    (hT : P.kernelTable (v / 1024) ≠ 0) (ha : P.allocFrame (P.pageAt v) isKernel w = .ok P') :
    Backed P' K k ∨ Backed P' K (k + 1) := by
  by_cases h0 : (P.page (P.pageAt v)).frame = 0
  · exact .inr (h.newPage hv0 hv hT h0 ha)
  · rcases allocFrame_cases ha with ⟨-, rfl⟩ | ⟨hz, -⟩
    · exact .inl h
    · exact absurd hz h0

end Backed

/-! ## Rights -/

/-- Page `v` has a frame; it is writable if `w` says so, and open to user code. -/
structure Granted (P : Paging) (v : Nat) (w : Bool) : Prop where
  frame : (P.page (P.pageAt v)).frame ≠ 0
  rw : (P.page (P.pageAt v)).rw = w
  user : (P.page (P.pageAt v)).user = true

/-- The pages from `lo` to `hi`: those below the address `i` were granted, the others have no
frame. -/
def Filled (P : Paging) (lo hi i : Nat) (w : Bool) : Prop :=
  ∀ v, lo ≤ v → v < hi →
    if 4096 * v < i then P.Granted v w else (P.page (P.pageAt v)).frame = 0

section
variable {P P' : Paging} {q : PagePtr} {K k u v lo hi : Nat} {w : Bool}

theorem Granted.congr (h : P.Granted v w) (he : P'.page (P'.pageAt v) = P.page (P.pageAt v)) :
    P'.Granted v w := by
  obtain ⟨h1, h2, h3⟩ := h
  refine ⟨?_, ?_, ?_⟩
  · rw [he]
    exact h1
  · rw [he]
    exact h2
  · rw [he]
    exact h3

/-- `AllocFrame` leaves a page with a frame alone. -/
theorem Granted.alloc {isKernel w' : Bool} (h : P.Granted v w)
    (ha : P.allocFrame q isKernel w' = .ok P') : P'.Granted v w := by
  refine h.congr ?_
  rw [(allocFrame_same ha).pageAt]
  by_cases hq : P.pageAt v = q
  · rcases allocFrame_cases ha with ⟨-, rfl⟩ | ⟨h0, -⟩
    · rfl
    · exact absurd (hq ▸ h0) h.frame
  · exact allocFrame_page ha hq

theorem Granted.free (h : P.Granted v w) (hq : P.pageAt v ≠ q) (hf : P.freeFrame q = .ok P') :
    P'.Granted v w := by
  refine h.congr ?_
  rw [(freeFrame_same hf).pageAt]
  exact freeFrame_page hf hq

theorem Filled.granted {i : Nat} (h : P.Filled lo hi i w) (hlo : lo ≤ v) (hhi : v < hi)
    (hlt : 4096 * v < i) : P.Granted v w := by
  have := h v hlo hhi
  rwa [if_pos hlt] at this

theorem Filled.unframed {i : Nat} (h : P.Filled lo hi i w) (hlo : lo ≤ v) (hhi : v < hi)
    (hle : i ≤ 4096 * v) : (P.page (P.pageAt v)).frame = 0 := by
  have := h v hlo hhi
  rwa [if_neg (by omega)] at this

/-- Where no page was granted, the rest may be granted other rights. -/
theorem Filled.rest {lo' i i' : Nat} {w' : Bool} (h : P.Filled lo hi i w) (hlo : lo ≤ lo')
    (hle : i ≤ 4096 * lo') (hle' : i' ≤ 4096 * lo') : P.Filled lo' hi i' w' := by
  intro v h1 h2
  rw [if_neg (by omega)]
  exact h.unframed (hlo.trans h1) h2 (by omega)

theorem Backed.fill {i : Nat} (h : Backed P K k) (hk : 0 < k) (hal : i % 4096 = 0)
    (hlt : i < 4294967296) (hhi : hi ≤ 0x100000) (hT : P.kernelTable (i / 4096 / 1024) ≠ 0)
    (hx : P.Filled lo hi i w) (ha : P.allocFrame (P.pageAt (i / 4096)) false w = .ok P') :
    P'.Filled lo hi (i + 4096) w := by
  obtain ⟨u, rfl⟩ : ∃ u, i = 4096 * u := ⟨i / 4096, by omega⟩
  have hu : u < 0x100000 := by omega
  rw [Nat.mul_div_cancel_left u (by decide)] at hT ha
  intro v hlo hv
  have hx := hx v hlo hv
  by_cases hvu : v = u
  · subst hvu
    rw [if_neg (by omega)] at hx
    obtain ⟨-, -, -, hframe, -⟩ := h.given hu hT hx ha
    rw [if_pos (by omega)]
    obtain ⟨f, -, -, -, -, -, hpage⟩ := allocFrame_gives ha hx
    refine ⟨?_, ?_, ?_⟩
    · rw [(allocFrame_same ha).pageAt, hframe]
      omega
    · rw [(allocFrame_same ha).pageAt, hpage]
    · rw [(allocFrame_same ha).pageAt, hpage]
      rfl
  · have hpage : P'.page (P'.pageAt v) = P.page (P.pageAt v) := by
      rw [(allocFrame_same ha).pageAt]
      exact allocFrame_page ha fun he => hvu (h.pageAt_inj (by omega) hu hT he)
    by_cases hvlt : 4096 * v < 4096 * u
    · rw [if_pos hvlt] at hx
      rw [if_pos (by omega)]
      exact hx.congr hpage
    · rw [if_neg hvlt] at hx
      rw [if_neg (by omega), hpage]
      exact hx

/-! ## Order -/

/-- The pages from `lo` up to the address `i` have the last frames given, in order. -/
def Ordered (P : Paging) (K lo i : Nat) : Prop :=
  ∃ k, Backed P K k ∧
    ∀ v, lo ≤ v → 4096 * v < i → (P.page (P.pageAt v)).frame + i / 4096 = k + v

theorem Ordered.fill {i : Nat} (h : P.Ordered K lo i) (hx : P.Filled lo hi i w) (h0 : 4096 ≤ i)
    (hal : i % 4096 = 0) (hlt : i < 4294967296) (hhi : i / 4096 < hi)
    (hT : P.kernelTable (i / 4096 / 1024) ≠ 0)
    (ha : P.allocFrame (P.pageAt (i / 4096)) false w = .ok P') : P'.Ordered K lo (i + 4096) := by
  obtain ⟨k, hb, hord⟩ := h
  obtain ⟨u, rfl⟩ : ∃ u, i = 4096 * u := ⟨i / 4096, by omega⟩
  have hu : u < 0x100000 := by omega
  rw [Nat.mul_div_cancel_left u (by decide)] at hT ha hhi
  by_cases hlo : lo ≤ u
  · have hz := hx.unframed hlo hhi (Nat.le_refl _)
    obtain ⟨-, -, -, hframe, hother⟩ := hb.given hu hT hz ha
    refine ⟨k + 1, hb.newPage (by omega) hu hT hz ha, fun v h1 h2 => ?_⟩
    rw [(allocFrame_same ha).pageAt]
    by_cases hvu : v = u
    · subst hvu
      rw [hframe]
      omega
    · rw [hother v (by omega) hvu]
      have := hord v h1 (by omega)
      omega
  · have hnone : ∀ v, lo ≤ v → ¬ 4096 * v < 4096 * u + 4096 := fun v h1 => by omega
    rcases hb.heapPage (by omega) hu hT ha with hb' | hb'
    · exact ⟨k, hb', fun v h1 h2 => absurd h2 (hnone v h1)⟩
    · exact ⟨k + 1, hb', fun v h1 h2 => absurd h2 (hnone v h1)⟩

end

end Paging

end Dmanix
