import Dmanix.Memory.Proof.Walk
import Dmanix.Memory.Proof.Merge

/-!
# Runs of a heap

`Held c bs`: the heap is well formed with the blocks `bs`, and what the clients hold are its
allocations. A new heap has it (`held_create`), every step under `CallOk` keeps it (`Held.step`), so
it holds along every run from `Heap::Create` (`held_run`). Safety (`safe_run`), what `Verify` and
`Dump` do (`verify_run`) and the stored sizes (`stored_run`) are read off it.
-/

namespace Dmanix

open Word32 Bytes Tiling

namespace Clients

/-- **The invariant**: what is held are the allocations of a well-formed heap. -/
structure Held (c : Clients) (bs : List Block) : Prop where
  wf : WF c.heap bs
  headers : (c.live.map (·.1 - 4)).Perm ((allocs c.heap.startAddress bs).map (·.1))
  room : ∀ a ∈ c.live, 4 ≤ a.1 ∧ ∃ n, a.2 + 8 ≤ n ∧ (a.1 - 4, n) ∈ allocs c.heap.startAddress bs

variable {c d : Clients} {bs : List Block}

/-! ## One step -/

theorem Held.nodup (h : Held c bs) : (c.live.map (·.1 - 4)).Nodup :=
  h.headers.nodup_iff.2 (allocs_nodup h.wf.tags.pos)

theorem Held.alloc (h : Held c bs) {size rounds p : Nat} {pageAlign : Bool} {fresh : Mem}
    {s : HeapState} (hok : c.heap.AllocOk size pageAlign)
    (ha : c.heap.allocN rounds size pageAlign fresh = .ok (p, s)) :
    ∃ bs', Held ⟨s, (p, size) :: c.live⟩ bs' ∧
      SameOn (allocs c.heap.startAddress bs) c.heap.mem s.mem := by
  obtain ⟨bs', hA⟩ := h.wf.allocN_ok rounds hok ha
  obtain ⟨n, hn, hperm⟩ := hA.block
  have hp := hA.above
  refine ⟨bs', ⟨hA.wf, ?_, fun a ha => ?_⟩, hA.same⟩
  · have hkeys := hperm.map (·.1)
    rw [List.map_cons] at hkeys
    exact (h.headers.cons (p - 4)).trans hkeys.symm
  · rcases List.mem_cons.1 ha with rfl | ha
    · exact ⟨hp, n, hn, hperm.mem_iff.2 List.mem_cons_self⟩
    · obtain ⟨h4, k, hk, hmem⟩ := h.room a ha
      exact ⟨h4, k, hk, hperm.mem_iff.2 (List.mem_cons_of_mem _ hmem)⟩

theorem Held.free (h : Held c bs) {p size : Nat} {s : HeapState} (hp : (p, size) ∈ c.live)
    (hok : c.heap.FreeOk p) (hf : c.heap.free p = .ok s) :
    ∃ bs', Held ⟨s, c.live.erase (p, size)⟩ bs' ∧
      SameOn (allocs s.startAddress bs') c.heap.mem s.mem := by
  obtain ⟨h4, m, -, hm⟩ := h.room _ hp
  obtain ⟨q, rfl⟩ : ∃ q, p = q + 4 := ⟨p - 4, by simp only at h4; omega⟩
  rw [Nat.add_sub_cancel] at hm
  obtain ⟨bs', hF⟩ := h.wf.freed hm hok hf
  have hlive := List.perm_cons_erase hp
  have hkeys := hlive.map (·.1 - 4)
  rw [List.map_cons, Nat.add_sub_cancel] at hkeys
  refine ⟨bs', ⟨hF.wf, ?_, fun a ha => ?_⟩, hF.same⟩
  · have hall := (hkeys.symm.trans h.headers).trans (hF.block.map (·.1))
    exact (List.perm_cons q).1 hall
  · obtain ⟨ha4, k, hk, hmem⟩ := h.room a (List.mem_of_mem_erase ha)
    refine ⟨ha4, k, hk, ?_⟩
    rcases List.mem_cons.1 (hF.block.mem_iff.1 hmem) with heq | hmem
    · -- another pointer has another header
      have hnd := hkeys.nodup_iff.1 h.nodup
      rw [List.nodup_cons] at hnd
      exact absurd (List.mem_map.2 ⟨a, ha, (Prod.mk.inj heq).1⟩) hnd.1
    · exact hmem

theorem Held.write (h : Held c bs) {mem : Mem} (hm : ∀ x, ¬ c.Holds x → mem x = c.heap.mem x) :
    Held ⟨{ c.heap with mem := mem }, c.live⟩ bs := by
  have hw := h.wf
  -- a word is not held when it is a tag of a block
  have hkeep : ∀ p ∈ place Block.size c.heap.startAddress bs, ∀ y,
      (y = p.1 ∨ y = p.1 + p.2.size - 4) → read32 mem y = read32 c.heap.mem y := by
    intro p hp y hy
    refine read32_congr fun x h1 h2 => hm x ?_
    rintro ⟨a, ha, hax, hxa⟩
    obtain ⟨h4, n, hn, hmem⟩ := h.room a ha
    have h8 := hw.tags.pos _ (mem_of_mem_place (x := p.1) (b := p.2) hp)
    rcases place_apart (mem_allocs.1 hmem) hp with heq | hap | hap
    · subst heq
      simp only at hy
      omega
    · simp only at hap
      omega
    · simp only at hap
      omega
  have htags : AllTagged mem c.heap.startAddress bs := by
    intro p hp
    have ht := hw.tags p hp
    have h1 := hkeep p hp p.1 (.inl rfl)
    have h2 := hkeep p hp _ (.inr rfl)
    refine ⟨ht.least, ht.lt, ?_, ?_, ?_⟩
    · rw [Dmanix.header, h1]
      exact ht.header
    · rw [Dmanix.footer, h2]
      exact ht.magic
    · rw [Dmanix.footer, h2]
      exact ht.size
  exact ⟨⟨⟨htags, hw.fills, hw.top, hw.low, hw.room, hw.startPage, hw.endPage, hw.slots, hw.capacity,
    hw.stored⟩, hw.index⟩, h.headers, h.room⟩

/-- **A step keeps the invariant.** -/
theorem Held.step (h : Held c bs) {i : Call} (hok : c.CallOk i) (hs : Step c i d) :
    ∃ bs', Held d bs' := by
  cases hs with
  | alloc ha =>
    obtain ⟨bs', hh, -⟩ := h.alloc hok ha
    exact ⟨bs', hh⟩
  | free hp hf =>
    obtain ⟨bs', hh, -⟩ := h.free hp hok hf
    exact ⟨bs', hh⟩
  | write hm => exact ⟨bs, h.write hm⟩

/-! ## A run -/

section
variable {start endAddr max : Nat} {supervisor readonly : Bool} {mem : Mem} {P : Paging}
  {s : HeapState}

theorem held_create (hc : Heap.CreateOk start endAddr)
    (hs : Heap.create start endAddr max supervisor readonly mem P = .ok s) :
    Held ⟨s, []⟩ [⟨true, endAddr - (start + 0x81000)⟩] := by
  obtain ⟨hlo, hsz, hhi⟩ := hc
  obtain ⟨hwf, -⟩ := Heap.create_ok hlo hhi hsz hs
  refine ⟨hwf, ?_, fun a ha => nomatch ha⟩
  show ([] : List Nat).Perm _
  rw [allocs_cons]
  exact .refl _

theorem held_run (hc : Heap.CreateOk start endAddr)
    (hs : Heap.create start endAddr max supervisor readonly mem P = .ok s)
    (hr : Guarded.Run Step CallOk ⟨s, []⟩ c) : ∃ bs, Held c bs := by
  refine hr.invariant (P := fun c => ∃ bs, Held c bs) ⟨_, held_create hc hs⟩ ?_
  rintro t i u ⟨bs, h⟩ hok hstep
  exact h.step hok hstep

end

/-! ## Safety -/

/-- A payload and a placed block: the payload lies inside the block, or apart from it. -/
theorem Held.place_cases (h : Held c bs) {a : Nat × Nat} (ha : a ∈ c.live) {p : Nat × Block}
    (hp : p ∈ place Block.size c.heap.startAddress bs) :
    (p.2.hole = false ∧ p.1 + 4 = a.1 ∧ a.1 + a.2 + 4 ≤ p.1 + p.2.size) ∨
      a.1 + a.2 + 4 ≤ p.1 ∨ p.1 + p.2.size + 4 ≤ a.1 := by
  obtain ⟨h4, n, hn, hmem⟩ := h.room a ha
  rcases place_apart (mem_allocs.1 hmem) hp with heq | hap | hap
  · subst heq
    exact .inl ⟨rfl, by simp only; omega, by simp only; omega⟩
  · exact .inr (.inl (by simp only at hap; omega))
  · exact .inr (.inr (by simp only at hap; omega))

theorem Held.disjoint (h : Held c bs) : c.live.Pairwise fun a b => Apart a.1 a.2 b.1 b.2 := by
  have hnd := List.pairwise_map.1 h.nodup
  refine hnd.imp_of_mem fun {a b} ha hb hne => ?_
  obtain ⟨h4, n, hn, hmem⟩ := h.room a ha
  obtain ⟨h4', k, hk, hmem'⟩ := h.room b hb
  unfold Apart
  rcases place_apart (mem_allocs.1 hmem) (mem_allocs.1 hmem') with heq | hap | hap
  · exact absurd (Prod.mk.inj heq).1 hne
  · simp only at hap
    omega
  · simp only at hap
    omega

/-- **The invariant gives safety.** -/
theorem Held.safe (h : Held c bs) : c.Safe := by
  have hf := h.wf.fills
  refine ⟨fun a ha => ?_, h.disjoint, ⟨_, h.wf.laid.walk, fun x hx => ?_⟩, fun x hx a ha => ?_⟩
  · obtain ⟨h4, n, hn, hmem⟩ := h.room a ha
    have hb := place_bounds (mem_allocs.1 hmem)
    simp only at hb
    omega
  · obtain ⟨p, hp, rfl⟩ := List.mem_map.1 hx
    have ht := h.wf.tags p hp
    have h8 := ht.least
    have hsize : (c.heap.header p.1).size = p.2.size := congrArg Header.size ht.header
    have hhole : (c.heap.header p.1).isHole = p.2.hole := congrArg Header.isHole ht.header
    refine ⟨fun a ha => ?_, fun a ha => ?_, fun hh a ha => ?_⟩
    · have := h.place_cases ha hp
      unfold Apart
      omega
    · have := h.place_cases ha hp
      unfold Apart
      rw [hsize]
      omega
    · rw [hhole] at hh
      unfold Apart
      rw [hsize]
      rcases h.place_cases ha hp with ⟨hno, -⟩ | hap | hap
      · rw [hh] at hno
        cases hno
      · omega
      · omega
  · obtain ⟨n, hn⟩ := h.wf.laid.hole_mem hx
    have hsize : (c.heap.header x).size = n := congrArg Header.size (h.wf.tags _ hn).header
    unfold Apart
    rw [hsize]
    rcases h.place_cases ha hn with ⟨hno, -⟩ | hap | hap
    · cases hno
    · simp only at hap
      omega
    · simp only at hap
      omega

theorem Held.keeps (h : Held c bs) {m : Mem} (hm : SameOn (allocs c.heap.startAddress bs) c.heap.mem m)
    {a : Nat × Nat} (ha : a ∈ c.live) {x : Nat} (h1 : a.1 ≤ x) (h2 : x < a.1 + a.2) :
    m x = c.heap.mem x := by
  obtain ⟨h4, n, hn, hmem⟩ := h.room a ha
  exact hm _ hmem x (by simp only; omega) (by simp only; omega)

/-- **A call keeps the bytes** of what is held. -/
theorem Held.step_keeps (h : Held c bs) {i : Call} (hok : c.CallOk i) (hs : Step c i d)
    (hw : ∀ m, i ≠ .write m) : Keeps c d := by
  cases hs with
  | alloc ha =>
    obtain ⟨bs', -, hsame⟩ := h.alloc hok ha
    exact fun a hc _ x h1 h2 => h.keeps hsame hc h1 h2
  | free hp hf =>
    obtain ⟨bs', hh, hsame⟩ := h.free hp hok hf
    intro a _ hd x h1 h2
    obtain ⟨h4, n, hn, hmem⟩ := hh.room a hd
    exact hsame _ hmem x (by simp only; omega) (by simp only; omega)
  | write hm => exact absurd rfl (hw _)

/-! ## A gap of no bytes -/

/-- A new kernel heap after `Alloc(4084, false)` and `Alloc(16, true)`. The hole left by the first block
starts with the last word of a page: the second block gets its header, whose address stays in the
index, and the gap's footer is written over the first block's. -/
structure Reused (s : HeapState) : Prop where
  first : s.header 0xC0081000 = ⟨0x1FF, false, 4092⟩
  footer : (s.footer 0xC0081FF8).size = 0
  second : (s.header 0xC0081FFC).size = 24
  index : s.index.items = [0xC0081FFC, 0xC0082014]
  capacity : s.index.capacity = 0x20000
  startAddress : s.startAddress = 0xC0081000
  endAddress : s.endAddress = 0xC0100000

theorem reused : ∃ s₀ s₁ s₂, Heap.create 0xC0000000 0xC0100000 0xCFFFF000 false false (fun _ => 0)
      Frames.blank = .ok s₀ ∧
    s₀.allocN 0 4084 false (fun _ => 0) = .ok (0xC0081004, s₁) ∧
    s₁.allocN 0 16 true (fun _ => 0) = .ok (0xC0082000, s₂) ∧ Reused s₂ := by
  obtain ⟨s₀, hst₀, hwf₀, hs₀⟩ := new_heap
  obtain ⟨s₁, ha₁, hr₁, hwf₁⟩ := @WF.alloc_at s₀ [] [] _ _ 4084 false 0 (fun _ => 0) hwf₀ rfl
    (by decide) (show 4084 + 8 + 0 ≤ _ by decide) nofun (by simp) (by decide)
  rw [show gapSize false _ = 0 from rfl, carved_zero, if_neg (by decide)] at hwf₁
  simp only [List.nil_append, List.append_nil] at hwf₁
  rw [hst₀] at ha₁
  have hst₁ : s₁.startAddress = 0xC0081000 := hr₁.startAddress.trans hst₀
  have hpos : 0xC0081FFC = s₁.startAddress + extent Block.size [⟨false, 4092⟩] := by
    rw [hst₁]
    rfl
  have hen₁ : s₁.endAddress = 0xC0100000 := by
    rw [← hwf₁.fills, hst₁]
    rfl
  obtain ⟨i, hi, hpi, hf⟩ := @WF.found s₁ [⟨false, 4092⟩] [] _ _ 16 true hwf₁ hpos (by decide)
    (by decide) (by simp)
  have hn := (@WF.mem_index s₁ [⟨false, 4092⟩] [] _ _ hwf₁ hpos).2
  have hit₁ : s₁.index.items = [0xC0081FFC] := by
    have hp := hwf₁.index
    rw [hst₁] at hp
    exact List.perm_singleton.1 (by simpa [holes_cons] using hp)
  have hsize : s₁.index.size = 1 := by
    rw [← OrderedArray.length_items, hit₁]
    rfl
  -- the second block takes the header of the gap
  obtain ⟨size', w, hcarve, hcut⟩ := @HeapState.carve_gapped s₁ 0xC0081FFC _ i 16 hi hwf₁.slots hpi hn
    (by decide) hen₁.ge (by rw [hen₁]; decide) (by decide) (by decide)
  obtain ⟨rfl, rfl⟩ := hcut (by decide)
  obtain ⟨hfoot, hhead⟩ := @HeapState.gapped_below s₁ 0xC0081FFC (by decide) (by decide)
  rw [show 4096 - 0xC0081FFC % 4096 = 4 from rfl, hhead] at hcarve
  obtain ⟨⟨p, s₂⟩, hplace⟩ : ∃ r, (s₁.gapped 0xC0081FFC 4).placeBlock 0xC0081FFC
      (0x7F000 - 4092) 16 24 = .ok r := by
    have hidx : (((s₁.gapped 0xC0081FFC 4).writeBlock 0xC0081FFC 24 false).writeBlock
        (0xC0081FFC + 24) (0x7F000 - 4092 - 24) true).index = s₁.index := by
      rw [HeapState.toHeap_writeBlock, HeapState.toHeap_writeBlock, HeapState.toHeap_gapped]
    rw [show 16 = 24 - 8 from rfl, HeapState.placeBlock_split (by decide) (by decide)
      (by rw [HeapState.toHeap_gapped]; exact hen₁.ge) (by rw [HeapState.toHeap_gapped, hen₁]; decide)]
    obtain ⟨idx, -, -, -, he⟩ := HeapState.indexInsert_eq (s := ((s₁.gapped 0xC0081FFC 4).writeBlock
      0xC0081FFC 24 false).writeBlock (0xC0081FFC + 24) (0x7F000 - 4092 - 24) true)
      (0xC0081FFC + 24) (by rw [hidx, hsize, hwf₁.capacity]; decide)
    rw [he, if_pos (by rw [hidx, hsize, hwf₁.capacity]; decide)]
    exact ⟨_, rfl⟩
  obtain ⟨rfl, hr₂, htags, -, hit₂⟩ := HeapState.placeBlock_ok (w := 24) (by decide)
    (.inr (by decide)) (by decide) (by rw [HeapState.toHeap_gapped]; exact hen₁.ge)
    (by rw [HeapState.toHeap_gapped, hen₁]; decide)
    (by rw [HeapState.toHeap_gapped]; exact hwf₁.slots) hplace
  rw [restOf, if_neg (by decide), allTagged_cons, allTagged_single] at htags
  obtain ⟨hblock, hrest⟩ := htags
  have hsecond : (s₂.header 0xC0081FFC).size = 24 := congrArg Header.size hblock.header
  have hfirst := hwf₁.tags (0xC0081000, ⟨false, 4092⟩) (by rw [hst₁]; simp)
  have hgap : Off 0xC0081FF8 0xC0082000 s₁.mem (s₁.gapped 0xC0081FFC 4).mem := by
    have h1 := (off_setHeader s₁.mem 0xC0081FFC ⟨0x1FF, true, 0⟩).mono
      (show 0xC0081FF8 ≤ 0xC0081FFC by decide) (Nat.le_refl _)
    obtain ⟨-, h2, -, -⟩ := (s₁.storeHeader 0xC0081FFC ⟨0x1FF, true, 0⟩).sealFooter_apart
      (f := 0xC0081FF8) (h := 0xC0081FFC) (by decide)
    exact h1.trans (h2.mono (Nat.le_refl _) (by decide))
  refine ⟨s₀, s₁, s₂, hs₀, ha₁, ?_, ?_, ?_, hsecond, ?_, ?_, ?_, ?_⟩
  · rw [HeapState.allocN_some (by decide) hf, hcarve]
    exact hplace
  · exact ((header_off hr₂.off (.inl (by decide))).trans (header_off hgap (.inl (by decide)))).trans
      hfirst.header
  · exact (congrArg Footer.size (footer_off hr₂.off (.inl (by decide)))).trans hfoot
  · rw [hit₂, if_neg (by decide), HeapState.toHeap_gapped, hit₁, List.orderedInsert,
      if_neg ?_, List.orderedInsert_nil]
    have hrs : (Dmanix.header s₂.mem (0xC0081FFC + 24)).size = 0x7F000 - 4092 - 24 :=
      congrArg Header.size hrest.header
    unfold HeapState.SizeLe
    rw [hrs, show (Dmanix.header s₂.mem 0xC0081FFC).size = 24 from hsecond]
    decide
  · rw [hr₂.capacity, HeapState.toHeap_gapped, hwf₁.capacity]
  · rw [hr₂.startAddress, HeapState.toHeap_gapped, hst₁]
  · rw [hr₂.endAddress, HeapState.toHeap_gapped, hen₁]

namespace Reused

variable {s : HeapState}

theorem again (h : Reused s) : ∃ t, s.allocN 0 16 false (fun _ => 0) = .ok (0xC0082000, t) := by
  have hit := h.index
  have hsize : s.index.size = 2 := by
    rw [← OrderedArray.length_items, hit]
    rfl
  have hlen : 0 < s.index.items.length := by rw [hit]; decide
  have h0 : s.index.items[0] = 0xC0081FFC := by simp [hit]
  have hf : s.findSmallestHole (16 + 8) false = some 0 := by
    refine HeapState.findSmallestHole_some.2 ⟨hlen, ?_, fun j hj => absurd hj (Nat.not_lt_zero j)⟩
    rw [h0, HeapState.fits, h.second]
    rfl
  obtain ⟨idx, -, -, -, hrem⟩ := HeapState.indexRemove_eq (s := s) (i := 0) (by rw [hsize]; decide)
    (by rw [hsize, h.capacity]; decide) (by rw [h.capacity])
  have hcarve := @HeapState.carve_plain s 24 0 16 hlen (by rw [hsize, h.capacity]; decide)
    (by rw [h0]; exact h.second) (by decide)
  rw [hrem, ok_bind, h0, show blockSize 24 (16 + 8) = 24 from rfl,
    HeapState.placeBlock_exact (by decide) (by decide)] at hcarve
  exact ⟨_, (HeapState.allocN_some (by decide) hf).trans hcarve⟩

theorem unverified (h : Reused s) (fuel : Nat) (r : List Unit × Nat) : s.verify fuel ≠ .ok r := by
  intro hv
  cases fuel with
  | zero => cases hv
  | succ fuel =>
    unfold HeapState.verify HeapState.visitAllHeaders at hv
    rw [h.startAddress, if_pos (by rw [h.endAddress]; decide)] at hv
    obtain ⟨u, hu, -⟩ := bind_ok.1 hv
    unfold HeapState.verifyHeader at hu
    obtain ⟨-, -, hu⟩ := bind_ok.1 hu
    obtain ⟨-, -, hu⟩ := bind_ok.1 hu
    rw [assert_ok, decide_eq_true_iff, h.first] at hu
    have hz : (s.footer 0xC0081FF8).size = 4092 := hu
    rw [h.footer] at hz
    cases hz

end Reused

/-! ## Along a run -/

section
variable {start endAddr max : Nat} {supervisor readonly : Bool} {mem : Mem} {P : Paging}
  {s : HeapState}

/-- **Heap safety for clients**, along every run of good calls on a new heap. -/
theorem safe_run (hc : Heap.CreateOk start endAddr)
    (hs : Heap.create start endAddr max supervisor readonly mem P = .ok s)
    (hr : Guarded.Run Step CallOk ⟨s, []⟩ c) :
    c.Safe ∧ ∀ i d, c.CallOk i → Step c i d → (∀ m, i ≠ .write m) → Keeps c d := by
  obtain ⟨bs, h⟩ := held_run hc hs hr
  exact ⟨h.safe, fun i d hok hstep hw => h.step_keeps hok hstep hw⟩

end

/-- Five blocks are taken, two of them freed. -/
theorem safe_run_freed : ∃ s c, Heap.create 0xC0000000 0xC0100000 0xCFFFF000 false false
      (fun _ => 0) Frames.blank = .ok s ∧ Guarded.Run Step CallOk ⟨s, []⟩ c ∧
    c.live = [(0xC00810E4, 16), (0xC0081088, 16), (0xC0081004, 16)] ∧ c.Safe := by
  obtain ⟨s, c, hs, hr, hl, -⟩ := run_freed
  exact ⟨s, c, hs, hr, hl, (safe_run (by decide) hs hr).1⟩

/-- **A block given twice**: the second and the third of these requests get the same pointer. -/
theorem given_twice : ∃ s c, Heap.create 0xC0000000 0xC0100000 0xCFFFF000 false false (fun _ => 0)
      Frames.blank = .ok s ∧ Guarded.Run Step (fun _ _ => True) ⟨s, []⟩ c ∧
    c.live = [(0xC0082000, 16), (0xC0082000, 16), (0xC0081004, 4084)] ∧ ¬ c.Safe := by
  obtain ⟨s₀, s₁, s₂, hs₀, h₁, h₂, hR⟩ := reused
  obtain ⟨s₃, h₃⟩ := hR.again
  have hr₁ : Guarded.Run Step (fun _ _ => True) ⟨s₀, []⟩ ⟨s₁, [(0xC0081004, 4084)]⟩ :=
    .tail (i := .alloc 4084 false 0 fun _ => 0) .refl trivial (.alloc h₁)
  have hr₂ := hr₁.tail (i := .alloc 16 true 0 fun _ => 0) trivial (.alloc h₂)
  have hr₃ := hr₂.tail (i := .alloc 16 false 0 fun _ => 0) trivial (.alloc h₃)
  refine ⟨s₀, _, hs₀, hr₃, rfl, fun hS => ?_⟩
  have hd := (List.pairwise_cons.1 hS.disjoint).1 (0xC0082000, 16) List.mem_cons_self
  exact absurd hd (by unfold Apart; decide)

section
variable {start endAddr max : Nat} {supervisor readonly : Bool} {mem : Mem} {P : Paging}
  {s : HeapState}

/-- **`Verify` and `Dump` return**, along every run of good calls on a new heap. -/
theorem verify_run (hc : Heap.CreateOk start endAddr)
    (hs : Heap.create start endAddr max supervisor readonly mem P = .ok s)
    (hr : Guarded.Run Step CallOk ⟨s, []⟩ c) :
    ∃ hs, c.heap.Walk hs ∧ (∀ h ∈ hs, c.heap.Verified h) ∧ ∀ fuel, hs.length < fuel →
      (∃ us, c.heap.verify fuel = .ok (us, c.heap.endAddress)) ∧
      ∃ ds, c.heap.dump fuel = .ok (ds, c.heap.endAddress) := by
  obtain ⟨bs, h⟩ := held_run hc hs hr
  have hlaid := h.wf.laid
  refine ⟨_, hlaid.walk, fun x hx => ?_, fun fuel hf => ?_⟩
  · obtain ⟨p, hp, rfl⟩ := List.mem_map.1 hx
    exact hlaid.verified hp
  · rw [length_headers] at hf
    exact ⟨hlaid.verify_ok hf, hlaid.dump_ok hf⟩

end

theorem verify_run_freed : ∃ s c, Heap.create 0xC0000000 0xC0100000 0xCFFFF000 false false
      (fun _ => 0) Frames.blank = .ok s ∧ Guarded.Run Step CallOk ⟨s, []⟩ c ∧
    c.live = [(0xC00810E4, 16), (0xC0081088, 16), (0xC0081004, 16)] ∧
    ∃ hs, c.heap.Walk hs ∧ ∀ h ∈ hs, c.heap.Verified h := by
  obtain ⟨s, c, hs, hr, hl, -⟩ := run_freed
  obtain ⟨xs, hw, hv, -⟩ := verify_run (by decide) hs hr
  exact ⟨s, c, hs, hr, hl, xs, hw, hv⟩

/-- **A heap `Verify` panics on**: the gap of no bytes overwrote the first block's footer. -/
theorem verify_stops : ∃ s c, Heap.create 0xC0000000 0xC0100000 0xCFFFF000 false false (fun _ => 0)
      Frames.blank = .ok s ∧ Guarded.Run Step (fun _ _ => True) ⟨s, []⟩ c ∧
    ∀ fuel r, c.heap.verify fuel ≠ .ok r := by
  obtain ⟨s₀, s₁, s₂, hs₀, h₁, h₂, hR⟩ := reused
  have hr₁ : Guarded.Run Step (fun _ _ => True) ⟨s₀, []⟩ ⟨s₁, [(0xC0081004, 4084)]⟩ :=
    .tail (i := .alloc 4084 false 0 fun _ => 0) .refl trivial (.alloc h₁)
  exact ⟨s₀, _, hs₀, hr₁.tail (i := .alloc 16 true 0 fun _ => 0) trivial (.alloc h₂), hR.unverified⟩

end Clients

end Dmanix
