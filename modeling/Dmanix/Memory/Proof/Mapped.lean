import Dmanix.Memory.Virtual
import Dmanix.Memory.Proof.Copy
import Dmanix.Memory.Proof.Range

/-!
# Bytes under `AllocateRange` and stores

`Paged`: every frame that is held is used, no two pages hold the same, frame 0 is used, and a directory
names a table in one slot. `Maps` is what `AllocateRange` does then, as long as no page it visits is
mapped to frame 0 and the kernel heap serves the requests for the tables it makes: a byte that can be
read reads the same (`Maps.load8`), and every page of the range has a frame (`Framing.allocateRange`). A
store to a page with a frame changes the byte at one address (`store8_spec`); so `set8` and `copy8`
fill a range and nothing else (`Filled`).
-/

namespace Dmanix

open Word32 Bytes Outcome Paging

namespace Machine

variable {σ : Type} {M M' : Machine σ} {n a : Nat}

/-- Page `n` of the current directory is present. -/
def Mapped (M : Machine σ) (n : Nat) : Prop :=
  M.currentSlot (n / 1024) ≠ 0 ∧ (M.paging.page (M.currentPage n)).present = true

/-- Frames are in order (module doc). -/
structure Paged (M : Machine σ) : Prop where
  kernel : M.paging.kernelDirectory ∈ M.liveDirectories
  current : M.paging.currentDirectory ∈ M.liveDirectories
  zero : M.paging.frames.bit 0 = true
  frames : HeldOnce M.Named M.paging
  once : ∀ i < arraySize, ∀ j < arraySize, M.currentSlot i ≠ 0 → M.currentSlot i = M.currentSlot j →
    i = j

/-- What is mapped stays so; what is mapped besides has a frame. -/
structure KeepsMap (M M' : Machine σ) : Prop where
  mapped : ∀ n < 0x100000, M.Mapped n → M'.Mapped n ∧
    M'.paging.page (M'.currentPage n) = M.paging.page (M.currentPage n)
  framed : ∀ n < 0x100000, M.HasFrame n → M'.HasFrame n
  fresh : ∀ n < 0x100000, M'.Mapped n → M.Mapped n ∨ (M'.paging.page (M'.currentPage n)).frame ≠ 0

/-- The same, and no byte is written. -/
structure Maps (M M' : Machine σ) : Prop extends KeepsMap M M' where
  phys : M'.paging.phys = M.paging.phys

theorem KeepsMap.refl (M : Machine σ) : KeepsMap M M :=
  ⟨fun _ _ h => ⟨h, rfl⟩, fun _ _ h => h, fun _ _ h => .inl h⟩

theorem KeepsMap.trans {M'' : Machine σ} (h : KeepsMap M M') (h' : KeepsMap M' M'') :
    KeepsMap M M'' := by
  refine ⟨fun n hn hm => ?_, fun n hn hf => h'.framed n hn (h.framed n hn hf), fun n hn hm => ?_⟩
  · obtain ⟨h1, h2⟩ := h.mapped n hn hm
    obtain ⟨h3, h4⟩ := h'.mapped n hn h1
    exact ⟨h3, h4.trans h2⟩
  · rcases h'.fresh n hn hm with hm' | hf
    · rcases h.fresh n hn hm' with hm | hf
      · exact .inl hm
      · exact .inr ((h'.mapped n hn hm').2.symm ▸ hf)
    · exact .inr hf

theorem KeepsMap.frame_ne (h : KeepsMap M M') (hn : n < 0x100000)
    (h0 : M.Mapped n → (M.paging.page (M.currentPage n)).frame ≠ 0) (hm : M'.Mapped n) :
    (M'.paging.page (M'.currentPage n)).frame ≠ 0 := by
  rcases h.fresh n hn hm with hold | hf
  · rw [(h.mapped n hn hold).2]
    exact h0 hold
  · exact hf

theorem Maps.refl (M : Machine σ) : Maps M M := ⟨.refl M, rfl⟩

theorem Maps.trans {M'' : Machine σ} (h : Maps M M') (h' : Maps M' M'') : Maps M M'' :=
  ⟨h.toKeepsMap.trans h'.toKeepsMap, h'.phys.trans h.phys⟩

/-! ## Bytes -/

theorem resolve_eq {p : Nat} : M.resolve a = .ok p ↔ M.Mapped (a / 0x1000) ∧
    p = frameToAddr (M.paging.page (M.currentPage (a / 0x1000))).frame + a % 0x1000 := by
  unfold resolve
  dsimp only
  constructor
  · intro h
    split at h
    · cases h
      exact ⟨‹_›, rfl⟩
    · cases h
  · rintro ⟨hm, rfl⟩
    exact if_pos hm

theorem load8_eq {b : UInt8} : M.load8 a = .ok b ↔ M.Mapped (a / 0x1000) ∧
    b = M.paging.phys
      (frameToAddr (M.paging.page (M.currentPage (a / 0x1000))).frame + a % 0x1000) := by
  unfold load8
  rw [bind_ok]
  constructor
  · rintro ⟨p, hp, hb⟩
    obtain ⟨hm, rfl⟩ := resolve_eq.1 hp
    cases hb
    exact ⟨hm, rfl⟩
  · rintro ⟨hm, rfl⟩
    exact ⟨_, resolve_eq.2 ⟨hm, rfl⟩, rfl⟩

theorem Maps.load8 {b : UInt8} (h : Maps M M') (ha : a < 4294967296) (hb : M.load8 a = .ok b) :
    M'.load8 a = .ok b := by
  obtain ⟨hm, rfl⟩ := load8_eq.1 hb
  obtain ⟨hm', hp⟩ := h.mapped _ (by omega) hm
  refine load8_eq.2 ⟨hm', ?_⟩
  rw [hp, h.phys]

theorem load16_kept {v : Nat} (h : M.load16 a = .ok v)
    (hk : ∀ k < 2, ∀ b, M.load8 (add32 a k) = .ok b → M'.load8 (add32 a k) = .ok b)
    (ha : a < 4294967296) : M'.load16 a = .ok v := by
  have h0 : add32 a 0 = a := add32_eq (by omega)
  obtain ⟨b0, hb0, h⟩ := bind_ok.1 h
  obtain ⟨b1, hb1, h⟩ := bind_ok.1 h
  have hb0' : M'.load8 a = .ok b0 := by
    have := hk 0 (by decide) b0
    rw [h0] at this
    exact this hb0
  unfold load16
  rw [hb0', ok_bind, hk 1 (by decide) b1 hb1, ok_bind]
  exact h

theorem load16_lt {v : Nat} (h : M.load16 a = .ok v) : v < 65536 := by
  obtain ⟨b0, -, h⟩ := bind_ok.1 h
  obtain ⟨b1, -, h⟩ := bind_ok.1 h
  cases h
  have h0 := b0.toNat_lt
  have h1 := b1.toNat_lt
  omega

theorem load32_kept {v : Nat} (h : M.load32 a = .ok v)
    (hk : ∀ k < 4, ∀ b, M.load8 (add32 a k) = .ok b → M'.load8 (add32 a k) = .ok b)
    (ha : a < 4294967296) : M'.load32 a = .ok v := by
  obtain ⟨lo, hlo, h⟩ := bind_ok.1 h
  obtain ⟨hi, hhi, h⟩ := bind_ok.1 h
  have hadd : ∀ k, add32 (add32 a 2) k = add32 a (2 + k) := fun k => by
    unfold add32
    omega
  have hlo' : M'.load16 a = .ok lo := load16_kept hlo (fun k hk2 => hk k (by omega)) ha
  have hhi' : M'.load16 (add32 a 2) = .ok hi := load16_kept hhi (fun k hk2 b hb => by
    rw [hadd] at hb ⊢
    exact hk (2 + k) (by omega) b hb) (add32_lt _ _)
  unfold load32
  rw [hlo', ok_bind, hhi', ok_bind]
  exact h

/-! ## How an access stops -/

/-- A call of `panic`. -/
def Panics (e : Halt) : Prop := ∃ msg, e = .panic msg

theorem assert_panics (b : Bool) (msg : String) : Meets (assert b msg) (fun _ => True) Panics := by
  cases b
  · exact .stop ⟨msg, rfl⟩
  · exact .pure trivial

theorem resolve_panics (M : Machine σ) (a : Nat) : Meets (M.resolve a) (fun _ => True) Panics := by
  unfold resolve
  dsimp only
  split
  · exact .pure trivial
  · exact .stop ⟨_, rfl⟩

theorem load8_panics (M : Machine σ) (a : Nat) : Meets (M.load8 a) (fun _ => True) Panics :=
  (resolve_panics M a).bind fun _ _ => .pure trivial

theorem store8_panics (M : Machine σ) (a : Nat) (b : UInt8) :
    Meets (M.store8 a b) (fun _ => True) Panics :=
  (resolve_panics M a).bind fun _ _ => .pure trivial

theorem load32_panics (M : Machine σ) (a : Nat) : Meets (M.load32 a) (fun _ => True) Panics := by
  have h16 : ∀ a, Meets (M.load16 a) (fun _ => True) Panics := fun a =>
    (load8_panics M a).bind fun _ _ => (load8_panics M _).bind fun _ _ => .pure trivial
  exact (h16 a).bind fun _ _ => (h16 _).bind fun _ _ => .pure trivial

theorem set8_panics (M : Machine σ) (dest : Nat) (c : UInt8) (n : Nat) :
    Meets (M.set8 dest c n) (fun _ => True) Panics :=
  (assert_panics _ _).bind fun _ _ =>
    upTo_meets (I := fun _ _ => True) trivial fun _ t _ _ => store8_panics t _ _

theorem copy8_panics (M : Machine σ) (dest src n : Nat) :
    Meets (M.copy8 dest src n) (fun _ => True) Panics :=
  (assert_panics _ _).bind fun _ _ => (assert_panics _ _).bind fun _ _ =>
    upTo_meets (I := fun _ _ => True) trivial fun _ t _ _ =>
      (load8_panics t _).bind fun _ _ => store8_panics t _ _

/-! ## Stores -/

/-- Only bytes are written. -/
def Rewritten (M M' : Machine σ) : Prop :=
  ∃ φ, M' = M.withPaging { M.paging with phys := φ }

theorem Rewritten.refl (M : Machine σ) : Rewritten M M := ⟨M.paging.phys, rfl⟩

theorem Rewritten.trans {M'' : Machine σ} (h : Rewritten M M') (h' : Rewritten M' M'') :
    Rewritten M M'' := by
  obtain ⟨φ, rfl⟩ := h
  obtain ⟨ψ, rfl⟩ := h'
  exact ⟨ψ, rfl⟩

theorem Rewritten.hasFrame (h : Rewritten M M') : M'.HasFrame n ↔ M.HasFrame n := by
  obtain ⟨φ, rfl⟩ := h
  exact .rfl

theorem Rewritten.keepsMap (h : Rewritten M M') : KeepsMap M M' := by
  obtain ⟨φ, rfl⟩ := h
  exact ⟨fun _ _ h => ⟨h, rfl⟩, fun _ _ h => h, fun _ _ h => .inl h⟩

theorem Paged.rewritten (hR : Paged M) (h : Rewritten M M') : Paged M' := by
  obtain ⟨φ, rfl⟩ := h
  exact ⟨hR.kernel, hR.current, hR.zero, hR.frames.congr rfl rfl, hR.once⟩

/-- Two pages with the frame of one that has a frame are the same. -/
theorem Paged.page_inj (h : Paged M) {m : Nat} (hn : n < 0x100000) (hm : m < 0x100000)
    (hf : M.HasFrame n) (hT : M.currentSlot (m / 1024) ≠ 0)
    (he : (M.paging.page (M.currentPage m)).frame = (M.paging.page (M.currentPage n)).frame) :
    m = n := by
  have hin : ∀ k < 0x100000, M.currentSlot (k / 1024) ≠ 0 → PageIn M.Named (M.currentPage k) :=
    fun k hk h0 => ⟨⟨h0, _, h.current, k / 1024, show _ < 1024 by omega, rfl⟩,
      show k % 1024 < 1024 by omega⟩
  have hq := h.frames.alone _ _ (hin m hm hT) (hin n hn hf.1) (he.symm ▸ hf.2) he
  have h1 : M.currentSlot (m / 1024) = M.currentSlot (n / 1024) := congrArg PagePtr.table hq
  have h2 : m % 1024 = n % 1024 := congrArg PagePtr.entry hq
  have := h.once (m / 1024) (show _ < 1024 by omega) (n / 1024) (show _ < 1024 by omega) hT h1
  omega

/-- **A store to a page with a frame** changes the byte at one address. -/
theorem store8_spec {b : UInt8} (hR : Paged M) (ha : a < 4294967296) (hf : M.HasFrame (a / 0x1000))
    (h : M.store8 a b = .ok M') : Rewritten M M' ∧ M'.load8 a = .ok b ∧
      ∀ x < 4294967296, x ≠ a → M'.load8 x = M.load8 x := by
  obtain ⟨p, hp, h⟩ := bind_ok.1 h
  cases h
  have hres : ∀ x, (M.withPaging { M.paging with phys := Function.update M.paging.phys p b }).load8 x =
      (M.resolve x >>= fun q => .ok (Function.update M.paging.phys p b q)) := fun _ => rfl
  refine ⟨⟨_, rfl⟩, ?_, fun x hx hne => ?_⟩
  · rw [hres, hp, ok_bind, Function.update_self]
  · rw [hres, load8]
    cases hr : M.resolve x with
    | error e => rfl
    | ok q =>
      obtain ⟨hm, rfl⟩ := resolve_eq.1 hp
      obtain ⟨hmx, rfl⟩ := resolve_eq.1 hr
      -- another page has another frame
      refine congrArg Except.ok (Function.update_of_ne (fun heq => ?_) _ _)
      unfold frameToAddr at heq
      have := hR.page_inj (m := x / 0x1000) (by omega) (by omega) hf hmx.1 (by omega)
      omega

/-- The `n` bytes from `dest` on are those of `v`, and the others are as they were. -/
structure Filled (M : Machine σ) (dest n : Nat) (v : Nat → UInt8) (M' : Machine σ) : Prop where
  rewritten : Rewritten M M'
  inside : ∀ k < n, M'.load8 (dest + k) = .ok (v k)
  outside : ∀ x < 4294967296, x < dest ∨ dest + n ≤ x → M'.load8 x = M.load8 x

/-- **A loop of stores.** -/
theorem stores_filled {dest : Nat} {v : Nat → UInt8}
    {body : Nat → Machine σ → Except Halt (Machine σ)} (hR : Paged M)
    (hend : dest + n ≤ 4294967296) (hf : ∀ k < n, M.HasFrame ((dest + k) / 0x1000))
    (hbody : ∀ i < n, ∀ t u, Filled M dest i v t → body i t = .ok u →
      t.store8 (dest + i) (v i) = .ok u)
    (h : upTo body n M = .ok M') : Filled M dest n v M' := by
  refine upTo_ok (I := fun i t => Filled M dest i v t) h
    ⟨.refl M, fun k hk => absurd hk (Nat.not_lt_zero k), fun _ _ _ => rfl⟩
    fun i t u hi _ hI hb => ?_
  have hstore := hbody i hi t u hI hb
  obtain ⟨hw, hin, hout⟩ := store8_spec (hR.rewritten hI.rewritten) (by omega)
    (hI.rewritten.hasFrame.2 (hf i hi)) hstore
  refine ⟨hI.rewritten.trans hw, fun k hk => ?_, fun x hx hor => ?_⟩
  · by_cases hki : k = i
    · rw [hki]
      exact hin
    · rw [hout _ (by omega) (by omega)]
      exact hI.inside k (by omega)
  · rw [hout x hx (by omega)]
    exact hI.outside x hx (by omega)

/-- **`set8`.** -/
theorem set8_filled {dest : Nat} {c : UInt8} (hR : Paged M) (hend : dest + n ≤ 4294967296)
    (hf : ∀ k < n, M.HasFrame ((dest + k) / 0x1000)) (h : M.set8 dest c n = .ok M') :
    Filled M dest n (fun _ => c) M' := by
  obtain ⟨_, -, h⟩ := bind_ok.1 h
  refine stores_filled hR hend hf (fun i hi t u _ hb => ?_) h
  rwa [add32_eq (by omega)] at hb

/-- **`copy8`**, of bytes outside the range. -/
theorem copy8_filled {dest src : Nat} {v : Nat → UInt8} (hR : Paged M)
    (hend : dest + n ≤ 4294967296) (hsrc : src + n ≤ 4294967296)
    (hf : ∀ k < n, M.HasFrame ((dest + k) / 0x1000)) (hap : Apart dest n src n)
    (hv : ∀ k < n, M.load8 (src + k) = .ok (v k)) (h : M.copy8 dest src n = .ok M') :
    Filled M dest n v M' := by
  obtain ⟨_, -, h⟩ := bind_ok.1 h
  obtain ⟨_, -, h⟩ := bind_ok.1 h
  refine stores_filled hR hend hf (fun i hi t u hI hb => ?_) h
  obtain ⟨b, hb', hb⟩ := bind_ok.1 hb
  rw [add32_eq (by omega)] at hb' hb
  have := hI.outside (src + i) (by omega) (by
    unfold Apart at hap
    omega)
  rw [this, hv i hi] at hb'
  cases hb'
  exact hb

end Machine

/-! ## `AllocateRange` -/

namespace Kernel

open Machine

variable {M M' M₁ t u : Kernel} {rounds address size i n p phys : Nat} {fresh : Mem} {q : PagePtr}

section
variable (rounds : Nat) (fresh : Mem)

/-- A table that `GetPage` makes now comes from vacant memory, and the request for it gives no mapped
page another frame. -/
def GivesTable (M : Kernel) : Prop :=
  ∀ p phys M₁, kallocPa rounds fresh sizeofTable M = .ok (p, phys, M₁) →
    M.Vacant sizeofTable p ∧ ∀ q, PageIn M.Named q → (M.paging.page q).present = true →
      M₁.paging.page q = M.paging.page q

end

/-- A page that `kalloc_pa` makes present gets a frame other than frame 0. -/
theorem kallocPa_present {size : Nat} (hsz : 32 * M.paging.frames.size ≤ 0x100000)
    (hz : M.paging.frames.bit 0 = true) (h : kallocPa rounds fresh size M = .ok (p, phys, M₁))
    (hq : (M₁.paging.page q).present = true) :
    (M.paging.page q).present = true ∨ (M₁.paging.page q).frame ≠ 0 := by
  have hkeeps : AllocKeeps fun P => 32 * P.frames.size ≤ 0x100000 ∧ P.frames.bit 0 = true ∧
      ((P.page q).present = true → (M.paging.page q).present = true ∨ (P.page q).frame ≠ 0) := by
    rintro P P' r k w ⟨h1, h2, h3⟩ ha
    by_cases h0 : (P.page r).frame = 0
    · obtain ⟨f, -, hlt, hclear, hsz, hbits, hpage⟩ := allocFrame_gives ha h0
      refine ⟨hsz ▸ h1, by rw [hbits, h2, Bool.or_true], fun hpres => ?_⟩
      by_cases hr : q = r
      · refine .inr ?_
        rw [hr, hpage]
        show f % 0x100000 ≠ 0
        rw [Nat.mod_eq_of_lt (by omega)]
        rintro rfl
        rw [h2] at hclear
        cases hclear
      · rw [allocFrame_page ha hr] at hpres ⊢
        exact h3 hpres
    · rcases allocFrame_cases ha with ⟨-, rfl⟩ | ⟨hz, -⟩
      · exact ⟨h1, h2, h3⟩
      · exact absurd hz h0
  exact ((kallocPa_each hkeeps.kernel size M ⟨hsz, hz, .inl⟩).ok h).2.2 hq

theorem makeTable_kept {dir : Nat} (h0 : M.slot dir i = 0)
    (ha : kallocPa rounds fresh sizeofTable M = .ok (p, phys, M₁))
    (h : makeTable (kallocPa rounds fresh) dir i M = .ok u) :
    u.liveDirectories = M.liveDirectories ∧ u.paging.phys = M.paging.phys ∧
      u.paging.frames = M₁.paging.frames ∧
      ∀ S, HeldOnce S M₁.paging → HeldOnce (fun x => x = p ∨ S x) u.paging := by
  have hlive : M₁.liveDirectories = M.liveDirectories := kallocPa_live ha
  have hphys : M₁.paging.phys = M.paging.phys := kallocPa_phys ha
  rw [makeTable_eq h0 ha h]
  exact ⟨hlive, hphys, rfl, fun S hH => (hH.newTable p).congr rfl rfl⟩

/-- **`GetPage`, where it may make a table.** -/
theorem makeTable_maps (hR : Paged M) (hg : M.currentSlot i = 0 → GivesTable rounds fresh M)
    (h : makeTable (kallocPa rounds fresh) M.paging.currentDirectory i M = .ok u) :
    Paged u ∧ Maps M u ∧ u.paging.currentDirectory = M.paging.currentDirectory := by
  rcases makeTable_cases h with ⟨-, rfl⟩ | ⟨h0, p, phys, M₁, ha, hmade⟩
  · exact ⟨hR, .refl _, rfl⟩
  · obtain ⟨hvac, hkeep⟩ := hg h0 p phys M₁ ha
    have hp : ∀ x, M.Named x → x ≠ p := fun x hx he => by
      have := hvac.tables x hx
      simp only [Apart, sizeofTable] at this
      omega
    obtain ⟨hlive, hphys, hframes, hheld⟩ := makeTable_kept h0 ha h
    have hH₁ : HeldOnce M.Named M₁.paging := (kallocPa_each heldOnce_alloc.kernel _ _ hR.frames).ok ha
    have hu : Untouched M.Named M.KernelNamed M.paging M₁.paging :=
      kallocPa_untouched (fun i hi => ⟨i, hi, rfl⟩) ha
    have hcur := hmade.current
    have hslot := hmade.slots
    have hcs : ∀ j, u.currentSlot j = if j = i then p else M.currentSlot j := by
      intro j
      unfold currentSlot
      rw [hcur, hslot]
      simp
    have hnamed : ∀ j < arraySize, M.currentSlot j ≠ 0 → M.currentSlot j ≠ p := fun j hj hne =>
      hp _ ⟨hne, _, hR.current, j, hj, rfl⟩
    -- a page that has a table keeps it
    have hold : ∀ n < 0x100000, M.currentSlot (n / 1024) ≠ 0 → u.currentSlot (n / 1024) ≠ 0 ∧
        u.paging.page (u.currentPage n) = M₁.paging.page (M.currentPage n) ∧
        PageIn M.Named (M.currentPage n) := by
      intro n hn hne
      have hj : n / 1024 < arraySize := show _ < 1024 by omega
      have hni : n / 1024 ≠ i := fun he => hne (he ▸ h0)
      have hsame : u.currentSlot (n / 1024) = M.currentSlot (n / 1024) := by rw [hcs, if_neg hni]
      refine ⟨hsame.symm ▸ hne, ?_, ⟨hne, _, hR.current, _, hj, rfl⟩,
        show n % 1024 < 1024 by omega⟩
      rw [currentPage, hsame]
      exact makeTable_page h0 ha h (hnamed _ hj hne)
    refine ⟨⟨?_, ?_, hframes ▸ hu.bits 0 hR.zero, (hheld _ hH₁).mono ?_, ?_⟩,
      ⟨⟨fun n hn hm => ?_, fun n hn hf => ?_, fun n hn hm => ?_⟩, hphys⟩, hcur⟩
    · rw [hmade.kernel, hlive]
      exact hR.kernel
    · rw [hcur, hlive]
      exact hR.current
    · rintro x ⟨hx0, d, hd, j, hj, hx⟩
      rw [hslot] at hx
      split at hx
      · exact .inl hx.symm
      · exact .inr ⟨hx0, d, hlive ▸ hd, j, hj, hx⟩
    · intro a ha' b hb hne he
      rw [hcs] at hne he
      rw [hcs] at he
      split at he <;> split at he
      · exact ‹a = i›.trans ‹b = i›.symm
      · exact absurd he.symm (hnamed b hb (he ▸ hvac.notNull))
      · rw [if_neg ‹a ≠ i›] at hne
        exact absurd he (hnamed a ha' hne)
      · rw [if_neg ‹a ≠ i›] at hne
        exact hR.once a ha' b hb hne he
    · obtain ⟨h1, h2, h3⟩ := hold n hn hm.1
      rw [hkeep _ h3 hm.2] at h2
      exact ⟨⟨h1, h2.symm ▸ hm.2⟩, h2⟩
    · obtain ⟨h1, h2, -⟩ := hold n hn hf.1
      rw [kallocPa_framed ha hf.2] at h2
      exact ⟨h1, h2.symm ▸ hf.2⟩
    · by_cases hni : n / 1024 = i
      · have : u.paging.page (u.currentPage n) = Page.zero := by
          rw [currentPage, hcs, if_pos hni]
          exact hmade.zero _
        rw [Mapped, this] at hm
        exact absurd hm.2 (by decide)
      · have hne : M.currentSlot (n / 1024) ≠ 0 := by
          have := hm.1
          rwa [hcs, if_neg hni] at this
        obtain ⟨-, h2, -⟩ := hold n hn hne
        have hpres := hm.2
        rw [h2] at hpres ⊢
        exact (kallocPa_present hR.frames.size hR.zero ha hpres).imp_left fun hpr => ⟨hne, hpr⟩

/-- **`AllocFrame`** of a page that is not mapped to frame 0. -/
theorem allocFrame_maps {P : Paging} {k w : Bool} (hR : Paged M)
    (hT : M.currentSlot (n / 1024) ≠ 0)
    (h0 : M.Mapped n → (M.paging.page (M.currentPage n)).frame ≠ 0)
    (h : M.paging.allocFrame (M.currentPage n) k w = .ok P) :
    Paged (M.withPaging P) ∧ Maps M (M.withPaging P) ∧ (M.withPaging P).HasFrame n := by
  have hs := allocFrame_same h
  have hslot := currentSlot_withPaging hs
  have hpage := currentPage_withPaging hs
  have hheld : HeldOnce M.Named P := heldOnce_alloc _ _ _ _ _ hR.frames h
  have hnamed : ∀ x, (M.withPaging P).Named x → M.Named x := by
    rintro x ⟨hx0, d, hd, j, hj, hx⟩
    refine ⟨hx0, d, hd, j, hj, ?_⟩
    have : (P.directories d).tables j = x := hx
    rwa [hs.directories] at this
  have hbit : P.frames.bit 0 = true := by
    rcases allocFrame_cases h with ⟨-, rfl⟩ | ⟨hf, -⟩
    · exact hR.zero
    · obtain ⟨f, -, -, -, -, hbits, -⟩ := allocFrame_gives h hf
      rw [hbits, hR.zero, Bool.or_true]
  have hR' : Paged (M.withPaging P) := by
    refine ⟨?_, ?_, hbit, hheld.mono hnamed, ?_⟩
    · show P.kernelDirectory ∈ M.liveDirectories
      rw [hs.kernel]
      exact hR.kernel
    · show P.currentDirectory ∈ M.liveDirectories
      rw [hs.current]
      exact hR.current
    · simpa only [hslot] using hR.once
  by_cases hf : (M.paging.page (M.currentPage n)).frame = 0
  · -- the page gets a frame other than frame 0
    have habs : (M.paging.page (M.currentPage n)).present ≠ true := fun hpr => h0 ⟨hT, hpr⟩ hf
    obtain ⟨f, -, hlt, hclear, -, -, hnew⟩ := allocFrame_gives h hf
    have hsize := hR.frames.size
    have hf0 : (P.page (M.currentPage n)).frame ≠ 0 := by
      rw [hnew]
      show f % 0x100000 ≠ 0
      rw [Nat.mod_eq_of_lt (by omega)]
      rintro rfl
      rw [hR.zero] at hclear
      cases hclear
    have hother : ∀ m, M.currentPage m ≠ M.currentPage n →
        (M.withPaging P).paging.page ((M.withPaging P).currentPage m) =
          M.paging.page (M.currentPage m) := fun m hm => by
      rw [hpage]
      exact allocFrame_page h hm
    have hsame : ∀ m, M.currentPage m = M.currentPage n →
        (M.withPaging P).paging.page ((M.withPaging P).currentPage m) =
          P.page (M.currentPage n) := fun m hm => by
      rw [hpage, hm]
      rfl
    refine ⟨hR', ⟨⟨fun m hm hmap => ?_, fun m hm hfr => ?_, fun m hm hmap => ?_⟩,
      allocFrame_phys h⟩, (hslot _).symm ▸ hT, ?_⟩
    · have hne : M.currentPage m ≠ M.currentPage n := fun he => habs (he ▸ hmap.2)
      exact ⟨⟨(hslot _).symm ▸ hmap.1, (hother m hne).symm ▸ hmap.2⟩, hother m hne⟩
    · have hne : M.currentPage m ≠ M.currentPage n := fun he => hfr.2 (he ▸ hf)
      exact ⟨(hslot _).symm ▸ hfr.1, (hother m hne).symm ▸ hfr.2⟩
    · by_cases he : M.currentPage m = M.currentPage n
      · exact .inr ((hsame m he).symm ▸ hf0)
      · exact .inl ⟨hslot _ ▸ hmap.1, hother m he ▸ hmap.2⟩
    · rw [hsame n rfl]
      exact hf0
  · rcases allocFrame_cases h with ⟨-, rfl⟩ | ⟨hz, -⟩
    · exact ⟨hR', .refl M, hT, hf⟩
    · exact absurd hz hf

/-! ### Where the heap serves the tables -/

/-- No page of the kernel heap's range is present with frame 0. -/
def HeapFramed (M : Kernel) : Prop :=
  ∀ a, heapFirst .kheap ≤ a → a < heapMax .kheap →
    (M.paging.page (M.paging.pageAt (a / 0x1000))).present = true →
      (M.paging.page (M.paging.pageAt (a / 0x1000))).frame ≠ 0

variable {I : (Nat → Nat → Prop) → Paging → Prop} {made : List (Nat × Nat)}
  {held : HeapName → List (Nat × Nat)} {S : Finset Nat}

theorem HousedWith.kallocPa_kept {size : Nat} (h : HousedWith I made held M) (hF : HeapFramed M)
    (ha : kallocPa rounds fresh size M = .ok (p, phys, M₁))
    (hq : (M.paging.page q).present = true) : M₁.paging.page q = M.paging.page q := by
  by_cases h0 : (M.paging.page q).frame = 0
  · obtain ⟨⟨hlo, -, hmax⟩, hkept⟩ := h.housed.kallocPa_page ha
    refine hkept q fun a h1 h2 he => ?_
    subst he
    exact hF a (hlo.trans h1) (h2.trans_le hmax) hq h0
  · exact kallocPa_framed ha h0

/-- **A table the kernel heap serves** comes from vacant memory. -/
theorem Extending.givesTable (hI : Built I) (h : Extending I held S M) (hF : HeapFramed M) (hi : i ∈ S)
    (h0 : M.currentSlot i = 0) : GivesTable rounds fresh M := by
  intro p phys M₁ ha
  have hs := h.serves
  obtain ⟨made, hH⟩ := h.housed
  obtain ⟨n, hn⟩ : ∃ n, (M.missingSlots S).card = n + 1 :=
    Nat.exists_eq_succ_of_ne_zero (Finset.card_ne_zero_of_mem (mem_missingSlots.2 ⟨hi, h0⟩))
  rw [hn, tableRequests_succ] at hs
  exact ⟨(hH.kallocPa_vacant hI hs ha).2.2, fun q _ hq => hH.kallocPa_kept hF ha hq⟩

theorem HeapFramed.allocFrame {P : Paging} {k w : Bool} (h : HeapFramed M)
    (hsz : 32 * M.paging.frames.size ≤ 0x100000) (hz : M.paging.frames.bit 0 = true)
    (ha : M.paging.allocFrame q k w = .ok P) : HeapFramed (M.withPaging P) := by
  intro a h1 h2
  show (P.page (P.pageAt _)).present = true → (P.page (P.pageAt _)).frame ≠ 0
  rw [(allocFrame_same ha).pageAt]
  by_cases he : M.paging.pageAt (a / 0x1000) = q
  · rcases allocFrame_cases ha with ⟨-, rfl⟩ | ⟨hf, -⟩
    · exact h a h1 h2
    · intro _
      obtain ⟨f, -, hlt, hclear, -, -, hpage⟩ := allocFrame_gives ha hf
      rw [he, hpage]
      show f % 0x100000 ≠ 0
      rw [Nat.mod_eq_of_lt (by omega)]
      rintro rfl
      rw [hz] at hclear
      cases hclear
  · rw [allocFrame_page ha he]
    exact h a h1 h2

/-- A table that is made leaves the kernel heap's pages as they are, or gives them frames. -/
theorem HeapFramed.makeTable (h : HeapFramed M) (hs : Held HeapSlot M) (hR : Paged M)
    (hg : M.currentSlot i = 0 → GivesTable rounds fresh M)
    (hm : makeTable (kallocPa rounds fresh) M.paging.currentDirectory i M = .ok u) :
    HeapFramed u := by
  rcases makeTable_cases hm with ⟨-, rfl⟩ | ⟨h0, p, phys, M₁, ha, hmade⟩
  · exact h
  · obtain ⟨hvac, hkeep⟩ := hg h0 p phys M₁ ha
    intro a h1 h2
    have hslot : HeapSlot (a / 0x1000 / 1024) := by
      have := heapMax_le .kheap
      have := heapFirst_ge .kheap
      rw [kheapStart_eq] at this
      unfold HeapSlot
      omega
    have hne : M.paging.kernelTable (a / 0x1000 / 1024) ≠ 0 := hs _ hslot
    have hname : M.Named (M.paging.kernelTable (a / 0x1000 / 1024)) :=
      ⟨hne, _, hR.kernel, _, show _ < 1024 by unfold HeapSlot at hslot; omega, rfl⟩
    have hat : u.paging.pageAt (a / 0x1000) = M.paging.pageAt (a / 0x1000) := by
      have : u.slot u.paging.kernelDirectory (a / 0x1000 / 1024) =
          M.paging.kernelTable (a / 0x1000 / 1024) := by
        rw [hmade.kernel, hmade.slots, if_neg]
        · rfl
        · rintro ⟨hk, hi⟩
          refine hne ?_
          rw [← h0, ← hk, ← hi]
          rfl
      exact congrArg (PagePtr.mk · _) this
    have htab : (M.paging.pageAt (a / 0x1000)).table ≠ p := fun he => by
      have := hvac.tables _ hname
      rw [show M.paging.kernelTable (a / 0x1000 / 1024) = p from he] at this
      simp only [Apart, sizeofTable] at this
      omega
    rw [hat, makeTable_page h0 ha hm htab]
    intro hpres
    rcases kallocPa_present hR.frames.size hR.zero ha hpres with hp | hf
    · rw [hkeep _ ⟨hname, show a / 0x1000 % 1024 < 1024 by omega⟩ hp]
      exact h a h1 h2 hp
    · exact hf

theorem makeTable_empty {j : Nat}
    (hm : makeTable (kallocPa rounds fresh) M.paging.currentDirectory i M = .ok u)
    (h0 : u.currentSlot j = 0) : M.currentSlot j = 0 := by
  rcases makeTable_cases hm with ⟨-, rfl⟩ | ⟨hz, p, phys, M₁, -, hmade⟩
  · exact h0
  · rw [currentSlot, hmade.current, hmade.slots] at h0
    split at h0
    · rename_i hj
      exact hj.2 ▸ hz
    · exact h0

/-- Frames are in order, the kernel heap serves a request for each slot of `S` without a table, and
while there is one no page of that heap is present with frame 0. -/
structure Framing (I : (Nat → Nat → Prop) → Paging → Prop) (held : HeapName → List (Nat × Nat))
    (S : Finset Nat) (M : Kernel) : Prop where
  paged : Paged M
  extending : Extending I held S M
  heap : (M.missingSlots S).Nonempty → HeapFramed M

theorem Framing.rewritten (hI : Built I) (h : Framing I held S M) (hw : Rewritten M M') :
    Framing I held S M' := by
  have hR := h.paged.rewritten hw
  obtain ⟨φ, rfl⟩ := hw
  obtain ⟨-, ⟨⟨made, hH⟩, hs⟩, hF⟩ := h
  exact ⟨hR, ⟨⟨made, hH.withPaging ⟨rfl, rfl, rfl, rfl⟩ (hI.rest hH.inv rfl rfl)⟩, hs.congr rfl⟩, hF⟩

/-- **One round of `AllocateRange`** whose table the kernel heap serves. -/
theorem Framing.allocPage (hI : Built I) (hM : Framing I held S M)
    (ha : i < 4294967296) (hS : i / 0x1000 / 1024 ∈ S)
    (h0 : M.Mapped (i / 0x1000) → (M.paging.page (M.currentPage (i / 0x1000))).frame ≠ 0)
    (h : allocPage (kallocPa rounds fresh) M.paging.currentDirectory true i M = .ok u) :
    Framing I held S u ∧ Maps M u ∧ u.HasFrame (i / 0x1000) := by
  obtain ⟨hR, hE, hF⟩ := hM
  have hE' := allocPage_extending hI hE ha hS h
  have hg : M.currentSlot (i / 0x1000 / 1024) = 0 → GivesTable rounds fresh M :=
    fun hz => hE.givesTable hI (hF ⟨_, mem_missingSlots.2 ⟨hS, hz⟩⟩) hS hz
  obtain ⟨made, hH⟩ := hE.housed
  obtain ⟨⟨q, t⟩, hq, h⟩ := bind_ok.1 h
  obtain ⟨P, hP, h⟩ := bind_ok.1 h
  cases h
  obtain ⟨t', ht, hq⟩ := bind_ok.1 hq
  obtain ⟨q', hq', hq⟩ := bind_ok.1 hq
  cases hq
  obtain ⟨hRt, hm, hcur⟩ := makeTable_maps hR hg ht
  obtain ⟨hT, rfl⟩ : t.currentSlot (i / 0x1000 / 1024) ≠ 0 ∧ q = t.currentPage (i / 0x1000) := by
    rw [← hcur] at hq'
    unfold Paging.getPage at hq'
    dsimp only at hq'
    split at hq'
    · cases hq'
    · cases hq'
      exact ⟨‹_›, rfl⟩
  have hn : i / 0x1000 < 0x100000 := by omega
  obtain ⟨hRu, hm', hf⟩ := allocFrame_maps hRt hT (hm.frame_ne hn h0) hP
  refine ⟨⟨hRu, hE', fun ⟨s, hs⟩ => ?_⟩, hm.trans hm', hf⟩
  -- a slot that is missing now was missing before
  obtain ⟨hsS, hs0⟩ := mem_missingSlots.1 hs
  rw [currentSlot_withPaging (allocFrame_same hP)] at hs0
  have hF' := hF ⟨s, mem_missingSlots.2 ⟨hsS, makeTable_empty ht hs0⟩⟩
  exact (hF'.makeTable hH.slots hR hg ht).allocFrame hRt.frames.size hRt.zero hP

/-- **`AllocateRange`** keeps what is mapped and gives every page of the range a frame, where none of
them is mapped to frame 0. -/
theorem Framing.allocateRange {k : Nat} (hI : Built I) (hM : Framing I held S M)
    (hsum : address + size < 0xFFFFF000)
    (hS : slotsOf (pageBits address) (pageBits (add32 address size)) ⊆ S)
    (h0 : ∀ n, address / 0x1000 ≤ n → n ≤ (address + size) / 0x1000 → M.Mapped n →
      (M.paging.page (M.currentPage n)).frame ≠ 0)
    (h : allocateRange (kallocPa rounds fresh) k address size M = .ok M') :
    Framing I held S M' ∧ Maps M M' ∧
      ∀ n, address / 0x1000 ≤ n → n ≤ (address + size) / 0x1000 → M'.HasFrame n := by
  have hfirst : pageBits address = address / 0x1000 * 0x1000 := pageBits_eq (by omega)
  have hlast : pageBits (add32 address size) = (address + size) / 0x1000 * 0x1000 :=
    last_eq (by omega)
  obtain ⟨j, ⟨hj, hkeep, hm, hcov⟩, hend⟩ := loop_ok (I := fun j t => j % 0x1000 = 0 ∧
    Framing I held S t ∧ Maps M t ∧
    ∀ n, address / 0x1000 ≤ n → n < j / 0x1000 → t.HasFrame n) h
    ⟨by omega, hM, .refl M, fun n h1 h2 => by omega⟩
    fun j t u he ⟨hj, ht, hm, hcov⟩ hb => by
      obtain ⟨-, hlo, hhi⟩ := Round.bounds hsum he
      have hnext : add32 j 0x1000 = j + 0x1000 := add32_eq (by omega)
      have hn : j / 0x1000 < 0x100000 := by omega
      have hslot : j / 0x1000 / 1024 ∈ S := hS (mem_slotsOf.2 ⟨show _ < 1024 by omega, by omega,
        by omega⟩)
      obtain ⟨hu, hm', hf⟩ := ht.allocPage hI (by omega) hslot (hm.frame_ne hn (h0 _ hlo hhi)) hb
      rw [hnext]
      refine ⟨by omega, hu, hm.trans hm', fun n h1 h2 => ?_⟩
      by_cases hnj : n = j / 0x1000
      · rw [hnj]
        exact hf
      · exact hm'.framed n (by omega) (hcov n h1 (by omega))
  rw [decide_eq_false_iff_not, hlast] at hend
  exact ⟨hkeep, hm, fun n h1 h2 => hcov n h1 (by omega)⟩

/-! ## After `memory::Initialize` -/

theorem Initialized.paged {m : Nat} (h : Initialized m M) (hH : HeldOnce (fun _ => True) M.paging) :
    Paged M := by
  obtain ⟨K, k, hb, -⟩ := h.identity
  have hC := h.copyable hH
  have hslot : ∀ i < arraySize, M.currentSlot i = M.paging.kernelTable i := fun i hi => by
    rw [currentSlot, slot, h.current]
    exact (h.shared i hi).1
  refine ⟨hC.kernel, h.current ▸ hC.source, hC.zero, hC.frames, fun i hi j hj h0 he => ?_⟩
  rw [hslot i hi] at h0 he
  rw [hslot j hj] at he
  exact hb.apart i hi j hj h0 he

/-- The first two pages are mapped to the frames of their numbers, and the next frame is another. -/
theorem Initialized.lowPages {m : Nat} (h : Initialized m M) :
    ∃ K k, Backed M.paging K k ∧ 2 ≤ K ∧ ∀ n < 2,
      M.currentSlot 0 ≠ 0 ∧ M.currentPage n = M.paging.pageAt n ∧
        (M.paging.page (M.currentPage n)).present = true ∧
        (M.paging.page (M.currentPage n)).frame = n := by
  obtain ⟨K, k, hb, hK, -⟩ := h.identity
  -- a table lies below `base_address`
  have h768 : M.paging.kernelTable 768 ≠ 0 := h.held 768 ⟨by decide, by decide⟩
  obtain ⟨hreg, -⟩ := h.tables 768 (by decide) h768
  have hin := h.bumped.inside _ hreg
  have hal := h.bumped.aligned _ hreg rfl
  simp only [sizeofTable] at hin hal
  have hslot : M.currentSlot 0 = M.paging.kernelTable 0 := by
    rw [currentSlot, slot, h.current]
    exact (h.shared 0 (by decide)).1
  refine ⟨K, k, hb, by omega, fun n hn => ?_⟩
  obtain ⟨h0, hpres, hframe⟩ := hb.identity n (by omega)
  have hn0 : n / 1024 = 0 := by omega
  have hpage : M.currentPage n = M.paging.pageAt n := by
    rw [currentPage, pageAt, hn0, hslot]
  rw [hn0] at h0
  exact ⟨hslot.symm ▸ h0, hpage, hpage.symm ▸ hpres, hpage.symm ▸ hframe⟩

/-- A page of the kernel heap that is present has a frame behind the identity mapping. -/
theorem Initialized.heapFramed {m : Nat} (h : Initialized m M) : HeapFramed M := by
  obtain ⟨K, k, hb, hK, -⟩ := h.lowPages
  intro a h1 h2 hpres
  have hlo := heapFirst_ge .kheap
  have hhi := heapMax_le .kheap
  rw [kheapStart_eq] at hlo
  have hslot : HeapSlot (a / 0x1000 / 1024) := by
    unfold HeapSlot
    omega
  by_cases hv : a / 0x1000 < K
  · rw [(hb.identity _ hv).2.2]
    omega
  · rcases hb.above (a / 0x1000) (by omega) (by omega) (h.held _ hslot) with ⟨-, habs⟩ | ⟨hf, -⟩
    · rw [hpres] at habs
      cases habs
    · omega

end Kernel

end Dmanix
