import Dmanix.Memory.Clients
import Dmanix.Memory.Proof.Layout

/-!
# Walking a heap

`VisitAllHeaders` on a laid out heap visits the header of each block and ends at `end_address`
(`Laid.visit_ok`), so `Verify` and `Dump` return (`Laid.verify_ok`, `Laid.dump_ok`).
-/

namespace Dmanix

open Word32 Bytes Tiling

section
variable {s : HeapState} {bs : List Block} {β : Type} {callback : Nat → Except Halt β} {f : Nat → β}

theorem AllTagged.visit_ok (htop : s.endAddress < 4294967296) : ∀ {bs : List Block} {a fuel : Nat},
    AllTagged s.mem a bs → a + extent Block.size bs = s.endAddress → bs.length < fuel →
    (∀ p ∈ place Block.size a bs, callback p.1 = .ok (f p.1)) →
    s.visitAllHeaders callback fuel a = .ok ((place Block.size a bs).map (f ·.1), s.endAddress) := by
  intro bs
  induction bs with
  | nil =>
    intro a fuel h he hf _
    obtain ⟨fuel, rfl⟩ : ∃ k, fuel = k + 1 := ⟨fuel - 1, by simp only [List.length_nil] at hf; omega⟩
    rw [extent_nil, Nat.add_zero] at he
    unfold HeapState.visitAllHeaders
    rw [if_neg (by omega), he]
    rfl
  | cons b bs ih =>
    intro a fuel h he hf hc
    obtain ⟨fuel, rfl⟩ : ∃ k, fuel = k + 1 := ⟨fuel - 1, by omega⟩
    obtain ⟨ht, hts⟩ := allTagged_cons.1 h
    have h8 := ht.least
    have hsize : (s.header a).size = b.size := congrArg Header.size ht.header
    rw [extent_cons] at he
    rw [List.length_cons] at hf
    have hadd : add32 a b.size = a + b.size := add32_eq (by omega)
    have hhead : callback a = .ok (f a) := hc (a, b) (by rw [place_cons]; exact List.mem_cons_self)
    have hrest := @ih (a + b.size) fuel hts (by omega) (by omega)
      fun p hp => hc p (by rw [place_cons]; exact List.mem_cons_of_mem _ hp)
    unfold HeapState.visitAllHeaders
    rw [if_pos (by omega), hhead, ok_bind, hsize, hadd, hrest]
    rfl

/-- **`VisitAllHeaders`** calls back for each block. -/
theorem Laid.visit_ok (h : Laid s bs) {fuel : Nat} (hf : bs.length < fuel)
    (hc : ∀ p ∈ place Block.size s.startAddress bs, callback p.1 = .ok (f p.1)) :
    s.visitAllHeaders callback fuel s.startAddress =
      .ok ((place Block.size s.startAddress bs).map (f ·.1), s.endAddress) :=
  h.tags.visit_ok h.top h.fills hf hc

/-- The headers of the blocks. -/
def headers (a : Nat) (bs : List Block) : List Nat := (place Block.size a bs).map (·.1)

@[simp] theorem length_headers (a : Nat) (bs : List Block) : (headers a bs).length = bs.length := by
  unfold headers
  rw [List.length_map, length_place]

theorem Laid.walk (h : Laid s bs) : s.Walk (headers s.startAddress bs) :=
  ⟨bs.length + 1, h.visit_ok (f := id) (Nat.lt_succ_self _) fun _ _ => rfl⟩

theorem Laid.verified (h : Laid s bs) {p : Nat × Block}
    (hp : p ∈ place Block.size s.startAddress bs) : s.Verified p.1 := by
  have ht := h.tags p hp
  have hsize : (s.header p.1).size = p.2.size := congrArg Header.size ht.header
  refine ⟨congrArg Header.magic ht.header, ?_, ?_, ?_⟩
  · rw [hsize]
    exact ht.least
  · rw [hsize]
    exact ht.magic
  · rw [hsize]
    exact ht.size

theorem Laid.verifyHeader_ok (h : Laid s bs) {p : Nat × Block}
    (hp : p ∈ place Block.size s.startAddress bs) : s.verifyHeader p.1 = .ok () := by
  have hv := h.verified hp
  have ht := h.tags p hp
  have hb := place_bounds hp
  have hf := h.fills
  have htop := h.top
  have h8 := hv.least
  have hsize : (s.header p.1).size = p.2.size := congrArg Header.size ht.header
  have hadd : sub32 (add32 p.1 (s.header p.1).size) 4 = p.1 + (s.header p.1).size - 4 := by
    rw [add32_eq (by omega), sub32_eq (by omega) (by omega)]
  unfold HeapState.verifyHeader
  simp only [hadd, hv.magic, hv.footMagic, hv.footSize, decide_true, assert_true, ok_bind]

/-- **`Verify`** returns. -/
theorem Laid.verify_ok (h : Laid s bs) {fuel : Nat} (hf : bs.length < fuel) :
    ∃ us, s.verify fuel = .ok (us, s.endAddress) :=
  ⟨_, h.visit_ok (f := fun _ => ()) hf fun _ hp => h.verifyHeader_ok hp⟩

/-- **`Dump`** returns. -/
theorem Laid.dump_ok (h : Laid s bs) {fuel : Nat} (hf : bs.length < fuel) :
    ∃ ds, s.dump fuel = .ok (ds, s.endAddress) := by
  refine ⟨_, h.visit_ok (f := fun x => (add32 x 4, (s.header x).isHole, sub32 (s.header x).size 8))
    hf fun p hp => ?_⟩
  unfold HeapState.dumpHeader
  rw [h.verifyHeader_ok hp, ok_bind]
  rfl

end

end Dmanix
