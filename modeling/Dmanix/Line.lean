import Mathlib.Data.List.Range
import Mathlib.Logic.Function.Basic
import Mathlib.Tactic.Ring

/-!
# Pixels and lines (`src/screen.cc`)

`line` is Bresenham's algorithm in the 16-bit arithmetic of the source, over any `pixel`; `plotted`
is the list of the points it passes to `Pixel`, and the video memory is what these points make of it
(`draw_eq`).

`Spread` is what the error term is for: `b` steps spread over `a` rounds. The shallow branch takes
the steps of the shorter axis so (`shallowLoop_plots`). The steep branch has lost its loop: it plots
two points. `line_connected`: a line is drawn exactly where it is shallow or one pixel long.
-/

namespace Dmanix

/-! ## Steps spread over rounds -/

namespace Spread

/-- The steps taken in the first `i` of `a` rounds, when `b` steps are to be taken in all. -/
def taken (a b i : Nat) : Nat := (i * b + a / 2) / a

/-- The error term after `i` rounds. -/
def error (a b i : Nat) : Nat := (i * b + a / 2) % a

variable {a b : Nat}

theorem error_zero (ha : 0 < a) : error a b 0 = a / 2 := by
  unfold error
  rw [Nat.zero_mul, Nat.zero_add]
  exact Nat.mod_eq_of_lt (Nat.div_lt_self ha (by decide))

theorem taken_zero (ha : 0 < a) : taken a b 0 = 0 := by
  unfold taken
  rw [Nat.zero_mul, Nat.zero_add]
  exact Nat.div_eq_of_lt (Nat.div_lt_self ha (by decide))

theorem error_lt (ha : 0 < a) (i : Nat) : error a b i < a := Nat.mod_lt _ ha

/-- A round takes a step when the error term reaches the number of rounds. -/
theorem next (ha : 0 < a) (h : b ≤ a) (i : Nat) :
    if a ≤ error a b i + b
    then error a b (i + 1) = error a b i + b - a ∧ taken a b (i + 1) = taken a b i + 1
    else error a b (i + 1) = error a b i + b ∧ taken a b (i + 1) = taken a b i := by
  have hlt := @error_lt a b ha i
  have hdiv : error a b i + a * taken a b i = i * b + a / 2 := Nat.mod_add_div _ _
  have hsucc : (i + 1) * b + a / 2 = error a b i + b + a * taken a b i := by
    rw [Nat.add_mul]
    omega
  have heq : ∀ r q, r + a * q = error a b i + b + a * taken a b i → r < a →
      error a b (i + 1) = r ∧ taken a b (i + 1) = q := by
    intro r q hr hra
    obtain ⟨hq, hm⟩ := (Nat.div_mod_unique ha).2 ⟨hr.trans hsucc.symm, hra⟩
    exact ⟨hm, hq⟩
  by_cases hc : a ≤ error a b i + b
  · rw [if_pos hc]
    refine heq _ _ ?_ (by omega)
    rw [Nat.mul_add]
    omega
  · rw [if_neg hc]
    exact heq _ _ rfl (by omega)

theorem taken_succ (ha : 0 < a) (h : b ≤ a) (i : Nat) :
    taken a b (i + 1) = taken a b i ∨ taken a b (i + 1) = taken a b i + 1 := by
  have := next ha h i
  split at this
  · exact .inr this.2
  · exact .inl this.2

/-- As many steps as rounds: one a round. -/
theorem taken_same (ha : 0 < a) (i : Nat) : taken a a i = i := by
  unfold taken
  rw [Nat.add_comm, Nat.add_mul_div_right _ _ ha, Nat.div_eq_of_lt (by omega), Nat.zero_add]

/-- **All steps are taken** when the rounds are over. -/
theorem taken_all (ha : 0 < a) : taken a b a = b := by
  unfold taken
  rw [Nat.add_comm, Nat.add_mul_div_left _ _ ha, Nat.div_eq_of_lt (by omega), Nat.zero_add]

theorem taken_le {i : Nat} (hi : i ≤ a) : taken a b i ≤ b := by
  rcases Nat.eq_zero_or_pos a with h0 | ha
  · rw [h0, taken, Nat.div_zero]
    exact Nat.zero_le b
  · have hle := Nat.add_le_add_right (Nat.mul_le_mul_right b hi) (a / 2)
    exact (Nat.div_le_div_right hle).trans (taken_all ha).le

end Spread

/-! ## The code -/

namespace Mode13

/-- The conversion to `uint16_t`. -/
def uint16 (a : Int) : Nat := (a % 65536).toNat

/-- The conversion to `int16_t`. -/
def int16 (a : Int) : Int := Int.bmod a 65536

/-- `ABS(a)` -/
def abs (a : Int) : Int := if a < 0 then -a else a

/-- `SGN(a)` -/
def sgn (a : Int) : Int := if a < 0 then -1 else if a > 0 then 1 else 0

/-- The bytes from `mode13_vram` on. -/
abbrev Vram := Nat → UInt8

/-- `Pixel(x, y, c)` -/
def pixel (c : UInt8) (x y : Nat) (m : Vram) : Vram :=
  let index := uint16 (320 * y + x)
  Function.update m index c

section
variable {σ : Type} (pixel : Nat → Nat → σ → σ)

/-- The loop of the shallow branch, with `n` rounds left. -/
def shallowLoop (adx ady : Nat) (sdx sdy : Int) : Nat → Nat → Nat → Nat → σ → σ
  | 0, _, _, _, s => s
  | n + 1, y, px, py, s =>
    let y := uint16 (y + ady)
    let (y, py) := if y ≥ adx then (uint16 (y - adx), uint16 (py + sdy)) else (y, py)
    let px := uint16 (px + sdx)
    shallowLoop adx ady sdx sdy n y px py (pixel px py s)

/-- `Line(sx, sy, ex, ey, c)`, given `Pixel` -/
def line (sx sy ex ey : Nat) (s : σ) : σ :=
  let dx := int16 (ex - sx)
  let dy := int16 (ey - sy)
  let adx := uint16 (abs dx)
  let ady := uint16 (abs dy)
  let sdx := sgn dx
  let sdy := sgn dy
  let x := ady / 2
  let y := adx / 2
  let px := sx
  let py := sy
  let s := pixel px py s
  if adx ≥ ady then
    -- more horizontal
    shallowLoop pixel adx ady sdx sdy adx y px py s
  else
    -- more vertical: one step, not a loop
    let x := uint16 (x + adx)
    let px := if x ≥ ady then uint16 (px + sdx) else px
    let py := uint16 (py + sdy)
    pixel px py s

end

/-- `Line(sx, sy, ex, ey, c)` on the video memory. -/
def draw (c : UInt8) (sx sy ex ey : Nat) : Vram → Vram := line (pixel c) sx sy ex ey

/-- The points that `Line` passes to `Pixel`, in order. -/
def plotted (sx sy ex ey : Nat) : List (Nat × Nat) :=
  line (fun x y ps => ps ++ [(x, y)]) sx sy ex ey []

/-! ## What a line is -/

/-- The difference fits in a signed 16-bit integer. -/
def Fits (a b : Nat) : Prop := -32768 ≤ (b : Int) - a ∧ (b : Int) - a < 32768

/-- The length of an axis. -/
def span (a b : Nat) : Nat := ((b : Int) - a).natAbs

/-- `q` is a neighbour of `p`, one further along each axis of the length `n`. -/
structure Neighbour (n lx ly : Nat) (p q : Nat × Nat) : Prop where
  x : span p.1 q.1 ≤ 1
  y : span p.2 q.2 ≤ 1
  longX : lx = n → span p.1 q.1 = 1
  longY : ly = n → span p.2 q.2 = 1

/-- The points `ps` are a connected line from (`sx`, `sy`) to (`ex`, `ey`). -/
structure Connects (sx sy ex ey : Nat) (ps : List (Nat × Nat)) : Prop where
  length : ps.length = max (span sx ex) (span sy ey) + 1
  first : ps[0]? = some (sx, sy)
  last : ps[ps.length - 1]? = some (ex, ey)
  next : ∀ i p q, ps[i]? = some p → ps[i + 1]? = some q →
    Neighbour (max (span sx ex) (span sy ey)) (span sx ex) (span sy ey) p q
  inBox : ∀ p ∈ ps, (min sx ex ≤ p.1 ∧ p.1 ≤ max sx ex) ∧ min sy ey ≤ p.2 ∧ p.2 ≤ max sy ey

/-! ## The points make the picture -/

theorem shallowLoop_eq {σ : Type} (pixel : Nat → Nat → σ → σ) (adx ady : Nat) (sdx sdy : Int)
    (s : σ) : ∀ (n y px py : Nat) (ps : List (Nat × Nat)),
    shallowLoop pixel adx ady sdx sdy n y px py (ps.foldl (fun s p => pixel p.1 p.2 s) s) =
      (shallowLoop (fun x y ps => ps ++ [(x, y)]) adx ady sdx sdy n y px py ps).foldl
        (fun s p => pixel p.1 p.2 s) s := by
  intro n
  induction n with
  | zero => exact fun _ _ _ _ => rfl
  | succ n ih =>
    intro y px py ps
    simp only [shallowLoop]
    rw [← ih, List.foldl_append]
    rfl

/-- `Line` is `Pixel` on one plotted point after the other. -/
theorem line_eq {σ : Type} (pixel : Nat → Nat → σ → σ) (sx sy ex ey : Nat) (s : σ) :
    line pixel sx sy ex ey s = (plotted sx sy ex ey).foldl (fun s p => pixel p.1 p.2 s) s := by
  simp only [plotted, line]
  split
  · rw [← shallowLoop_eq]
    rfl
  · rfl

/-- What `Line` leaves in the video memory. -/
theorem draw_eq (c : UInt8) (sx sy ex ey : Nat) (m : Vram) : draw c sx sy ex ey m =
    (plotted sx sy ex ey).foldl (fun m p => pixel c p.1 p.2 m) m :=
  line_eq (pixel c) sx sy ex ey m

/-! ## The shallow branch -/

/-- The coordinate `i` steps from `a` on the way to `b`. -/
def toward (a b i : Nat) : Nat := if a ≤ b then a + i else a - i

/-- The point `i` of a shallow line. -/
def point (sx sy ex ey i : Nat) : Nat × Nat :=
  (toward sx ex i, toward sy ey (Spread.taken (span sx ex) (span sy ey) i))

theorem toward_zero (a b : Nat) : toward a b 0 = a := by
  unfold toward
  split
  · exact Nat.add_zero a
  · exact Nat.sub_zero a

theorem toward_span (a b : Nat) : toward a b (span a b) = b := by
  unfold toward span
  split
  · omega
  · omega

theorem toward_inBox {a b i : Nat} (hi : i ≤ span a b) :
    min a b ≤ toward a b i ∧ toward a b i ≤ max a b := by
  unfold span at hi
  unfold toward
  split
  · omega
  · omega

theorem span_toward_succ {a b i : Nat} (hi : i < span a b) :
    span (toward a b i) (toward a b (i + 1)) = 1 := by
  unfold span at hi
  unfold toward span
  split
  · omega
  · omega

theorem span_self (a : Nat) : span a a = 0 := by
  unfold span
  omega

theorem int16_eq {a b : Nat} (h : Fits a b) : int16 ((b : Int) - a) = b - a :=
  Int.bmod_eq_of_le h.1 h.2

theorem uint16_abs {a b : Nat} (h : Fits a b) : uint16 (abs ((b : Int) - a)) = span a b := by
  obtain ⟨h1, h2⟩ := h
  unfold uint16 abs span
  split
  · omega
  · omega

theorem uint16_nat {a : Nat} (h : a < 65536) : uint16 a = a := by
  unfold uint16
  omega

/-- One step of the pen along an axis. -/
theorem toward_step {a b i : Nat} (ha : a < 65536) (hb : b < 65536) (hi : i < span a b) :
    uint16 (toward a b i + sgn ((b : Int) - a)) = toward a b (i + 1) := by
  unfold span at hi
  unfold uint16 toward sgn
  by_cases hab : a ≤ b
  · rw [if_pos hab, if_pos hab, if_neg (by omega), if_pos (by omega)]
    omega
  · rw [if_neg hab, if_neg hab, if_pos (by omega)]
    omega

/-- The end points of a line, with differences that fit. -/
structure Ends (sx sy ex ey : Nat) : Prop where
  startX : sx < 65536
  startY : sy < 65536
  endX : ex < 65536
  endY : ey < 65536
  fitsX : Fits sx ex
  fitsY : Fits sy ey

variable {sx sy ex ey : Nat}

/-- The shallow branch from the point `i` on: the error term and the pen are those of the spread. -/
theorem shallowLoop_plots (h : Ends sx sy ex ey) (hle : span sy ey ≤ span sx ex) :
    ∀ (n i : Nat) (ps : List (Nat × Nat)), i + n = span sx ex →
      shallowLoop (fun x y ps => ps ++ [(x, y)]) (span sx ex) (span sy ey)
        (sgn ((ex : Int) - sx)) (sgn ((ey : Int) - sy)) n
        (Spread.error (span sx ex) (span sy ey) i) (point sx sy ex ey i).1
        (point sx sy ex ey i).2 ps =
      ps ++ (List.range' (i + 1) n).map (point sx sy ex ey) := by
  intro n
  induction n with
  | zero => exact fun _ ps _ => (List.append_nil ps).symm
  | succ n ih =>
    intro i ps hi
    have hpos : 0 < span sx ex := by omega
    have hmax : span sx ex ≤ 32768 := by
      have h1 := h.fitsX.1
      have h2 := h.fitsX.2
      unfold span
      omega
    have hlt := @Spread.error_lt _ (span sy ey) hpos i
    have hnext := Spread.next hpos hle i
    have hx : uint16 ((point sx sy ex ey i).1 + sgn ((ex : Int) - sx)) =
        (point sx sy ex ey (i + 1)).1 :=
      toward_step h.startX h.endX (by omega)
    have herr : uint16 (((Spread.error (span sx ex) (span sy ey) i : Nat) : Int) + span sy ey) =
        Spread.error (span sx ex) (span sy ey) i + span sy ey := by
      rw [← Nat.cast_add]
      exact uint16_nat (by omega)
    have hall := @Spread.taken_le _ (span sy ey) (i + 1) (by omega : i + 1 ≤ span sx ex)
    rw [shallowLoop, List.range'_succ, List.map_cons]
    simp only [hx, herr]
    by_cases hc : span sx ex ≤ Spread.error (span sx ex) (span sy ey) i + span sy ey
    · rw [if_pos hc] at hnext
      obtain ⟨he, ht⟩ := hnext
      have hy : uint16 ((point sx sy ex ey i).2 + sgn ((ey : Int) - sy)) =
          (point sx sy ex ey (i + 1)).2 := by
        unfold point
        rw [ht]
        exact toward_step h.startY h.endY (by omega)
      have hsub : uint16 (((Spread.error (span sx ex) (span sy ey) i + span sy ey : Nat) : Int) -
          span sx ex) = Spread.error (span sx ex) (span sy ey) (i + 1) := by
        rw [he, ← Nat.cast_sub hc]
        exact uint16_nat (by omega)
      rw [if_pos hc]
      dsimp only
      rw [hy, hsub, ih (i + 1) _ (by omega), List.append_assoc]
      rfl
    · rw [if_neg hc] at hnext
      obtain ⟨he, ht⟩ := hnext
      have hy : (point sx sy ex ey i).2 = (point sx sy ex ey (i + 1)).2 := by
        unfold point
        rw [ht]
      rw [if_neg hc]
      dsimp only
      rw [hy, ← he, ih (i + 1) _ (by omega), List.append_assoc]
      rfl

theorem point_zero : point sx sy ex ey 0 = (sx, sy) := by
  unfold point
  rcases Nat.eq_zero_or_pos (span sx ex) with h0 | hpos
  · rw [h0]
    unfold Spread.taken
    rw [Nat.div_zero, toward_zero, toward_zero]
  · rw [Spread.taken_zero hpos, toward_zero, toward_zero]

theorem plotted_shallow (h : Ends sx sy ex ey) (hle : span sy ey ≤ span sx ex) :
    plotted sx sy ex ey = (List.range (span sx ex + 1)).map (point sx sy ex ey) := by
  unfold plotted line
  simp only [int16_eq h.fitsX, int16_eq h.fitsY, uint16_abs h.fitsX, uint16_abs h.fitsY]
  rw [if_pos hle, List.range_eq_range', List.range'_succ, List.map_cons, point_zero]
  rcases Nat.eq_zero_or_pos (span sx ex) with h0 | hpos
  · rw [h0]
    rfl
  · have hloop := shallowLoop_plots h hle (span sx ex) 0 [(sx, sy)] (Nat.zero_add _)
    rw [point_zero, Spread.error_zero hpos] at hloop
    exact hloop

theorem plotted_steep (h : Ends sx sy ex ey) (hlt : span sx ex < span sy ey) :
    ∃ x, plotted sx sy ex ey = [(sx, sy), (x, toward sy ey 1)] ∧ (span sx ex = 0 → x = sx) := by
  have hy : uint16 (sy + sgn ((ey : Int) - sy)) = toward sy ey 1 := by
    have := @toward_step sy ey 0 h.startY h.endY (by omega)
    rwa [toward_zero] at this
  unfold plotted line
  simp only [int16_eq h.fitsX, int16_eq h.fitsY, uint16_abs h.fitsX, uint16_abs h.fitsY]
  rw [if_neg (by omega), hy]
  refine ⟨_, rfl, fun h0 => ?_⟩
  rw [h0]
  have hhalf : uint16 ((span sy ey / 2 : Nat) + (0 : Nat) : Int) = span sy ey / 2 := by
    have h1 := h.fitsY.1
    have h2 := h.fitsY.2
    unfold span uint16
    omega
  rw [hhalf, if_neg (by omega)]

/-! ## Where a line is drawn -/

theorem point_last (hle : span sy ey ≤ span sx ex) : point sx sy ex ey (span sx ex) = (ex, ey) := by
  rw [point, toward_span]
  rcases Nat.eq_zero_or_pos (span sx ex) with h0 | hpos
  · have hy := toward_span sy ey
    rw [show span sy ey = 0 by omega] at hy ⊢
    rw [h0, Spread.taken, Nat.div_zero, hy]
  · rw [Spread.taken_all hpos, toward_span]

/-- The points of a shallow line are neighbours. -/
theorem point_next (hle : span sy ey ≤ span sx ex) {i : Nat} (hi : i < span sx ex) :
    Neighbour (span sx ex) (span sx ex) (span sy ey) (point sx sy ex ey i)
      (point sx sy ex ey (i + 1)) := by
  have hpos : 0 < span sx ex := by omega
  have hx : span (point sx sy ex ey i).1 (point sx sy ex ey (i + 1)).1 = 1 := span_toward_succ hi
  have hlast := @Spread.taken_le _ (span sy ey) (i + 1) (by omega : i + 1 ≤ span sx ex)
  have hstep := Spread.taken_succ hpos hle i
  have hy : span (point sx sy ex ey i).2 (point sx sy ex ey (i + 1)).2 =
      Spread.taken (span sx ex) (span sy ey) (i + 1) -
        Spread.taken (span sx ex) (span sy ey) i := by
    unfold point
    rcases hstep with ht | ht
    · rw [ht, span_self, Nat.sub_self]
    · rw [ht, span_toward_succ (by omega), Nat.add_sub_cancel_left]
  refine ⟨hx.le, by omega, fun _ => hx, fun hlong => ?_⟩
  rw [hy, hlong, Spread.taken_same hpos, Spread.taken_same hpos, Nat.add_sub_cancel_left]

theorem connects_shallow (h : Ends sx sy ex ey) (hle : span sy ey ≤ span sx ex) :
    Connects sx sy ex ey (plotted sx sy ex ey) := by
  have hmax : max (span sx ex) (span sy ey) = span sx ex := Nat.max_eq_left hle
  have hget : ∀ i p, ((List.range (span sx ex + 1)).map (point sx sy ex ey))[i]? = some p →
      i ≤ span sx ex ∧ p = point sx sy ex ey i := by
    intro i p hp
    rw [List.getElem?_map, Option.map_eq_some_iff] at hp
    obtain ⟨j, hj, rfl⟩ := hp
    obtain ⟨hi, rfl⟩ := List.getElem?_eq_some_iff.1 hj
    rw [List.length_range] at hi
    rw [List.getElem_range]
    exact ⟨by omega, rfl⟩
  rw [plotted_shallow h hle]
  refine ⟨?_, ?_, ?_, ?_, ?_⟩
  · rw [List.length_map, List.length_range, hmax]
  · rw [List.getElem?_map, List.getElem?_range (Nat.succ_pos _), Option.map_some, point_zero]
  · rw [List.length_map, List.length_range, Nat.add_sub_cancel, List.getElem?_map,
      List.getElem?_range (Nat.lt_succ_self _), Option.map_some, point_last hle]
  · intro i p q hp hq
    obtain ⟨-, rfl⟩ := hget i p hp
    obtain ⟨hi, rfl⟩ := hget (i + 1) q hq
    rw [hmax]
    exact point_next hle hi
  · intro p hp
    obtain ⟨i, hi, rfl⟩ := List.mem_map.1 hp
    have hi := List.mem_range.1 hi
    exact ⟨toward_inBox (by omega), toward_inBox (Spread.taken_le (by omega))⟩

/-- A vertical line of one pixel's length. -/
theorem connects_lone (h0 : span sx ex = 0) (h1 : span sy ey = 1) :
    Connects sx sy ex ey [(sx, sy), (ex, ey)] := by
  have hex : ex = sx := by
    unfold span at h0
    omega
  subst hex
  have hmax : max (span ex ex) (span sy ey) = 1 := by omega
  rw [h0] at hmax
  refine ⟨?_, rfl, rfl, ?_, ?_⟩
  · rw [h0, hmax]
    rfl
  · intro i p q hp hq
    cases i with
    | zero =>
      cases hp
      cases hq
      rw [h0, hmax]
      exact ⟨h0.le.trans (Nat.zero_le 1), h1.le, nofun, fun _ => h1⟩
    | succ i => cases hq
  · intro p hp
    simp only [List.mem_cons, List.not_mem_nil, or_false] at hp
    cases hp with
    | inl hp =>
      subst hp
      exact ⟨by omega, by omega⟩
    | inr hp =>
      subst hp
      exact ⟨by omega, by omega⟩

/-- **Lines are drawn** exactly where they are not steep, and where they are one pixel long: a
steep line is left after its second point. -/
theorem line_connected (h : Ends sx sy ex ey) : Connects sx sy ex ey (plotted sx sy ex ey) ↔
    span sy ey ≤ span sx ex ∨ span sy ey = 1 := by
  by_cases hle : span sy ey ≤ span sx ex
  · exact iff_of_true (connects_shallow h hle) (.inl hle)
  · have hlt : span sx ex < span sy ey := by omega
    obtain ⟨x, hp, hx⟩ := plotted_steep h hlt
    constructor
    · intro hc
      have hlen := hc.length
      rw [hp, Nat.max_eq_right hlt.le] at hlen
      simp only [List.length_cons, List.length_nil] at hlen
      exact .inr (by omega)
    · intro hor
      have h1 : span sy ey = 1 := hor.resolve_left hle
      have h0 : span sx ex = 0 := by omega
      have hy := toward_span sy ey
      have hex : x = ex := by
        rw [hx h0]
        unfold span at h0
        omega
      rw [h1] at hy
      rw [hp, hex, hy]
      exact connects_lone h0 h1

theorem line_connected_shallow : Connects 0 0 2 1 (plotted 0 0 2 1) ↔
    span 0 1 ≤ span 0 2 ∨ span 0 1 = 1 :=
  line_connected ⟨by decide, by decide, by decide, by decide, ⟨by decide, by decide⟩,
    ⟨by decide, by decide⟩⟩

/-- **A vertical line of three pixels** ends after two. -/
theorem steep_cut : ¬ Connects 0 0 0 2 (plotted 0 0 0 2) := by
  intro h
  exact absurd h.length (by decide)

end Mode13

end Dmanix
