import Dmanix.Base.Assert
import Mathlib.Data.Int.Bitwise
import Mathlib.Logic.Function.Basic
import Mathlib.Tactic.NormNum

/-!
# The text screen (`src/screen.cc`)

`putc` writes at the cursor, wraps at column 80 and scrolls at row 25. The video memory holds 2000
cells; a store outside them halts the model. The colours are parameters. The port writes of
`Cursor::Move` are left out.

`TextPage` is what the screen is a window on: a page of 80 columns and endless rows, which is written
without scrolling. `window_on_page`: after any characters the screen shows the last 25 rows that
were started. `clear_erases`: `Clear` forgets what was on the screen but for its last cell.
-/

namespace Dmanix

namespace Screen

/-- `NUM_ROWS` -/
def numRows : Nat := 25

/-- `NUM_COLS` -/
def numCols : Nat := 80

/-- `TAB_WIDTH` -/
def tabWidth : Int := 8

/-- The cells from `text_vram` on. -/
abbrev Cells := Nat → UInt16

end Screen

/-- The video memory and the cursor. -/
structure Screen where
  cells : Screen.Cells
  x : Int
  y : Int

namespace Screen

/-- `text_vram[i] = v` -/
def store (i : Int) (v : UInt16) (m : Cells) : Except Halt Cells :=
  if 0 ≤ i ∧ i < numRows * numCols then .ok (Function.update m i.toNat v)
  else .error (.wild i.toNat)

/-- `copy16(&text_vram[dest], &text_vram[src], n)` -/
def copy16 (dest src : Nat) : Nat → Cells → Except Halt Cells
  | 0, m => return m
  | n + 1, m => do
    let m ← copy16 dest src n m
    store (dest + n) (m (src + n)) m

/-- `set16(&text_vram[dest], c, n)` -/
def set16 (dest : Nat) (c : UInt16) : Nat → Cells → Except Halt Cells
  | 0, m => return m
  | n + 1, m => do
    let m ← set16 dest c n m
    store (dest + n) c m

/-- The loop of `Scroll`, up to row `n`: copy into every row from the one below. -/
def scrollRows : Nat → Cells → Except Halt Cells
  | 0, m => return m
  | i + 1, m => do
    let m ← scrollRows i m
    copy16 (i * numCols) ((i + 1) * numCols) numCols m

section
variable (fore back : UInt8)

/-- `(back_color << 4) | (fore_color & 0xF)` -/
def attrib : UInt8 := back <<< (4 : UInt8) ||| (fore &&& (0xF : UInt8))

/-- The blank cell. -/
def blank : UInt16 := (0x20 : UInt16) ||| (attrib fore back).toUInt16 <<< (8 : UInt16)

/-- The cell that shows `c`. -/
def glyph (c : Int8) : UInt16 :=
  (attrib fore back).toUInt16 <<< (8 : UInt16) ||| c.toUInt8.toUInt16

/-- `Scroll()` -/
def scroll (s : Screen) : Except Halt Screen := do
  if s.y ≥ 25 then
    let m ← scrollRows (numRows - 1) s.cells
    let m ← set16 ((numRows - 1) * numCols) (blank fore back) numCols m
    return ⟨m, s.x, numRows - 1⟩
  else
    return s

/-- The part of `putc` that depends on the character. -/
def write (c : Int8) (s : Screen) : Except Halt Screen := do
  if c = 0x08 ∧ s.x > 0 then
    return { s with x := s.x - 1 }
  else if c = 0x09 then
    return { s with x := (s.x + tabWidth).land (tabWidth - 1).lnot }
  else if c = 0x0D then
    return { s with x := 0 }
  else if c = 0x0A then
    return { s with x := 0, y := s.y + 1 }
  else if c ≥ 0x20 then
    let m ← store (s.y * numCols + s.x) (glyph fore back c) s.cells
    return { s with cells := m, x := s.x + 1 }
  else
    return s

/-- The check for wrap. -/
def wrap (s : Screen) : Screen :=
  if s.x ≥ numCols then { s with x := 0, y := s.y + 1 } else s

/-- `putc(c)` -/
def putc (c : Int8) (s : Screen) : Except Halt Screen := do
  let s ← write fore back c s
  scroll fore back (wrap s)

/-- `putc` on one character after the other. -/
def puts : List Int8 → Screen → Except Halt Screen
  | [], s => return s
  | c :: cs, s => do
    let s ← putc fore back c s
    puts cs s

/-- `Clear()` -/
def clear (s : Screen) : Except Halt Screen := do
  let m ← set16 0 (blank fore back) (numCols * numRows - 1) s.cells
  return ⟨m, 0, 0⟩

/-- Blank cells and the cursor at (0, 0). -/
def cleared : Screen := ⟨fun _ => blank fore back, 0, 0⟩

end

end Screen

/-! ## The page -/

/-- A page of 80 columns without a last row, and the place where it is written next. -/
structure TextPage where
  cell : Nat → Nat → UInt16
  row : Nat
  col : Nat

namespace TextPage

/-- What a character asks for. -/
inductive Action where
  | back
  | tab
  | carriageReturn
  | newline
  | print
  | nothing
  deriving DecidableEq, Repr

/-- The control characters, and the printable ones from the blank on. -/
def action (c : Int8) : Action :=
  if c = 0x08 then .back
  else if c = 0x09 then .tab
  else if c = 0x0D then .carriageReturn
  else if c = 0x0A then .newline
  else if 0x20 ≤ c then .print
  else .nothing

section
variable (fore back : UInt8)

/-- Where the character `c` leads, before the wrap. -/
def write (c : Int8) (p : TextPage) : TextPage :=
  match action c with
  | .back => { p with col := p.col - 1 }
  | .tab => { p with col := (p.col / 8 + 1) * 8 }
  | .carriageReturn => { p with col := 0 }
  | .newline => { p with row := p.row + 1, col := 0 }
  | .print => { p with
      cell := fun r j => if r = p.row ∧ j = p.col then Screen.glyph fore back c else p.cell r j
      col := p.col + 1 }
  | .nothing => p

/-- A full row is followed by the next. -/
def wrap (p : TextPage) : TextPage := if p.col < 80 then p else { p with row := p.row + 1, col := 0 }

def putc (c : Int8) (p : TextPage) : TextPage := (p.write fore back c).wrap

/-- The page after one character after the other. -/
def puts (cs : List Int8) (p : TextPage) : TextPage := cs.foldl (fun p c => p.putc fore back c) p

/-- The page on which nothing is written. -/
def empty : TextPage := ⟨fun _ _ => Screen.blank fore back, 0, 0⟩

/-- Row `i` of the window on the last 25 rows that were started, `row` being the last of all; rows
not started are blank. -/
def window (p : TextPage) (i j : Nat) : UInt16 :=
  if p.row - 24 + i ≤ p.row then p.cell (p.row - 24 + i) j else Screen.blank fore back

end

end TextPage

/-! ## What the screen's stores do -/

namespace Screen

theorem store_ok {i : Nat} {v : UInt16} {m : Cells} (h : i < 2000) :
    store i v m = .ok (Function.update m i v) := by
  have h' : (0 : Int) ≤ i ∧ (i : Int) < numRows * numCols := by
    unfold numRows numCols
    omega
  rw [store, if_pos h', Int.toNat_natCast]

theorem copy16_ok {dest src : Nat} (hs : dest < src) : ∀ {n : Nat} {m : Cells}, dest + n ≤ 2000 →
    copy16 dest src n m =
      .ok fun k => if dest ≤ k ∧ k < dest + n then m (src + (k - dest)) else m k
  | 0, m, _ => by
    refine congrArg Except.ok (funext fun k => ?_)
    rw [if_neg (by omega)]
  | n + 1, m, h => by
    rw [copy16, copy16_ok hs (by omega), ok_bind, ← Nat.cast_add, store_ok (by omega)]
    refine congrArg Except.ok (funext fun k => ?_)
    by_cases hk : k = dest + n
    · subst hk
      dsimp only
      rw [Function.update_self, if_neg (by omega), if_pos (by omega), Nat.add_sub_cancel_left]
    · rw [Function.update_of_ne hk]
      by_cases hk' : dest ≤ k ∧ k < dest + n
      · rw [if_pos hk', if_pos (by omega)]
      · rw [if_neg hk', if_neg (by omega)]

theorem set16_ok {dest : Nat} {c : UInt16} : ∀ {n : Nat} {m : Cells}, dest + n ≤ 2000 →
    set16 dest c n m = .ok fun k => if dest ≤ k ∧ k < dest + n then c else m k
  | 0, m, _ => by
    refine congrArg Except.ok (funext fun k => ?_)
    rw [if_neg (by omega)]
  | n + 1, m, h => by
    rw [set16, set16_ok (by omega), ok_bind, ← Nat.cast_add, store_ok (by omega)]
    refine congrArg Except.ok (funext fun k => ?_)
    by_cases hk : k = dest + n
    · subst hk
      rw [Function.update_self, if_pos (by omega)]
    · rw [Function.update_of_ne hk]
      by_cases hk' : dest ≤ k ∧ k < dest + n
      · rw [if_pos hk', if_pos (by omega)]
      · rw [if_neg hk', if_neg (by omega)]

/-- The rows move up one by one: row `i` takes what row `i + 1` held at the start. -/
theorem scrollRows_ok : ∀ {n : Nat} {m : Cells}, n < 25 →
    scrollRows n m = .ok fun k => if k < n * 80 then m (k + 80) else m k
  | 0, m, _ => by
    refine congrArg Except.ok (funext fun k => ?_)
    rw [if_neg (by omega)]
  | n + 1, m, h => by
    unfold scrollRows numCols
    rw [scrollRows_ok (by omega), ok_bind, copy16_ok (by omega) (by omega)]
    refine congrArg Except.ok (funext fun k => ?_)
    by_cases hk : n * 80 ≤ k ∧ k < n * 80 + 80
    · rw [if_pos hk, if_neg (by omega), if_pos (by omega)]
      congr 1
      omega
    · rw [if_neg hk]
      by_cases hk' : k < n * 80
      · rw [if_pos hk', if_pos (by omega)]
      · rw [if_neg hk', if_neg (by omega)]

theorem tab_eq {x : Nat} (h : x < 80) :
    ((x : Int) + tabWidth).land (tabWidth - 1).lnot = ((x / 8 + 1) * 8 : Nat) := by
  decide +kernel +revert

variable {fore back : UInt8}

theorem scroll_below {s : Screen} (h : 25 ≤ s.y) : scroll fore back s =
    .ok ⟨fun k => if k < 1920 then s.cells (k + 80)
      else if k < 2000 then blank fore back else s.cells k, s.x, 24⟩ := by
  unfold scroll numRows numCols
  rw [if_pos h, scrollRows_ok (by decide), ok_bind, set16_ok (by decide), ok_bind]
  refine congrArg Except.ok (congrArg (fun c => Screen.mk c s.x 24) (funext fun k => ?_))
  by_cases hk : k < 1920
  · rw [if_neg (by omega), if_pos (by omega), if_pos hk]
  · by_cases hk' : k < 2000
    · rw [if_pos (by omega), if_neg hk, if_pos hk']
    · rw [if_neg (by omega), if_neg (by omega), if_neg hk, if_neg hk']

theorem scroll_inside {s : Screen} (h : s.y < 25) : scroll fore back s = .ok s := by
  rw [scroll, if_neg (by omega)]
  rfl

/-! ## The screen is a window on the page -/

/-- The screen shows the page from row `top` on. The page is written down to row `top + last` at most,
and blank where it is not started and behind the screen. -/
structure Shows (fore back : UInt8) (top last : Nat) (s : Screen) (p : TextPage) : Prop where
  x : s.x = p.col
  y : s.y + top = p.row
  top_le : top ≤ p.row
  row_le : p.row ≤ top + last
  cells : ∀ i j, i < 25 → j < 80 → s.cells (i * 80 + j) = p.cell (top + i) j
  blank : ∀ r j, p.row < r ∨ top + 24 < r → p.cell r j = blank fore back

/-- One character, before the wrap: the cursor may reach column 80 or the row behind the last. -/
theorem Shows.write {top : Nat} {s : Screen} {p : TextPage} (h : Shows fore back top 24 s p)
    (hcol : p.col < 80) (c : Int8) : ∃ s', write fore back c s = .ok s' ∧
      Shows fore back top 25 s' (p.write fore back c) ∧ (p.write fore back c).col ≤ 80 ∧
      ((p.write fore back c).col = 80 → (p.write fore back c).row ≤ top + 24) := by
  obtain ⟨hx, hy, htop, hrow, hcells, hblank⟩ := h
  by_cases h8 : c = 0x08
  · rw [TextPage.write, TextPage.action, if_pos h8, Screen.write]
    by_cases hpos : s.x > 0
    · rw [if_pos ⟨h8, hpos⟩]
      exact ⟨_, rfl, ⟨by dsimp only; omega, hy, htop, by dsimp only; omega, hcells, hblank⟩,
        by dsimp only; omega, fun _ => hrow⟩
    · subst h8
      refine ⟨s, ?_, ⟨by dsimp only; omega, hy, htop, by dsimp only; omega, hcells, hblank⟩,
        by dsimp only; omega, fun _ => hrow⟩
      rw [if_neg fun h => hpos h.2]
      rfl
  rw [TextPage.write, TextPage.action, if_neg h8, Screen.write, if_neg fun h => h8 h.1]
  by_cases h9 : c = 0x09
  · rw [if_pos h9, if_pos h9, hx, tab_eq hcol]
    exact ⟨_, rfl, ⟨rfl, hy, htop, by dsimp only; omega, hcells, hblank⟩,
      by dsimp only; omega, fun _ => hrow⟩
  rw [if_neg h9, if_neg h9]
  by_cases hr : c = 0x0D
  · rw [if_pos hr, if_pos hr]
    exact ⟨_, rfl, ⟨rfl, hy, htop, by dsimp only; omega, hcells, hblank⟩,
      by dsimp only; omega, fun _ => hrow⟩
  rw [if_neg hr, if_neg hr]
  by_cases hn : c = 0x0A
  · rw [if_pos hn, if_pos hn]
    exact ⟨_, rfl, ⟨rfl, by dsimp only; omega, by dsimp only; omega, by dsimp only; omega, hcells,
      fun r j hlt => hblank r j (by dsimp only at hlt; omega)⟩, by dsimp only; omega,
      fun h => by dsimp only at h; omega⟩
  rw [if_neg hn, if_neg hn]
  by_cases hc : c ≥ 0x20
  · have hi : s.y * numCols + s.x = ((p.row - top) * 80 + p.col : Nat) := by
      unfold numCols
      omega
    rw [if_pos hc, if_pos hc, hi, store_ok (by omega)]
    refine ⟨_, rfl, ⟨by dsimp only; omega, hy, htop, by dsimp only; omega, ?_, ?_⟩,
      by dsimp only; omega, fun _ => hrow⟩
    · intro i j hi hj
      dsimp only
      by_cases hij : i = p.row - top ∧ j = p.col
      · obtain ⟨rfl, rfl⟩ := hij
        rw [Function.update_self, if_pos ⟨by omega, rfl⟩]
      · rw [Function.update_of_ne (by omega), if_neg (by omega), hcells i j hi hj]
    · intro r j hlt
      dsimp only at hlt ⊢
      rw [if_neg (by omega), hblank r j hlt]
  · rw [if_neg hc, if_neg hc]
    exact ⟨s, rfl, ⟨hx, hy, htop, by dsimp only; omega, hcells, hblank⟩, by dsimp only; omega,
      fun _ => hrow⟩

theorem Shows.wrap {top : Nat} {s : Screen} {p : TextPage} (h : Shows fore back top 25 s p)
    (hcol : p.col ≤ 80) (hrow : p.col = 80 → p.row ≤ top + 24) :
    Shows fore back top 25 (wrap s) p.wrap ∧ p.wrap.col < 80 := by
  obtain ⟨hx, hy, htop, hle, hcells, hblank⟩ := h
  unfold Screen.wrap TextPage.wrap numCols
  by_cases h80 : p.col < 80
  · rw [if_pos h80, if_neg (by omega)]
    exact ⟨⟨hx, hy, htop, hle, hcells, hblank⟩, h80⟩
  · rw [if_neg h80, if_pos (by omega)]
    have := hrow (by omega)
    refine ⟨⟨rfl, ?_, by dsimp only; omega, by dsimp only; omega, hcells, ?_⟩, Nat.zero_lt_succ 79⟩
    · dsimp only
      omega
    · intro r j hr
      exact hblank r j (by dsimp only at hr; omega)

theorem Shows.scroll {top : Nat} {s : Screen} {p : TextPage} (h : Shows fore back top 25 s p)
    (hlast : top = 0 ∨ top + 24 ≤ p.row) : ∃ s', scroll fore back s = .ok s' ∧
      Shows fore back (p.row - 24) 24 s' p := by
  obtain ⟨hx, hy, htop, hle, hcells, hblank⟩ := h
  by_cases h25 : p.row = top + 25
  · refine ⟨_, scroll_below (by omega), hx, ?_, by omega, by omega, ?_, ?_⟩
    · dsimp only
      omega
    · intro i j hi hj
      dsimp only
      by_cases hi' : i = 24
      · rw [if_neg (by omega), if_pos (by omega), hblank _ _ (by omega)]
      · rw [if_pos (by omega), show i * 80 + j + 80 = (i + 1) * 80 + j by omega,
          hcells (i + 1) j (by omega) hj]
        congr 1
        omega
    · intro r j hr
      exact hblank r j (by omega)
  · refine ⟨s, scroll_inside (by omega), hx, by omega, by omega, by omega, ?_, ?_⟩
    · intro i j hi hj
      rw [hcells i j hi hj]
      congr 1
      omega
    · intro r j hr
      exact hblank r j (by omega)

theorem row_le_write (fore back : UInt8) (c : Int8) (p : TextPage) :
    p.row ≤ (p.write fore back c).row := by
  unfold TextPage.write
  cases TextPage.action c with
  | newline => exact Nat.le_succ _
  | back => exact Nat.le_refl _
  | tab => exact Nat.le_refl _
  | carriageReturn => exact Nat.le_refl _
  | print => exact Nat.le_refl _
  | nothing => exact Nat.le_refl _

theorem row_le_wrap (p : TextPage) : p.row ≤ p.wrap.row := by
  unfold TextPage.wrap
  split
  · exact Nat.le_refl _
  · exact Nat.le_succ _

/-- **One character keeps the screen a window on the page.** -/
theorem Shows.putc {s : Screen} {p : TextPage} (h : Shows fore back (p.row - 24) 24 s p)
    (hcol : p.col < 80) (c : Int8) : ∃ s', putc fore back c s = .ok s' ∧
      Shows fore back ((p.putc fore back c).row - 24) 24 s' (p.putc fore back c) ∧
      (p.putc fore back c).col < 80 := by
  obtain ⟨s1, h1, hs1, hc1, hr1⟩ := h.write hcol c
  obtain ⟨hs2, hc2⟩ := hs1.wrap hc1 hr1
  obtain ⟨s3, h3, hs3⟩ := hs2.scroll (by
    have := (row_le_write fore back c p).trans (row_le_wrap _)
    omega)
  refine ⟨s3, ?_, hs3, hc2⟩
  rw [Screen.putc, h1, ok_bind, h3]

theorem Shows.puts : ∀ (cs : List Int8) {s : Screen} {p : TextPage},
    Shows fore back (p.row - 24) 24 s p → p.col < 80 → ∃ s', puts fore back cs s = .ok s' ∧
      Shows fore back ((p.puts fore back cs).row - 24) 24 s' (p.puts fore back cs) ∧
      (p.puts fore back cs).col < 80
  | [], s, _, h, hcol => ⟨s, rfl, h, hcol⟩
  | c :: cs, s, p, h, hcol => by
    obtain ⟨s1, h1, hs1, hc1⟩ := h.putc hcol c
    obtain ⟨s2, h2, hs2, hc2⟩ := Shows.puts cs hs1 hc1
    refine ⟨s2, ?_, hs2, hc2⟩
    rw [Screen.puts, h1, ok_bind, h2]

theorem cleared_shows (fore back : UInt8) :
    Shows fore back 0 24 (cleared fore back) (TextPage.empty fore back) where
  x := rfl
  y := rfl
  top_le := Nat.le_refl 0
  row_le := Nat.zero_le 24
  cells _ _ _ _ := rfl
  blank _ _ _ := rfl

/-- A row of the window is a row of the page, blank where the page is not started. -/
theorem Shows.window {s : Screen} {p : TextPage} (h : Shows fore back (p.row - 24) 24 s p)
    {i j : Nat} (hi : i < 25) (hj : j < 80) :
    s.cells (i * 80 + j) = p.window fore back i j := by
  rw [h.cells i j hi hj, TextPage.window]
  split
  · rfl
  · exact h.blank _ j (.inl (by omega))

/-- **The text screen is a window on an unbounded page.** From a cleared screen no character stores
outside the 2000 cells, the cursor stays on the screen, and the cells are the last 25 started rows
of the page on which the same characters were written. -/
theorem window_on_page (fore back : UInt8) (cs : List Int8) :
    ∃ s, puts fore back cs (cleared fore back) = .ok s ∧ (0 ≤ s.x ∧ s.x < 80) ∧
      (0 ≤ s.y ∧ s.y < 25) ∧ ∀ i j, i < 25 → j < 80 →
        s.cells (i * 80 + j) =
          ((TextPage.empty fore back).puts fore back cs).window fore back i j := by
  obtain ⟨s, hs, h, hcol⟩ := Shows.puts cs (p := TextPage.empty fore back)
    (cleared_shows fore back) (Nat.zero_lt_succ 79)
  have hx := h.x
  have hy := h.y
  have htop := h.top_le
  have hrow := h.row_le
  exact ⟨s, hs, ⟨by omega, by omega⟩, ⟨by omega, by omega⟩, fun i j hi hj => h.window hi hj⟩

/-! ## What `Clear` leaves -/

/-- The text cells and the cursor are the same. -/
def SameText (s t : Screen) : Prop := (∀ k, k < 2000 → s.cells k = t.cells k) ∧ s.x = t.x ∧ s.y = t.y

/-- `Clear` leaves nothing of the screens `s` and `t`: every cell is blank, and the same characters
lead to the same text. -/
def Erases (fore back : UInt8) (s t : Screen) : Prop :=
  (∀ cs, ∃ s' t', (clear fore back s >>= puts fore back cs) = .ok s' ∧
    (clear fore back t >>= puts fore back cs) = .ok t' ∧ SameText s' t') ∧
  ∀ u, u = s ∨ u = t → ∃ u', clear fore back u = .ok u' ∧
    ∀ k, k < 2000 → u'.cells k = blank fore back

theorem clear_ok (s : Screen) : clear fore back s =
    .ok ⟨fun k => if k < 1999 then blank fore back else s.cells k, 0, 0⟩ := by
  unfold clear numCols numRows
  rw [set16_ok (by decide), ok_bind]
  refine congrArg Except.ok (congrArg (fun c => Screen.mk c 0 0) (funext fun k => ?_))
  by_cases hk : k < 1999
  · rw [if_pos (by omega), if_pos hk]
  · rw [if_neg (by omega), if_neg hk]

theorem clear_shows {s : Screen} (h : s.cells 1999 = blank fore back) :
    ∃ s', clear fore back s = .ok s' ∧ (∀ k, k < 2000 → s'.cells k = blank fore back) ∧
      Shows fore back 0 24 s' (TextPage.empty fore back) := by
  have hblank : ∀ k, k < 2000 →
      (if k < 1999 then blank fore back else s.cells k) = blank fore back := by
    intro k hk
    by_cases hlast : k < 1999
    · rw [if_pos hlast]
    · rw [if_neg hlast, show k = 1999 by omega, h]
  refine ⟨_, clear_ok s, hblank, rfl, rfl, Nat.le_refl 0, Nat.zero_le 24, ?_, fun _ _ _ => rfl⟩
  intro i j hi hj
  exact hblank (i * 80 + j) (by omega)

theorem Shows.same {s t : Screen} {p : TextPage} (hs : Shows fore back (p.row - 24) 24 s p)
    (ht : Shows fore back (p.row - 24) 24 t p) : SameText s t := by
  have hx := hs.x.trans ht.x.symm
  have hys := hs.y
  have hyt := ht.y
  refine ⟨fun k hk => ?_, hx, by omega⟩
  have hcell : k = k / 80 * 80 + k % 80 := by omega
  rw [hcell, hs.cells _ _ (by omega) (by omega), ht.cells _ _ (by omega) (by omega)]

/-- **`Clear` erases** exactly the screens whose last cell is blank already: it stops one cell
short. -/
theorem clear_erases (fore back : UInt8) (s t : Screen) :
    Erases fore back s t ↔ s.cells 1999 = blank fore back ∧ t.cells 1999 = blank fore back := by
  constructor
  · rintro ⟨-, hblank⟩
    have hlast : ∀ u, u = s ∨ u = t → u.cells 1999 = blank fore back := by
      intro u hu
      obtain ⟨u', hc, hb⟩ := hblank u hu
      rw [clear_ok] at hc
      cases hc
      exact hb 1999 (by decide)
    exact ⟨hlast s (.inl rfl), hlast t (.inr rfl)⟩
  · rintro ⟨hs, ht⟩
    obtain ⟨s1, hcs, hbs, hss⟩ := clear_shows hs
    obtain ⟨t1, hct, hbt, hst⟩ := clear_shows ht
    refine ⟨fun cs => ?_, ?_⟩
    · obtain ⟨s2, hps, hws, -⟩ := Shows.puts cs (p := TextPage.empty fore back) hss
        (Nat.zero_lt_succ 79)
      obtain ⟨t2, hpt, hwt, -⟩ := Shows.puts cs (p := TextPage.empty fore back) hst
        (Nat.zero_lt_succ 79)
      refine ⟨s2, t2, ?_, ?_, hws.same hwt⟩
      · rw [hcs, ok_bind, hps]
      · rw [hct, ok_bind, hpt]
    · rintro u (rfl | rfl)
      · exact ⟨s1, hcs, hbs⟩
      · exact ⟨t1, hct, hbt⟩

/-- **A character in the last cell survives `Clear`.** -/
theorem last_cell_kept : ¬ Erases 7 0 (cleared 7 0)
    ⟨fun k => if k = 1999 then 0x758 else 0x720, 0, 0⟩ := by
  rintro ⟨h, -⟩
  obtain ⟨s', t', hs, ht, hcells, -⟩ := h []
  rw [clear_ok] at hs ht
  cases hs
  cases ht
  exact absurd (hcells 1999 (by decide)) (by decide)

end Screen

end Dmanix
