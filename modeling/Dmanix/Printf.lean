import Dmanix.CString
import Dmanix.Screen
import Dmanix.Lib.Bytes
import Mathlib.Data.Nat.Digits.Defs

/-!
# Formatted output (`src/string.cc`, `src/screen.cc`)

`string::printf` and `screen::Printf` are one formatter over two `putc`s: the screen's, and one that
stores at a buffer passed to it by value, so that the next `putc` stores there again. A conversion's
argument is a 32-bit word; `stringAt` gives the string at an address.

`passed` is what a formatter passes to its `putc`. `Renders` is the text of a format: the conversions
give way to characters, canonical decimals, eight digits in base sixteen, and strings.
`printf_renders`: `Printf` passes on this text. `printf_agree`: `string::printf` leaves that in
its buffer exactly when it is nothing.
-/

namespace Dmanix

open Word32 Bytes

/-- The output functions a formatter calls. -/
structure Putters (σ : Type) where
  putc : UInt8 → σ → Except Halt σ
  puts : List UInt8 → σ → Except Halt σ
  puth : Nat → σ → Except Halt σ
  putu : Nat → σ → Except Halt σ
  putd : Nat → σ → Except Halt σ

namespace Formatter

section
variable {σ : Type} (putc : UInt8 → σ → Except Halt σ)

/-- `puts(s)` -/
def puts : List UInt8 → σ → Except Halt σ
  | [], s => return s
  | c :: cs, s => do
    let s ← putc c s
    puts cs s

/-- The loop of `puth(hex)`, with `n` digits left. -/
def puthLoop (hex : Nat) : Nat → σ → Except Halt σ
  | 0, s => return s
  | n + 1, s => do
    let h := hex >>> (4 * n) &&& 0xf
    let s ← putc (if h ≥ 0xA then UInt8.ofNat (h - 0xA) + 65 else UInt8.ofNat h + 48) s
    puthLoop hex n s

/-- `puth(hex)` -/
def puth (hex : Nat) : σ → Except Halt σ := puthLoop putc hex 8

/-- `while (dec > 0) { c[i++] = '0' + dec % 10; dec /= 10; }`, with `n` slots of `c` left. -/
def units : Nat → Nat → Except Halt (List UInt8)
  | 0, dec => if dec > 0 then .error (.wild 32) else return []
  | n + 1, dec =>
    if dec > 0 then do
      let c ← units n (dec / 10)
      return (48 + UInt8.ofNat (dec % 10)) :: c
    else return []

/-- `putu(dec)` -/
def putu (dec : Nat) (s : σ) : Except Halt σ :=
  if dec = 0 then putc 48 s
  else do
    let c ← units 32 dec
    puts putc c.reverse s

/-- `putd(dec)`, of the word `dec` -/
def putd (dec : Nat) (s : σ) : Except Halt σ := do
  if dec ≥ 2147483648 then
    let s ← putc 45 s
    putu putc (sub32 0 dec) s
  else putu putc dec s

/-- The functions over one `putc`. -/
def putters : Putters σ := ⟨putc, puts putc, puth putc, putu putc, putd putc⟩

end

section
variable {σ : Type} (out : Putters σ) (stringAt : Nat → List UInt8)

/-- `"(null)"` -/
def null : List UInt8 := [40, 110, 117, 108, 108, 41]

/-- `va_arg(ap, ..)`: the next argument and the others. -/
def vaArg : List Nat → Except Halt (Nat × List Nat)
  | [] => .error (.wild 0)
  | a :: args => .ok (a, args)

/-- The `switch` on the conversion `c`. -/
def convert (c : UInt8) (args : List Nat) (s : σ) : Except Halt (List Nat × σ) :=
  if c = 99 then do  -- 'c'
    let (a, args) ← vaArg args
    let s ← out.putc (UInt8.ofNat a) s
    return (args, s)
  else if c = 100 then do  -- 'd'
    let (a, args) ← vaArg args
    let s ← out.putd a s
    return (args, s)
  else if c = 117 then do  -- 'u'
    let (a, args) ← vaArg args
    let s ← out.putu a s
    return (args, s)
  else if c = 120 then do  -- 'x'
    let (a, args) ← vaArg args
    let s ← out.puth a s
    return (args, s)
  else if c = 115 then do  -- 's'
    let (a, args) ← vaArg args
    let s ← out.puts (if a = 0 then null else stringAt a) s
    return (args, s)
  else .error (.panic "Unsupported format")

/-- The loop over the format; the conversion behind a last '%' is its NUL. -/
def printf : List UInt8 → List Nat → σ → Except Halt σ
  | [], _, s => return s
  | [c], _, s => if c ≠ 37 then out.putc c s else .error (.panic "Unsupported format")
  | c :: d :: format, args, s =>
    if c ≠ 37 then do
      let s ← out.putc c s
      printf (d :: format) args s
    else do
      let (args, s) ← convert out stringAt d args s
      printf format args s

end

end Formatter

/-! ## The two formatters -/

namespace CString

/-- `putc(buffer, c)`: the pointer it increments is its own. -/
def putc (buffer : Nat) (c : UInt8) (m : Mem) : Except Halt Mem := .ok (Function.update m buffer c)

/-- `puts(buffer, s)` -/
def puts (buffer : Nat) : List UInt8 → Mem → Except Halt Mem := Formatter.puts (putc buffer)

/-- `puth(buffer, hex)` -/
def puth (buffer : Nat) : Nat → Mem → Except Halt Mem := Formatter.puth (putc buffer)

/-- `putu(buffer, dec)` -/
def putu (buffer : Nat) : Nat → Mem → Except Halt Mem := Formatter.putu (putc buffer)

/-- `putd(buffer, dec)` -/
def putd (buffer : Nat) : Nat → Mem → Except Halt Mem := Formatter.putd (putc buffer)

/-- `string::printf(buffer, format, ...)` -/
def printf (stringAt : Nat → List UInt8) (buffer : Nat) (format : List UInt8) (args : List Nat)
    (m : Mem) : Except Halt Mem := do
  let m ← Formatter.printf ⟨putc buffer, puts buffer, puth buffer, putu buffer, putd buffer⟩ stringAt
    format args m
  putc buffer 0 m

end CString

namespace Screen

section
variable (fore back : UInt8)

/-- `putc(c)`, of a byte -/
def putByte (c : UInt8) : Screen → Except Halt Screen := putc fore back c.toInt8

/-- `puth(hex)` -/
def puth : Nat → Screen → Except Halt Screen := Formatter.puth (putByte fore back)

/-- `putu(dec)` -/
def putu : Nat → Screen → Except Halt Screen := Formatter.putu (putByte fore back)

/-- `putd(dec)` -/
def putd : Nat → Screen → Except Halt Screen := Formatter.putd (putByte fore back)

/-- `screen::Printf(format, ...)` -/
def printf (stringAt : Nat → List UInt8) (format : List UInt8) (args : List Nat) :
    Screen → Except Halt Screen :=
  Formatter.printf ⟨putByte fore back, fun cs => puts fore back (cs.map UInt8.toInt8),
    puth fore back, putu fore back, putd fore back⟩ stringAt format args

end

end Screen

/-! ## What a formatter passes on -/

namespace Formatter

/-- The conversions both formatters know. -/
def IsConversion (c : UInt8) : Prop := c = 99 ∨ c = 100 ∨ c = 117 ∨ c = 120 ∨ c = 115

/-- The arguments match the format: a word for each conversion. -/
def Matches : List UInt8 → List Nat → Prop
  | [], args => args = []
  | [c], args => c ≠ 37 ∧ args = []
  | c :: d :: format, args =>
    if c ≠ 37 then Matches (d :: format) args
    else IsConversion d ∧ ∃ a rest, args = a :: rest ∧ a < 4294967296 ∧ Matches format rest

/-- The format shows nothing: there are only conversions, of empty strings. -/
def Silent (stringAt : Nat → List UInt8) : List UInt8 → List Nat → Prop
  | [], _ => True
  | [_], _ => False
  | c :: d :: format, args =>
    c = 37 ∧ d = 115 ∧ ∃ a rest, args = a :: rest ∧ a ≠ 0 ∧ stringAt a = [] ∧
      Silent stringAt format rest

/-- What the formatter passes to its `putc`. -/
def passed (stringAt : Nat → List UInt8) (format : List UInt8) (args : List Nat) :
    Except Halt (List UInt8) :=
  printf (putters fun c cs => .ok (cs ++ [c])) stringAt format args []

/-- The outputs agree: whatever the buffer holds, `string::printf` leaves there what a formatter
passes to its `putc`, and a NUL. -/
def Agree (stringAt : Nat → List UInt8) (format : List UInt8) (args : List Nat) : Prop :=
  ∀ (m : Mem) (buffer : Nat), ∃ cs m', passed stringAt format args = .ok cs ∧
    CString.printf stringAt buffer format args m = .ok m' ∧
    (∀ i (h : i < cs.length), m' (buffer + i) = cs[i]) ∧ m' (buffer + cs.length) = 0

/-! ## What a format shows -/

/-- The number a digit stands for, up to 'F'. -/
def digit (c : UInt8) : Nat := if c < 65 then c.toNat - 48 else c.toNat - 55

/-- The number that digits stand for. -/
def value (base : Nat) (cs : List UInt8) : Nat := Nat.ofDigits base (cs.map digit).reverse

/-- `cs` is the decimal of `n`, without leading zeros. -/
structure IsDecimal (n : Nat) (cs : List UInt8) : Prop where
  digits : ∀ c ∈ cs, 48 ≤ c ∧ c ≤ 57
  ne_nil : cs ≠ []
  leading : cs.head? = some 48 → cs = [48]
  value : value 10 cs = n

/-- `cs` are the eight digits, in upper case, of the word `n` in base sixteen. -/
structure IsHex (n : Nat) (cs : List UInt8) : Prop where
  length : cs.length = 8
  digits : ∀ c ∈ cs, (48 ≤ c ∧ c ≤ 57) ∨ (65 ≤ c ∧ c ≤ 70)
  value : value 16 cs = n

/-- The number the word `a` stands for as an `int32_t`. -/
def signed (a : Nat) : Int := if a < 2147483648 then a else (a : Int) - 4294967296

/-- The number that a decimal with a sign stands for. -/
def signedValue : List UInt8 → Int
  | [] => 0
  | c :: cs => if c = 45 then -(value 10 cs : Int) else value 10 (c :: cs)

/-- `cs` is the decimal of `z`, with a sign where it is negative. -/
structure IsSigned (z : Int) (cs : List UInt8) : Prop where
  decimal : if z < 0 then ∃ ds, cs = 45 :: ds ∧ IsDecimal z.natAbs ds else IsDecimal z.natAbs cs
  value : signedValue cs = z

/-- The text of a conversion and its argument. -/
inductive Shown (stringAt : Nat → List UInt8) : UInt8 → Nat → List UInt8 → Prop
  | char (a : Nat) : Shown stringAt 99 a [UInt8.ofNat a]
  | signed {a : Nat} {cs : List UInt8} : IsSigned (signed a) cs → Shown stringAt 100 a cs
  | unsigned {a : Nat} {cs : List UInt8} : IsDecimal a cs → Shown stringAt 117 a cs
  | hex {a : Nat} {cs : List UInt8} : IsHex a cs → Shown stringAt 120 a cs
  | string (a : Nat) : Shown stringAt 115 a (if a = 0 then null else stringAt a)

/-- The text of a format and its arguments: every conversion gives way to the text of the next
argument. -/
inductive Renders (stringAt : Nat → List UInt8) : List UInt8 → List Nat → List UInt8 → Prop
  | nil : Renders stringAt [] [] []
  | literal {c : UInt8} {format : List UInt8} {args : List Nat} {cs : List UInt8} : c ≠ 37 →
      Renders stringAt format args cs → Renders stringAt (c :: format) args (c :: cs)
  | conversion {d : UInt8} {a : Nat} {text format : List UInt8} {args : List Nat}
      {cs : List UInt8} : Shown stringAt d a text → Renders stringAt format args cs →
      Renders stringAt (37 :: d :: format) (a :: args) (text ++ cs)

section
variable {σ : Type} (putc : UInt8 → σ → Except Halt σ)

theorem puts_append : ∀ (as bs : List UInt8) (s : σ),
    puts putc (as ++ bs) s = (puts putc as s >>= puts putc bs)
  | [], _, _ => rfl
  | a :: as, bs, s => by
    simp only [List.cons_append, puts]
    cases putc a s with
    | error e => rfl
    | ok t => exact puts_append as bs t

end

/-- `f` passes on `cs`, whatever `putc` does with it. -/
def Sends (f : ∀ {σ : Type}, (UInt8 → σ → Except Halt σ) → σ → Except Halt σ) (cs : List UInt8) :
    Prop := ∀ {σ : Type} (putc : UInt8 → σ → Except Halt σ) (s : σ), f putc s = puts putc cs s

theorem value_cons (base : Nat) (c : UInt8) (cs : List UInt8) :
    value base (c :: cs) = value base cs + base ^ cs.length * digit c := by
  unfold value
  rw [List.map_cons, List.reverse_cons, Nat.ofDigits_append, Nat.ofDigits_singleton,
    List.length_reverse, List.length_map]

theorem digit_nibble {h : Nat} (hh : h < 16) :
    let c : UInt8 := if h ≥ 0xA then UInt8.ofNat (h - 0xA) + 65 else UInt8.ofNat h + 48
    digit c = h ∧ ((48 ≤ c ∧ c ≤ 57) ∨ (65 ≤ c ∧ c ≤ 70)) := by
  decide +revert

theorem digit_unit {d : Nat} (hd : d < 10) : digit (48 + UInt8.ofNat d) = d ∧
    (48 ≤ 48 + UInt8.ofNat d ∧ 48 + UInt8.ofNat d ≤ 57) ∧ (48 + UInt8.ofNat d = 48 → d = 0) := by
  decide +revert

theorem puthLoop_sends (hex : Nat) : ∀ n, ∃ cs : List UInt8, cs.length = n ∧
    (∀ c ∈ cs, (48 ≤ c ∧ c ≤ 57) ∨ (65 ≤ c ∧ c ≤ 70)) ∧ value 16 cs = hex % 16 ^ n ∧
    Sends (fun putc => puthLoop putc hex n) cs
  | 0 => ⟨[], rfl, fun _ hc => absurd hc List.not_mem_nil, (Nat.mod_one hex).symm, fun _ _ => rfl⟩
  | n + 1 => by
    obtain ⟨cs, hl, hd, hv, hs⟩ := puthLoop_sends hex n
    have hh : hex >>> (4 * n) &&& 0xf = hex / 16 ^ n % 16 := by
      rw [Nat.shiftRight_eq_div_pow, Nat.pow_mul]
      exact Nat.and_two_pow_sub_one_eq_mod _ 4
    obtain ⟨hdig, hrange⟩ := digit_nibble (Nat.mod_lt (hex / 16 ^ n) (by decide : 0 < 16))
    rw [← hh] at hdig hrange
    refine ⟨_ :: cs, by rw [List.length_cons, hl], List.forall_mem_cons.2 ⟨hrange, hd⟩, ?_,
      fun putc s => ?_⟩
    · rw [value_cons, hdig, hv, hl, hh, Nat.mod_pow_succ]
    · show (putc _ s >>= fun s => puthLoop putc hex n s) = (putc _ s >>= fun s => puts putc cs s)
      simp only [hs putc]

/-- A number below `10 ^ n` has its digits in `n` slots, the units first. -/
theorem units_ok : ∀ (n dec : Nat), dec < 10 ^ n → ∃ cs, units n dec = .ok cs ∧
    (∀ c ∈ cs, 48 ≤ c ∧ c ≤ 57) ∧ (0 < dec → cs ≠ []) ∧ cs.getLast? ≠ some 48 ∧
    Nat.ofDigits 10 (cs.map digit) = dec
  | 0, dec, h => by
    have h0 : dec = 0 := by simpa using h
    subst h0
    exact ⟨[], rfl, fun _ hc => absurd hc List.not_mem_nil, fun h => absurd h (Nat.lt_irrefl 0),
      nofun, rfl⟩
  | n + 1, dec, h => by
    by_cases h0 : dec > 0
    · obtain ⟨cs, hc, hd, hne, hlast, hv⟩ := units_ok n (dec / 10) (by rw [Nat.pow_succ] at h; omega)
      obtain ⟨hdig, hrange, hzero⟩ := digit_unit (Nat.mod_lt dec (by decide : 0 < 10))
      refine ⟨(48 + UInt8.ofNat (dec % 10)) :: cs, ?_, List.forall_mem_cons.2 ⟨hrange, hd⟩,
        fun _ => List.cons_ne_nil _ _, ?_, ?_⟩
      · rw [units, if_pos h0, hc]
        rfl
      · -- the last slot holds the leading digit
        cases cs with
        | nil =>
          intro hl
          have hsmall : dec / 10 = 0 := Nat.eq_zero_of_not_pos fun hp => hne hp rfl
          have := hzero (Option.some.inj hl)
          omega
        | cons c cs =>
          rw [List.getLast?_cons_cons]
          exact hlast
      · rw [List.map_cons, Nat.ofDigits_cons, hdig, hv]
        exact Nat.mod_add_div dec 10
    · have hz : dec = 0 := Nat.eq_zero_of_not_pos h0
      subst hz
      exact ⟨[], if_neg h0, fun _ hc => absurd hc List.not_mem_nil, fun h => absurd h h0, nofun, rfl⟩

theorem putu_sends {dec : Nat} (h : dec < 4294967296) :
    ∃ cs : List UInt8, IsDecimal dec cs ∧ Sends (fun putc => putu putc dec) cs := by
  by_cases h0 : dec = 0
  · subst h0
    refine ⟨[48], ⟨fun c hc => ?_, List.cons_ne_nil _ _, fun _ => rfl, rfl⟩, fun putc s => ?_⟩
    · rw [List.mem_singleton.1 hc]
      decide
    simp only [putu, if_true, puts]
    cases putc 48 s <;> rfl
  · obtain ⟨cs, hc, hd, hne, hlast, hv⟩ := units_ok 32 dec (Nat.lt_trans h (by decide))
    refine ⟨cs.reverse, ⟨?_, ?_, ?_, ?_⟩, fun putc s => ?_⟩
    · simpa only [List.mem_reverse] using hd
    · simpa using hne (Nat.pos_of_ne_zero h0)
    · rw [List.head?_reverse]
      exact fun hl => absurd hl hlast
    · unfold value
      rw [List.map_reverse, List.reverse_reverse, hv]
    · simp only [putu, h0, if_false, hc]
      rfl

theorem IsDecimal.signedValue {n : Nat} {cs : List UInt8} (h : IsDecimal n cs) :
    signedValue cs = n := by
  cases cs with
  | nil => exact absurd rfl h.ne_nil
  | cons c cs =>
    have hc : c ≠ 45 := fun he => by
      have := (h.digits c List.mem_cons_self).1
      rw [he] at this
      exact absurd this (by decide)
    rw [Formatter.signedValue, if_neg hc, h.value]

theorem putd_sends {dec : Nat} (h : dec < 4294967296) :
    ∃ cs : List UInt8, IsSigned (signed dec) cs ∧ Sends (fun putc => putd putc dec) cs := by
  by_cases hneg : dec ≥ 2147483648
  · obtain ⟨cs, hd, hs⟩ := @putu_sends (sub32 0 dec) (sub32_lt _ _)
    have hz : signed dec = (dec : Int) - 4294967296 := if_neg (by omega)
    have habs : sub32 0 dec = (signed dec).natAbs := by
      rw [hz]
      unfold sub32
      omega
    rw [habs] at hd
    refine ⟨45 :: cs, ⟨?_, ?_⟩, fun putc s => ?_⟩
    · rw [if_pos (by omega)]
      exact ⟨cs, rfl, hd⟩
    · rw [signedValue, if_pos rfl, hd.value]
      omega
    · simp only [putd, hneg, if_true, puts]
      cases putc 45 s with
      | error e => rfl
      | ok t => exact hs putc t
  · obtain ⟨cs, hd, hs⟩ := putu_sends h
    have hz : signed dec = dec := if_pos (by omega)
    refine ⟨cs, ⟨?_, ?_⟩, fun putc s => ?_⟩
    · rw [hz, if_neg (by omega)]
      exact hd
    · rw [hz]
      exact hd.signedValue
    · simp only [putd, hneg, if_false]
      exact hs putc s

theorem convert_sends (stringAt : Nat → List UInt8) {d : UInt8} {a : Nat} (args : List Nat)
    (hd : IsConversion d) (ha : a < 4294967296) : ∃ cs : List UInt8, Shown stringAt d a cs ∧
      ∀ {σ : Type} (putc : UInt8 → σ → Except Halt σ) (s : σ),
        convert (putters putc) stringAt d (a :: args) s =
          (puts putc cs s >>= fun s => .ok (args, s)) := by
  rcases hd with rfl | rfl | rfl | rfl | rfl
  · refine ⟨[UInt8.ofNat a], .char a, fun putc s => ?_⟩
    show (putc (UInt8.ofNat a) s >>= _) = ((putc (UInt8.ofNat a) s >>= _) >>= _)
    cases putc (UInt8.ofNat a) s <;> rfl
  · obtain ⟨cs, hc, hs⟩ := putd_sends ha
    refine ⟨cs, .signed hc, fun putc s => ?_⟩
    show (putd putc a s >>= _) = _
    rw [show putd putc a s = puts putc cs s from hs putc s]
    rfl
  · obtain ⟨cs, hc, hs⟩ := putu_sends ha
    refine ⟨cs, .unsigned hc, fun putc s => ?_⟩
    show (putu putc a s >>= _) = _
    rw [show putu putc a s = puts putc cs s from hs putc s]
    rfl
  · obtain ⟨cs, hl, hc, hv, hs⟩ := puthLoop_sends a 8
    refine ⟨cs, .hex ⟨hl, hc, hv.trans (Nat.mod_eq_of_lt ha)⟩, fun putc s => ?_⟩
    show (puthLoop putc a 8 s >>= _) = _
    rw [show puthLoop putc a 8 s = puts putc cs s from hs putc s]
    rfl
  · exact ⟨if a = 0 then null else stringAt a, .string a, fun putc s => rfl⟩

theorem Shown.eq_nil {stringAt : Nat → List UInt8} {d : UInt8} {a : Nat} {cs : List UInt8}
    (h : Shown stringAt d a cs) : cs = [] ↔ d = 115 ∧ a ≠ 0 ∧ stringAt a = [] := by
  cases h with
  | char => simp
  | signed hs =>
    have hne : cs ≠ [] := by
      rintro rfl
      have hd := hs.decimal
      split at hd
      · obtain ⟨ds, he, -⟩ := hd
        cases he
      · exact hd.ne_nil rfl
    simp [hne]
  | unsigned hs => simp [hs.ne_nil]
  | hex hs =>
    have hne : cs ≠ [] := by
      rintro rfl
      cases hs.length
    simp [hne]
  | string => by_cases h0 : a = 0 <;> simp [h0, null]

/-- **A formatter passes on one text**, whatever its `putc` does with it. -/
theorem printf_sends (stringAt : Nat → List UInt8) : ∀ (format : List UInt8) (args : List Nat),
    Matches format args → ∃ cs : List UInt8, Renders stringAt format args cs ∧
      Sends (fun putc => printf (putters putc) stringAt format args) cs
  | [], args, h => by
    rw [Matches] at h
    subst h
    exact ⟨[], .nil, fun _ _ => rfl⟩
  | [c], args, h => by
    obtain ⟨hc, rfl⟩ := h
    refine ⟨[c], .literal hc .nil, fun putc s => ?_⟩
    simp only [printf, hc, ne_eq, not_false_eq_true, if_true, puts]
    show putc c s = _
    cases putc c s <;> rfl
  | c :: d :: format, args, h => by
    by_cases hc : c = 37
    · rw [Matches, if_neg (not_not.2 hc)] at h
      obtain ⟨hd, a, rest, rfl, ha, h⟩ := h
      obtain ⟨cs, he, hs⟩ := convert_sends stringAt rest hd ha
      obtain ⟨ds, he', hs'⟩ := printf_sends stringAt format rest h
      subst hc
      refine ⟨cs ++ ds, .conversion he he', fun putc s => ?_⟩
      show printf _ _ (37 :: d :: format) _ s = _
      rw [printf, if_neg (not_not.2 rfl), hs putc, puts_append]
      cases puts putc cs s with
      | error e => rfl
      | ok t => exact hs' putc t
    · rw [Matches, if_pos hc] at h
      obtain ⟨cs, hr, hs⟩ := printf_sends stringAt (d :: format) args h
      refine ⟨c :: cs, .literal hc hr, fun putc s => ?_⟩
      show printf _ _ (c :: d :: format) _ s = _
      rw [printf, if_pos hc]
      show (putc c s >>= _) = (putc c s >>= _)
      cases putc c s with
      | error e => rfl
      | ok t => exact hs putc t

/-- A text is empty where the format shows nothing. -/
theorem Renders.eq_nil {stringAt : Nat → List UInt8} {format : List UInt8} {args : List Nat}
    {cs : List UInt8} (h : Renders stringAt format args cs) :
    cs = [] ↔ Silent stringAt format args := by
  induction h with
  | nil => exact iff_of_true rfl trivial
  | @literal c format args cs hc _ _ =>
    refine iff_of_false (List.cons_ne_nil _ _) ?_
    cases format with
    | nil => exact id
    | cons d format => exact fun hs => hc hs.1
  | conversion hs _ ih =>
    rw [List.append_eq_nil_iff, hs.eq_nil, ih, Silent]
    simp [and_assoc]

theorem puts_record : ∀ cs ds : List UInt8,
    puts (fun c cs => .ok (cs ++ [c])) cs ds = (.ok (ds ++ cs) : Except Halt _)
  | [], ds => by
    rw [List.append_nil]
    rfl
  | c :: cs, ds => by
    show puts _ cs (ds ++ [c]) = _
    rw [puts_record cs, List.append_assoc, List.singleton_append]

end Formatter

namespace CString

theorem puts_start (buffer : Nat) : ∀ (cs : List UInt8) (m : Mem),
    ∃ m', Formatter.puts (putc buffer) cs m = .ok m' ∧ ∀ a ≠ buffer, m' a = m a
  | [], m => ⟨m, rfl, fun _ _ => rfl⟩
  | c :: cs, m => by
    obtain ⟨m', hm, hsame⟩ := puts_start buffer cs (Function.update m buffer c)
    refine ⟨m', hm, fun a ha => ?_⟩
    rw [hsame a ha, Function.update_of_ne ha]

end CString

namespace Screen

theorem puts_eq (fore back : UInt8) : ∀ (cs : List UInt8) (s : Screen),
    puts fore back (cs.map UInt8.toInt8) s = Formatter.puts (putByte fore back) cs s
  | [], _ => rfl
  | c :: cs, s => by
    show (putc fore back c.toInt8 s >>= _) = (putc fore back c.toInt8 s >>= _)
    cases putc fore back c.toInt8 s with
    | error e => rfl
    | ok t => exact puts_eq fore back cs t

end Screen

namespace Formatter

section
variable {stringAt : Nat → List UInt8} {format : List UInt8} {args : List Nat}

/-- What is passed on, and what the two formatters make of it. -/
theorem passed_ok (h : Matches format args) : ∃ cs, Renders stringAt format args cs ∧
    passed stringAt format args = .ok cs ∧
    (∀ fore back s, Screen.printf fore back stringAt format args s =
      Screen.puts fore back (cs.map UInt8.toInt8) s) ∧
    ∀ buffer m, CString.printf stringAt buffer format args m =
      (puts (CString.putc buffer) cs m >>= CString.putc buffer 0) := by
  obtain ⟨cs, hr, hs⟩ := printf_sends stringAt format args h
  refine ⟨cs, hr, ?_, fun fore back s => ?_, fun buffer m => ?_⟩
  · exact (hs _ _).trans (puts_record cs [])
  · have hp : (fun cs => Screen.puts fore back (cs.map UInt8.toInt8)) =
        puts (Screen.putByte fore back) := by
      funext cs s
      exact Screen.puts_eq fore back cs s
    rw [Screen.puts_eq, Screen.printf, hp]
    exact hs _ _
  · rw [← hs]
    rfl

/-- **`Printf` renders every format**: the characters it passes to `putc` are the format with every
conversion replaced by the text of its argument, and the digits of a number parse to it. -/
theorem printf_renders (h : Matches format args) : ∃ cs, Renders stringAt format args cs ∧
    passed stringAt format args = .ok cs ∧
    ∀ fore back s, Screen.printf fore back stringAt format args s =
      Screen.puts fore back (cs.map UInt8.toInt8) s := by
  obtain ⟨cs, hr, hp, hscreen, -⟩ := @passed_ok stringAt _ _ h
  exact ⟨cs, hr, hp, hscreen⟩

theorem printf_renders_min : ∃ cs, Renders (fun _ => []) [37, 100] [2147483648] cs ∧
    passed (fun _ => []) [37, 100] [2147483648] = .ok cs ∧
    ∀ fore back s, Screen.printf fore back (fun _ => []) [37, 100] [2147483648] s =
      Screen.puts fore back (cs.map UInt8.toInt8) s :=
  printf_renders ⟨.inr (.inl rfl), 2147483648, [], rfl, by decide, rfl⟩

/-- **The two printf agree** exactly where there is nothing to show: `string::printf` stores every
character, and the NUL, at the start of its buffer. -/
theorem printf_agree (h : Matches format args) :
    Agree stringAt format args ↔ Silent stringAt format args := by
  obtain ⟨cs, hr, hp, -, hbuf⟩ := @passed_ok stringAt _ _ h
  rw [← hr.eq_nil]
  constructor
  · intro ha
    by_contra hne
    -- a buffer of ones keeps a one where the text ends
    obtain ⟨ds, m', hd, hm, -, hnul⟩ := ha (fun _ => 1) 0
    cases hp.symm.trans hd
    obtain ⟨m₁, h₁, hsame⟩ := CString.puts_start 0 cs fun _ => 1
    rw [hbuf, h₁] at hm
    cases hm
    have hpos : 0 + cs.length ≠ 0 := by
      rw [Nat.zero_add]
      exact fun h0 => hne (List.eq_nil_of_length_eq_zero h0)
    rw [Function.update_of_ne hpos, hsame _ hpos] at hnul
    cases hnul
  · intro hnil m buffer
    subst hnil
    refine ⟨[], _, hp, hbuf buffer m, fun i hi => absurd hi (Nat.not_lt_zero i), ?_⟩
    exact Function.update_self _ _ _

theorem printf_agree_empty : Agree (fun _ => []) [37, 115] [4096] ↔
    Silent (fun _ => []) [37, 115] [4096] :=
  printf_agree ⟨.inr (.inr (.inr (.inr rfl))), 4096, [], rfl, by decide, rfl⟩

/-- **"a" is lost**: the buffer ends up with the NUL alone. -/
theorem plain_lost : ¬ Agree (fun _ => []) [97] [] := by
  intro ha
  obtain ⟨cs, m', hp, hm, hcs, -⟩ := ha (fun _ => 1) 0
  cases hp
  cases hm
  exact absurd (hcs 0 Nat.one_pos) (by decide)

end

end Formatter

end Dmanix
