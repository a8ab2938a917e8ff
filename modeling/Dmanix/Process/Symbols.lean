import Dmanix.Lib.Checked
import Dmanix.Process.ElfFile
import Mathlib.Data.List.Find
import Mathlib.Data.List.Forall2

/-!
# Symbol lookups (`src/process/elf32_parser.cc`)

The four `Find` functions of a parser at the address `this`. They follow pointers and indices that
were taken from the file; the model stops at the first one that is `NULL` or out of range
(`Misread`). Symbols are read from the symbol table one by one; `symbols` lists them.

`findSymbolName_exact`: `FindSymbolName` is exact but for symbols that reach the top of memory,
where the sum of value and size wraps. `lookups_inverse`: where names are distinct, the lookups by
address and by name agree.
-/

namespace Dmanix

open Bytes Word32 Checked

/-- What is used although it comes from the file unchecked. -/
inductive Misread where
  /-- a pointer to a section that is `NULL` -/
  | pointer
  /-- the index of a section behind the last one -/
  | index (i : Nat)
  /-- an offset outside the loaded section names -/
  | name (offset : Nat)
  deriving DecidableEq, Repr

/-- Why a function that follows what a file says did not return. -/
abbrev Stop := Checked.Stop Halt Misread

/-- The section pointer `p` is followed. -/
def follow (p : Nat) : Except Stop Unit := check (p ≠ 0) .pointer

/-- The index `i` is used in a table of `n` sections. -/
def useIndex (i n : Nat) : Except Stop Unit := check (i < n) (.index i)

/-- `Elf32Parser::Symbol` -/
structure Symbol where
  name : Nat
  value : Nat
  size : Nat
  deriving DecidableEq, Repr

namespace ElfFile

/-- `SHT_REL` -/
def shtRel : Nat := 0x9

/-- `sizeof(Symbol)` -/
def symbolSize : Nat := 16

/-! ## Further fields of a section header at `sh` -/

def address (m : Mem) (sh : Nat) : Nat := read32 m (add32 sh 12)
def link (m : Mem) (sh : Nat) : Nat := read32 m (add32 sh 24)
def entrySize (m : Mem) (sh : Nat) : Nat := read32 m (add32 sh 36)

/-- The symbol at `p`. -/
def symbolAt (m : Mem) (p : Nat) : Symbol :=
  ⟨read32 m p, read32 m (add32 p 4), read32 m (add32 p 8)⟩

/-- The symbols of the symbol table whose section header lies at `sh`. -/
def symbols (m : Mem) (sh : Nat) : List Symbol :=
  (List.range (size m sh / symbolSize)).map fun i =>
    symbolAt m (add32 (address m sh) (symbolSize * i))

/-- The loop of `string::compare` on two addresses, granted `rounds`. -/
def compareLoop (m : Mem) : Nat → Nat → Nat → Except Halt Bool
  | 0, _, _ => .error .hang
  | rounds + 1, a, b =>
    if m a ≠ 0 ∧ m b ≠ 0 then
      if m a ≠ m b then .ok false else compareLoop m rounds (add32 a 1) (add32 b 1)
    else .ok (m a = 0 && m b = 0)

/-- `string::compare(a, b)` -/
def compare (m : Mem) (rounds a b : Nat) : Except Halt Bool := do
  assert (a ≠ 0) "a != NULL"
  assert (b ≠ 0) "b != NULL"
  compareLoop m rounds a b

section
variable (this : Nat) (m : Mem)

/-- `section_headers_[i]` is used. -/
def useSection (i : Nat) : Except Stop Nat := do
  follow (read32 m (Parser.sectionHeaders this))
  useIndex i (shnum m (Parser.header this))
  follow (sectionHeader this m i)
  return sectionHeader this m i

/-- `reinterpret_cast<const char*>(symbol->name) + string_table_->address` -/
def symbolName (s : Symbol) : Nat := add32 s.name (address m (read32 m (Parser.stringTable this)))

/-- The loop of `FindSymbolName` over the symbols. -/
def findNameLoop (a : Nat) (start : Option Nat) :
    List Symbol → Except Stop (Nat × Option Nat)
  | [] => return (0, start)
  | s :: rest =>
    if a ≥ s.value ∧ a < add32 s.value s.size then do
      follow (read32 m (Parser.stringTable this))
      return (symbolName this m s, start.map fun _ => s.value)
    else findNameLoop a start rest

/-- `FindSymbolName(a, start_address)`; `start` is the word at `start_address`, if it is not
`NULL`. -/
def findSymbolName (a : Nat) (start : Option Nat) : Except Stop (Nat × Option Nat) := do
  follow (read32 m (Parser.symbolTable this))
  findNameLoop this m a start (symbols m (read32 m (Parser.symbolTable this)))

/-- The loop of `FindSymbolAddress` over the symbols. -/
def findAddressLoop (rounds name : Nat) : List Symbol → Except Stop Nat
  | [] => return 0
  | s :: rest => do
    follow (read32 m (Parser.stringTable this))
    if ← lift (compare m rounds name (symbolName this m s)) then
      return s.value
    else
      findAddressLoop rounds name rest

/-- `FindSymbolAddress(name)` -/
def findSymbolAddress (rounds name : Nat) : Except Stop Nat := do
  follow (read32 m (Parser.symbolTable this))
  findAddressLoop this m rounds name (symbols m (read32 m (Parser.symbolTable this)))

/-- `FindDynamicSymbolAddress(offset)` -/
def findDynamicSymbolAddress (offset : Nat) : Except Stop Nat := do
  let sh := read32 m (Parser.relocationTable this)
  follow sh
  if type m sh = shtRel then
    return read32 m (add32 (address m sh) offset)
  else
    return 0

/-- `FindDynamicSymbolName(offset)` -/
def findDynamicSymbolName (offset : Nat) : Except Stop Nat := do
  let sh := read32 m (Parser.relocationTable this)
  follow sh
  if type m sh = shtRel then do
    let rel := add32 (address m sh) offset
    let dyn ← useSection this m (link m sh)
    let sym := read32 m (add32 rel 4) >>> 8
    let tag := add32 (address m dyn) (sym * entrySize m dyn)
    let strtab ← useSection this m (link m dyn)
    return add32 (address m strtab) (read32 m tag)
  else
    return 0

end

/-! ## Lookup by address -/

/-- The symbol's range, as exact integers, contains `a`. -/
def contains (a : Nat) (s : Symbol) : Bool := s.value ≤ a && a < s.value + s.size

/-- The symbol's range ends below the top of memory. -/
def belowTop (s : Symbol) : Bool := s.value + s.size < 4294967296

/-- The result is that of the first symbol that contains `a`: its name, and its value is stored; or
`NULL`, and nothing is stored. -/
structure Exact (this : Nat) (m : Mem) (a s : Nat) (r : Nat × Option Nat) : Prop where
  found : ∀ sym, (symbols m (read32 m (Parser.symbolTable this))).find? (contains a) = some sym →
    r = (symbolName this m sym, some sym.value) ∧ r.1 ≠ 0
  absent : (symbols m (read32 m (Parser.symbolTable this))).find? (contains a) = none →
    r = (0, some s)

/-- The first symbol that contains `a` has a name that is not at `NULL`. It ends below the top of
memory, or it has the name and the value of the first symbol that does and contains `a`. -/
def Resolved (this : Nat) (m : Mem) (a : Nat) : Prop :=
  ∀ sym, (symbols m (read32 m (Parser.symbolTable this))).find? (contains a) = some sym →
    symbolName this m sym ≠ 0 ∧
    ∃ sym', (symbols m (read32 m (Parser.symbolTable this))).find?
        (fun t => contains a t && belowTop t) = some sym' ∧
      sym'.name = sym.name ∧ sym'.value = sym.value

theorem symbols_word {m : Mem} {sh : Nat} {s : Symbol} (h : s ∈ symbols m sh) :
    s.name < 4294967296 ∧ s.value < 4294967296 ∧ s.size < 4294967296 := by
  obtain ⟨i, -, rfl⟩ := List.mem_map.1 h
  exact ⟨read32_lt _ _, read32_lt _ _, read32_lt _ _⟩

theorem follow_ok {p : Nat} (h : p ≠ 0) : follow p = .ok () := check_ok.2 (decide_eq_true h)

theorem findNameLoop_eq {this : Nat} {m : Mem} (hs : read32 m (Parser.stringTable this) ≠ 0)
    (a : Nat) (start : Option Nat) (table : List Symbol) :
    findNameLoop this m a start table =
      .ok (match table.find? fun s => decide (a ≥ s.value ∧ a < add32 s.value s.size) with
        | some s => (symbolName this m s, start.map fun _ => s.value)
        | none => (0, start)) := by
  induction table with
  | nil => rfl
  | cons s rest ih =>
    rw [findNameLoop, List.find?_cons]
    by_cases h : a ≥ s.value ∧ a < add32 s.value s.size
    · rw [if_pos h, decide_eq_true h, follow_ok hs]
      rfl
    · rw [if_neg h, decide_eq_false h, ih]

theorem test_eq {a : Nat} {s : Symbol} (ha : a < 4294967296) (hv : s.value < 4294967296)
    (hs : s.size < 4294967296) :
    decide (a ≥ s.value ∧ a < add32 s.value s.size) = (contains a s && belowTop s) := by
  unfold contains belowTop add32
  rw [Bool.eq_iff_iff, decide_eq_true_eq, Bool.and_eq_true, Bool.and_eq_true, decide_eq_true_eq,
    decide_eq_true_eq, decide_eq_true_eq]
  omega

theorem findSymbolName_eq {this a : Nat} {m : Mem} {start : Option Nat} (ha : a < 4294967296)
    (ht : read32 m (Parser.symbolTable this) ≠ 0) (hs : read32 m (Parser.stringTable this) ≠ 0) :
    findSymbolName this m a start =
      .ok (match (symbols m (read32 m (Parser.symbolTable this))).find?
          (fun t => contains a t && belowTop t) with
        | some s => (symbolName this m s, start.map fun _ => s.value)
        | none => (0, start)) := by
  rw [findSymbolName, follow_ok ht]
  refine (findNameLoop_eq hs a start _).trans ?_
  rw [List.find?_congr fun s hmem =>
    test_eq ha (symbols_word hmem).2.1 (symbols_word hmem).2.2]

/-- **`FindSymbolName` is exact** just where the first symbol that contains the address is found
although its end may wrap. -/
theorem findSymbolName_exact {this a s : Nat} {m : Mem} (ha : a < 4294967296)
    (ht : read32 m (Parser.symbolTable this) ≠ 0) (hs : read32 m (Parser.stringTable this) ≠ 0) :
    (∃ r, findSymbolName this m a (some s) = .ok r ∧ Exact this m a s r) ↔ Resolved this m a := by
  rw [findSymbolName_eq ha ht hs]
  constructor
  · rintro ⟨r, hr, hfound, -⟩ sym hsym
    obtain ⟨he, hne⟩ := hfound sym hsym
    have hmem := symbols_word (List.mem_of_find?_eq_some hsym)
    rw [he] at hr hne
    cases hg : (symbols m (read32 m (Parser.symbolTable this))).find?
        (fun t => contains a t && belowTop t) with
    | none =>
      rw [hg] at hr
      exact absurd (congrArg Prod.fst (Except.ok.inj hr)).symm hne
    | some sym' =>
      rw [hg] at hr
      have hmem' := symbols_word (List.mem_of_find?_eq_some hg)
      have hname := congrArg Prod.fst (Except.ok.inj hr)
      have hvalue := congrArg Prod.snd (Except.ok.inj hr)
      refine ⟨hne, sym', rfl, ?_, Option.some.inj hvalue⟩
      unfold symbolName add32 at hname
      dsimp only at hname
      omega
  · intro h
    refine ⟨_, rfl, fun sym hsym => ?_, fun hnone => ?_⟩
    · obtain ⟨hne, sym', hg, hname, hvalue⟩ := h sym hsym
      rw [hg]
      unfold symbolName at hne ⊢
      dsimp only
      rw [hname, hvalue]
      exact ⟨rfl, hne⟩
    · have hg : (symbols m (read32 m (Parser.symbolTable this))).find?
          (fun t => contains a t && belowTop t) = none := by
        refine List.find?_eq_none.2 fun t hmem ht' => ?_
        exact List.find?_eq_none.1 hnone t hmem (Bool.and_eq_true_iff.1 ht').1
      rw [hg]

/-! ## Lookup by name -/

/-- The bytes `cs` and a NUL lie at `p`. -/
def IsString (m : Mem) : Nat → List UInt8 → Prop
  | p, [] => m p = 0
  | p, c :: cs => m p = c ∧ IsString m (add32 p 1) cs

/-- The parser has both tables, and the symbols have the distinct names `names`, none at `NULL`. -/
structure Named (this : Nat) (m : Mem) (names : List CString) : Prop where
  symbolTable : read32 m (Parser.symbolTable this) ≠ 0
  stringTable : read32 m (Parser.stringTable this) ≠ 0
  strings : List.Forall₂ (fun sym cs => symbolName this m sym ≠ 0 ∧
    IsString m (symbolName this m sym) cs.1) (symbols m (read32 m (Parser.symbolTable this))) names
  distinct : names.Nodup

theorem compareLoop_eq {m : Mem} : ∀ (xs ys : List UInt8) (rounds a b : Nat), (0 : UInt8) ∉ xs →
    (0 : UInt8) ∉ ys → xs.length < rounds → IsString m a xs → IsString m b ys →
    compareLoop m rounds a b = .ok (CString.compareBytes xs ys) := by
  intro xs
  induction xs with
  | nil =>
    intro ys rounds a b _ hys hr ha hb
    obtain ⟨rounds, rfl⟩ : ∃ k, rounds = k + 1 := ⟨rounds - 1, by omega⟩
    have ha : m a = 0 := ha
    rw [compareLoop, if_neg fun h => h.1 ha, ha]
    cases ys with
    | nil =>
      have hb : m b = 0 := hb
      rw [hb]
      rfl
    | cons y ys =>
      have hy : m b ≠ 0 := fun h0 => hys (by rw [← h0, hb.1]; exact List.mem_cons_self)
      rw [decide_eq_false hy]
      rfl
  | cons x xs ih =>
    intro ys rounds a b hxs hys hr ha hb
    obtain ⟨rounds, rfl⟩ : ∃ k, rounds = k + 1 := ⟨rounds - 1, by omega⟩
    obtain ⟨hx, ha⟩ := ha
    have hx0 : m a ≠ 0 := fun h0 => hxs (by rw [← h0, hx]; exact List.mem_cons_self)
    rw [compareLoop]
    cases ys with
    | nil =>
      have hb : m b = 0 := hb
      rw [if_neg fun h => h.2 hb, decide_eq_false hx0]
      rfl
    | cons y ys =>
      obtain ⟨hy, hb⟩ := hb
      have hy0 : m b ≠ 0 := fun h0 => hys (by rw [← h0, hy]; exact List.mem_cons_self)
      rw [if_pos ⟨hx0, hy0⟩, CString.compareBytes, hx, hy]
      by_cases hxy : x = y
      · rw [if_neg (not_not.2 hxy), if_neg (not_not.2 hxy)]
        rw [List.length_cons] at hr
        exact ih ys rounds _ _ (fun h => hxs (List.mem_cons_of_mem _ h))
          (fun h => hys (List.mem_cons_of_mem _ h)) (by omega) ha hb
      · rw [if_pos hxy, if_pos hxy]

theorem compare_eq {m : Mem} {x y : CString} {rounds a b : Nat} (hr : x.1.length < rounds)
    (ha : IsString m a x.1) (hb : IsString m b y.1) (ha0 : a ≠ 0) (hb0 : b ≠ 0) :
    compare m rounds a b = .ok (CString.compare x y) := by
  rw [compare, decide_eq_true ha0, decide_eq_true hb0]
  exact compareLoop_eq x.1 y.1 rounds a b x.2 y.2 hr ha hb

/-- Among distinct names the loop finds the symbol of the name it is given. -/
theorem findAddressLoop_eq {this : Nat} {m : Mem} (hs : read32 m (Parser.stringTable this) ≠ 0)
    {rounds p : Nat} {x : CString} (hr : x.1.length < rounds) (hp : p ≠ 0)
    (hx : IsString m p x.1) : ∀ {table : List Symbol} {names : List CString},
    List.Forall₂ (fun sym cs => symbolName this m sym ≠ 0 ∧
      IsString m (symbolName this m sym) cs.1) table names →
    names.Nodup → ∀ {i : Nat} {sym : Symbol}, table[i]? = some sym → names[i]? = some x →
    findAddressLoop this m rounds p table = .ok sym.value := by
  intro table names h
  induction h with
  | nil => exact fun _ _ _ ht => nomatch ht
  | @cons s cs rest names hsc _ ih =>
    intro hnd i sym ht hn
    obtain ⟨hne, hstr⟩ := hsc
    rw [findAddressLoop, follow_ok hs, compare_eq hr hx hstr hp hne]
    by_cases hxc : x = cs
    · -- the name is the first one, and no later one
      have hi : i = 0 := by
        cases i with
        | zero => rfl
        | succ i =>
          rw [List.getElem?_cons_succ] at hn
          exact absurd (hxc ▸ List.mem_of_getElem? hn) (List.nodup_cons.1 hnd).1
      subst hi
      cases ht
      rw [CString.compare_iff.2 hxc]
      rfl
    · rw [Bool.eq_false_iff.2 (mt CString.compare_iff.1 hxc)]
      cases i with
      | zero => exact absurd (Option.some.inj hn).symm hxc
      | succ i => exact ih (List.nodup_cons.1 hnd).2 ht hn

theorem Named.address {this : Nat} {m : Mem} {names : List CString} (h : Named this m names)
    {i p : Nat} {sym : Symbol} {x : CString}
    (ht : (symbols m (read32 m (Parser.symbolTable this)))[i]? = some sym)
    (hn : names[i]? = some x) (hp : p ≠ 0) (hx : IsString m p x.1) :
    ∃ rounds, findSymbolAddress this m rounds p = .ok sym.value := by
  refine ⟨x.1.length + 1, ?_⟩
  rw [findSymbolAddress, follow_ok h.symbolTable]
  exact findAddressLoop_eq h.stringTable (Nat.lt_succ_self _) hp hx h.strings h.distinct ht hn

/-- **The lookups are inverse to each other** where the names are distinct: the name found for an
address leads to the value found with it, which is no higher, and every symbol's name leads to the
symbol's value. -/
theorem lookups_inverse {this : Nat} {m : Mem} {names : List CString} (h : Named this m names) :
    (∀ a s₀ p s, findSymbolName this m a (some s₀) = .ok (p, some s) → p ≠ 0 →
      (∃ rounds, findSymbolAddress this m rounds p = .ok s) ∧ s ≤ a) ∧
    ∀ (i : Nat) (sym : Symbol) (x : CString) p,
      (symbols m (read32 m (Parser.symbolTable this)))[i]? = some sym → names[i]? = some x →
      p ≠ 0 → IsString m p x.1 →
      ∃ rounds, findSymbolAddress this m rounds p = .ok sym.value := by
  refine ⟨fun a s₀ p s hr hp => ?_, fun i sym x p ht hn hp hx => h.address ht hn hp hx⟩
  rw [findSymbolName, follow_ok h.symbolTable] at hr
  have hr := (findNameLoop_eq h.stringTable a (some s₀) _).symm.trans hr
  cases hf : (symbols m (read32 m (Parser.symbolTable this))).find?
      fun s => decide (a ≥ s.value ∧ a < add32 s.value s.size) with
  | none =>
    rw [hf] at hr
    cases hr
    exact absurd rfl hp
  | some sym =>
    rw [hf] at hr
    cases hr
    have hin := List.find?_some hf
    have hle := (of_decide_eq_true hin).1
    obtain ⟨i, hi⟩ := List.getElem?_of_mem (List.mem_of_find?_eq_some hf)
    obtain ⟨hil, rfl⟩ := List.getElem?_eq_some_iff.1 hi
    have hil' : i < names.length := by
      rw [← h.strings.length_eq]
      exact hil
    obtain ⟨-, hx⟩ := h.strings.get hil hil'
    exact ⟨h.address hi (List.getElem?_eq_getElem hil') hp hx, hle⟩

/-! ## Tables of one and of three symbols -/

/-- A parser at 0x100 with one symbol, named "a". -/
def oneSymbol (value size : Nat) : Mem :=
  let m := write32 (fun _ => 0) (Parser.symbolTable 0x100) 0x200
  let m := write32 m (Parser.stringTable 0x100) 0x300
  let m := write32 m (0x200 + 12) 0x400
  let m := write32 m (0x200 + 20) symbolSize
  let m := write32 m (0x300 + 12) 0x500
  let m := write32 m 0x400 1
  let m := write32 m 0x404 value
  let m := write32 m 0x408 size
  write32 m 0x501 97

/-- With a symbol named "bc" behind it, and one named "b". -/
def threeSymbols : Mem :=
  let m := write32 (oneSymbol 0x1000 0x10) (0x200 + 20) (3 * symbolSize)
  let m := write32 m 0x410 3
  let m := write32 m 0x414 0x1010
  let m := write32 m 0x418 0x20
  let m := write32 m 0x420 6
  let m := write32 m 0x424 0x2000
  let m := write32 m 0x428 0x100
  let m := write32 m 0x503 25442
  write32 m 0x506 98

theorem threeSymbols_tables : read32 threeSymbols (Parser.symbolTable 0x100) = 0x200 ∧
    read32 threeSymbols (Parser.stringTable 0x100) = 0x300 ∧
    symbols threeSymbols 0x200 = [⟨1, 0x1000, 0x10⟩, ⟨3, 0x1010, 0x20⟩, ⟨6, 0x2000, 0x100⟩] ∧
    symbolName 0x100 threeSymbols ⟨1, 0x1000, 0x10⟩ = 0x501 ∧
    symbolName 0x100 threeSymbols ⟨3, 0x1010, 0x20⟩ = 0x503 ∧
    symbolName 0x100 threeSymbols ⟨6, 0x2000, 0x100⟩ = 0x506 := by
  decide +kernel

theorem threeSymbols_strings : (threeSymbols 0x501 = 97 ∧ threeSymbols 0x502 = 0) ∧
    (threeSymbols 0x503 = 98 ∧ threeSymbols 0x504 = 99 ∧ threeSymbols 0x505 = 0) ∧
    threeSymbols 0x506 = 98 ∧ threeSymbols 0x507 = 0 := by
  decide +kernel

theorem threeSymbols_named : Named 0x100 threeSymbols
    [⟨[97], by decide⟩, ⟨[98, 99], by decide⟩, ⟨[98], by decide⟩] := by
  obtain ⟨ht, hs, hsyms, ha, hbc, hb⟩ := threeSymbols_tables
  obtain ⟨hsa, hsbc, hsb⟩ := threeSymbols_strings
  refine ⟨by rw [ht]; decide, by rw [hs]; decide, ?_, by decide⟩
  rw [ht, hsyms]
  refine .cons ?_ (.cons ?_ (.cons ?_ .nil))
  · rw [ha]
    exact ⟨by decide, hsa⟩
  · rw [hbc]
    exact ⟨by decide, hsbc⟩
  · rw [hb]
    exact ⟨by decide, hsb⟩

/-- An address in the second of three symbols. -/
theorem findSymbolName_exact_three : ∃ r, findSymbolName 0x100 threeSymbols 0x1018 (some 7) = .ok r ∧
    Exact 0x100 threeSymbols 0x1018 7 r := by
  obtain ⟨ht, -, hsyms, -, hbc, -⟩ := threeSymbols_tables
  refine (findSymbolName_exact (by decide) threeSymbols_named.symbolTable
    threeSymbols_named.stringTable).2 fun sym hsym => ?_
  rw [ht, hsyms] at hsym ⊢
  cases (show _ = some (⟨3, 0x1010, 0x20⟩ : Symbol) by decide).symm.trans hsym
  exact ⟨by rw [hbc]; decide, ⟨3, 0x1010, 0x20⟩, by decide, rfl, rfl⟩

/-- The name found for that address leads back to the symbol; so does the name of the third. -/
theorem lookups_inverse_three :
    (∃ rounds, findSymbolAddress 0x100 threeSymbols rounds 0x503 = .ok 0x1010) ∧
    ∃ rounds, findSymbolAddress 0x100 threeSymbols rounds 0x506 = .ok 0x2000 := by
  obtain ⟨ht, -, hsyms, -⟩ := threeSymbols_tables
  obtain ⟨h1, h2⟩ := lookups_inverse threeSymbols_named
  have hfound : findSymbolName 0x100 threeSymbols 0x1018 (some 7) = .ok (0x503, some 0x1010) := by
    decide +kernel
  refine ⟨(h1 0x1018 7 0x503 0x1010 hfound (by decide)).1,
    h2 2 ⟨6, 0x2000, 0x100⟩ ⟨[98], by decide⟩ 0x506 ?_ rfl (by decide) threeSymbols_strings.2.2⟩
  rw [ht, hsyms]
  rfl

/-- **A symbol that reaches the top of memory is missed**: its end wraps to zero. -/
theorem top_symbol_missed : ¬ ∀ (this a s : Nat) (m : Mem), a < 4294967296 →
    read32 m (Parser.symbolTable this) ≠ 0 → read32 m (Parser.stringTable this) ≠ 0 →
    ∃ r, findSymbolName this m a (some s) = .ok r ∧ Exact this m a s r := by
  intro h
  obtain ⟨r, hr, hfound, -⟩ := h 0x100 0xFFFFF800 7 (oneSymbol 0xFFFFF000 0x1000) (by decide)
    (by decide +kernel) (by decide +kernel)
  have hnull : findSymbolName 0x100 (oneSymbol 0xFFFFF000 0x1000) 0xFFFFF800 (some 7) =
      .ok (0, some 7) := by
    decide +kernel
  have hin : (symbols (oneSymbol 0xFFFFF000 0x1000)
      (read32 (oneSymbol 0xFFFFF000 0x1000) (Parser.symbolTable 0x100))).find?
        (contains 0xFFFFF800) = some ⟨1, 0xFFFFF000, 0x1000⟩ := by
    decide +kernel
  rw [hnull] at hr
  cases hr
  exact (hfound _ hin).2 rfl

end ElfFile

end Dmanix
