import Dmanix.Process.Proof.TableRead
import Dmanix.Process.Symbols

/-!
# What a parser takes from a file unchecked

`selectChecked` is the constructor behind the reading of the section table, with a check wherever it
uses a section index, the offset of a section name or a section pointer; the `Find` functions have
such checks already. None of these checks is in the source. `clean_constructAndAsk` says in which states
none fails.

The headers are looked for where the table's first word points, in memory the table was not read to. So
every file that passes the constructor's assertions is misread in some memory, and a usual one in every
memory (`misread_iff`).
-/

namespace Dmanix

open Bytes Word32 Checked

namespace ElfFile

/-- The offset of a section name is used; `loaded` bytes of names were read. -/
def useName (offset loaded : Nat) : Except Stop Unit := check (offset < loaded) (.name offset)

/-- The calls of the parser's `Find` functions. -/
inductive Lookup where
  | symbolName (address : Nat) (start : Option Nat)
  | symbolAddress (name : Nat)
  | dynamicSymbolAddress (offset : Nat)
  | dynamicSymbolName (offset : Nat)
  deriving DecidableEq, Repr

section
variable (kalloc ualloc : Nat → Mem → Except Halt (Nat × Mem)) (ufree : Nat → Mem → Except Halt Mem)
  (this filename : Nat) (file : File)

/-- The body of the search by name. -/
def nameRound (strtab i : Nat) (m : Mem) : Except Halt Mem := do
  let sh := sectionHeader this m i
  let str := add32 strtab (name m sh)
  if ← compareAt m str ElfTables.gotPlt then
    return write32 m (Parser.globalOffsetTable this) sh
  else if ← compareAt m str ElfTables.relPlt then
    return write32 m (Parser.relocationTable this) sh
  else
    return m

/-- `nameLoop` with checks. -/
def nameLoopChecked (strtab loaded : Nat) : Nat → Mem → Nat → Except Stop Mem
  | _, m, 0 => return m
  | i, m, n + 1 => do
    follow (read32 m (Parser.sectionHeaders this))
    useName (name m (sectionHeader this m i)) loaded
    let m ← lift (nameRound this strtab i m)
    nameLoopChecked strtab loaded (i + 1) m n

/-- The string table and the symbol table are chosen. -/
def chooseTables (m : Mem) : Mem :=
  let m := write32 m (Parser.stringTable this) (sectionHeader this m (shstringIndex m (Parser.header this)))
  symtabLoop this 0 m (shnum m (Parser.header this))

/-- `select` with checks. -/
def selectChecked (m : Mem) : Except Stop Mem := do
  let _ ← useSection this m (shstringIndex m (Parser.header this))
  let m := chooseTables this m
  let (strtab, m) ← lift (ualloc (size m (read32 m (Parser.stringTable this))) m)
  let table := read32 m (Parser.stringTable this)
  follow table
  let (loaded, m) ← lift (file.read (offset m table) (size m table) strtab m)
  let m ← nameLoopChecked this strtab loaded 0 m (shnum m (Parser.header this))
  lift (ufree strtab m)

/-- `construct` with checks. -/
def constructChecked (m : Mem) : Except Stop Mem := do
  let (_, m) ← lift (prepare kalloc this filename file m)
  let m ← lift (readTable this file m)
  selectChecked ualloc ufree this file m

/-- A call of a `Find` function; only what it uses matters. -/
def lookup (rounds : Nat) (m : Mem) : Lookup → Except Stop Unit
  | .symbolName address start => do
    let _ ← findSymbolName this m address start
    return ()
  | .symbolAddress name => do
    let _ ← findSymbolAddress this m rounds name
    return ()
  | .dynamicSymbolAddress offset => do
    let _ ← findDynamicSymbolAddress this m offset
    return ()
  | .dynamicSymbolName offset => do
    let _ ← findDynamicSymbolName this m offset
    return ()

/-- A parser is constructed and asked. -/
def constructAndAsk (rounds : Nat) (q : Lookup) (m : Mem) : Except Stop Unit := do
  let m ← constructChecked kalloc ualloc ufree this filename file m
  lookup this rounds m q

/-! ## What must be in range -/

/-- The section `i` is one of the parser's, and its header is not at `NULL`. -/
structure HasSection (m : Mem) (i : Nat) : Prop where
  headers : read32 m (Parser.sectionHeaders this) ≠ 0
  index : i < shnum m (Parser.header this)
  header : sectionHeader this m i ≠ 0

/-- In the state before each round of the search by name, the name lies in the `loaded` bytes at
`strtab`. -/
def NamesLoaded (strtab loaded : Nat) (m : Mem) : Prop :=
  ∀ i t, i < shnum m (Parser.header this) → nameLoop this strtab 0 m i = .ok t →
    read32 t (Parser.sectionHeaders this) ≠ 0 ∧ name t (sectionHeader this t i) < loaded

/-- What `select` needs of the memory it starts from: the section of the names is there, and the
names lie in what is loaded of it. -/
structure Selectable (m : Mem) : Prop where
  strings : HasSection this m (shstringIndex m (Parser.header this))
  names : ∀ strtab m', ualloc (size (chooseTables this m)
      (read32 (chooseTables this m) (Parser.stringTable this))) (chooseTables this m) =
        .ok (strtab, m') →
    read32 m' (Parser.stringTable this) ≠ 0 ∧
    ∀ loaded m'', file.read (offset m' (read32 m' (Parser.stringTable this)))
        (size m' (read32 m' (Parser.stringTable this))) strtab m' = .ok (loaded, m'') →
      NamesLoaded this strtab loaded m''

/-- What a call needs of the parser: the sections it looks into, and their links. -/
def Answerable (m : Mem) : Lookup → Prop
  | .symbolName a _ => read32 m (Parser.symbolTable this) ≠ 0 ∧
    ((∃ s ∈ symbols m (read32 m (Parser.symbolTable this)),
      a ≥ s.value ∧ a < add32 s.value s.size) → read32 m (Parser.stringTable this) ≠ 0)
  | .symbolAddress _ => read32 m (Parser.symbolTable this) ≠ 0 ∧
    (symbols m (read32 m (Parser.symbolTable this)) ≠ [] →
      read32 m (Parser.stringTable this) ≠ 0)
  | .dynamicSymbolAddress _ => read32 m (Parser.relocationTable this) ≠ 0
  | .dynamicSymbolName _ => read32 m (Parser.relocationTable this) ≠ 0 ∧
    (type m (read32 m (Parser.relocationTable this)) = shtRel →
      HasSection this m (link m (read32 m (Parser.relocationTable this))) ∧
      HasSection this m (link m (sectionHeader this m
        (link m (read32 m (Parser.relocationTable this))))))

end

variable {kalloc ualloc : Nat → Mem → Except Halt (Nat × Mem)} {ufree : Nat → Mem → Except Halt Mem}
  {this filename : Nat} {file : File} {m : Mem}

/-! ## The checks are all there is -/

theorem nameLoop_succ (strtab i : Nat) (m : Mem) (n : Nat) :
    nameLoop this strtab i m (n + 1) =
      (nameRound this strtab i m >>= fun m => nameLoop this strtab (i + 1) m n) := by
  rw [nameLoop, nameRound]
  cases compareAt m _ ElfTables.gotPlt with
  | error e => rfl
  | ok b =>
    cases b with
    | true => rfl
    | false =>
      show (compareAt m _ ElfTables.relPlt >>= _) = ((compareAt m _ ElfTables.relPlt >>= _) >>= _)
      cases compareAt m _ ElfTables.relPlt with
      | error e => rfl
      | ok c =>
        cases c with
        | true => rfl
        | false => rfl

theorem nameLoopChecked_checks (strtab loaded : Nat) : ∀ (n i : Nat) (m : Mem),
    Checks (nameLoopChecked this strtab loaded i m n) (nameLoop this strtab i m n) := by
  intro n
  induction n with
  | zero => exact fun _ m => .lift (.ok m)
  | succ n ih =>
    intro i m
    rw [nameLoop_succ]
    exact .check (.check ((Checks.lift _).bind fun t => ih (i + 1) t) _ _) _ _

theorem useSection_checks {α : Type} (i : Nat) {x : Except Stop α} {y : Except Halt α}
    (h : Checks x y) : Checks (useSection this m i >>= fun _ => x) y := by
  have hsec : (useSection this m i >>= fun _ => x) =
      (follow (read32 m (Parser.sectionHeaders this)) >>= fun _ =>
        useIndex i (shnum m (Parser.header this)) >>= fun _ =>
        follow (sectionHeader this m i) >>= fun _ => x) := by
    simp only [useSection, bind_assoc, pure_bind]
  rw [hsec]
  exact .check (.check (.check h _ _) _ _) _ _

theorem selectChecked_checks (m : Mem) :
    Checks (selectChecked ualloc ufree this file m) (select ualloc ufree this file m) := by
  refine useSection_checks _ ((Checks.lift _).bind fun ⟨strtab, m'⟩ => .check ?_ _ _)
  exact (Checks.lift _).bind fun ⟨loaded, m''⟩ =>
    (nameLoopChecked_checks strtab loaded _ 0 m'').bind fun t => .lift _

/-! ## Where no check fails -/

theorem clean_follow {α : Type} {p : Nat} {f : Unit → Except Stop α} :
    Clean (follow p >>= f) ↔ p ≠ 0 ∧ Clean (f ()) := by
  rw [follow, clean_check_bind, decide_eq_true_eq]

theorem clean_useSection {α : Type} {i : Nat} {f : Nat → Except Stop α} :
    Clean (useSection this m i >>= f) ↔ HasSection this m i ∧ Clean (f (sectionHeader this m i)) := by
  rw [useSection]
  simp only [bind_assoc, pure_bind]
  rw [clean_follow, useIndex, clean_check_bind, clean_follow, decide_eq_true_eq]
  exact ⟨fun ⟨h1, h2, h3, h⟩ => ⟨⟨h1, h2, h3⟩, h⟩, fun ⟨⟨h1, h2, h3⟩, h⟩ => ⟨h1, h2, h3, h⟩⟩

/-- The search by name uses what is loaded, round by round. -/
theorem clean_nameLoop (strtab loaded : Nat) : ∀ (n i : Nat) (m : Mem),
    Clean (nameLoopChecked this strtab loaded i m n) ↔
      ∀ k t, k < n → nameLoop this strtab i m k = .ok t →
        read32 t (Parser.sectionHeaders this) ≠ 0 ∧
          name t (sectionHeader this t (i + k)) < loaded := by
  intro n
  induction n with
  | zero =>
    intro i m
    exact iff_of_true (clean_pure m) fun k t hk => absurd hk (Nat.not_lt_zero k)
  | succ n ih =>
    intro i m
    rw [nameLoopChecked, clean_follow, useName, clean_check_bind, clean_lift_bind,
      decide_eq_true_eq]
    constructor
    · rintro ⟨hp, hn, h⟩ k t hk ht
      cases k with
      | zero =>
        cases ht
        exact ⟨hp, hn⟩
      | succ k =>
        rw [nameLoop_succ] at ht
        obtain ⟨u, hu, ht⟩ := bind_ok.1 ht
        rw [show i + (k + 1) = i + 1 + k by omega]
        exact (ih (i + 1) u).1 (h u hu) k t (by omega) ht
    · intro h
      obtain ⟨hp, hn⟩ := h 0 m (Nat.succ_pos n) rfl
      refine ⟨hp, hn, fun u hu => (ih (i + 1) u).2 fun k t hk ht => ?_⟩
      rw [show i + 1 + k = i + (k + 1) by omega]
      refine h (k + 1) t (by omega) ?_
      rw [nameLoop_succ, hu]
      exact ht

theorem clean_select : Clean (selectChecked ualloc ufree this file m) ↔
    Selectable ualloc this file m := by
  rw [selectChecked, clean_useSection]
  dsimp only
  rw [clean_lift_bind]
  constructor
  · rintro ⟨hs, h⟩
    refine ⟨hs, fun strtab m' hu => ?_⟩
    obtain ⟨ht, h⟩ := clean_follow.1 (h (strtab, m') hu)
    refine ⟨ht, fun loaded m'' hr i t hi hn => ?_⟩
    have hc := (clean_nameLoop strtab loaded _ 0 m'').1 (clean_bind.1 (clean_lift_bind.1 h _ hr)).1
    have := hc i t hi hn
    rwa [Nat.zero_add] at this
  · rintro ⟨hs, h⟩
    refine ⟨hs, fun ⟨strtab, m'⟩ hu => ?_⟩
    obtain ⟨ht, h⟩ := h strtab m' hu
    refine clean_follow.2 ⟨ht, clean_lift_bind.2 fun ⟨loaded, m''⟩ hr => ?_⟩
    refine clean_bind.2 ⟨(clean_nameLoop strtab loaded _ 0 m'').2 fun i t hi hn => ?_,
      fun t _ => clean_lift _⟩
    rw [Nat.zero_add]
    exact h loaded m'' hr i t hi hn

theorem clean_findNameLoop (a : Nat) (start : Option Nat) (table : List Symbol) :
    Clean (findNameLoop this m a start table) ↔
      ((∃ s ∈ table, a ≥ s.value ∧ a < add32 s.value s.size) →
        read32 m (Parser.stringTable this) ≠ 0) := by
  induction table with
  | nil => exact iff_of_true (clean_pure _) fun ⟨s, hs, _⟩ => absurd hs List.not_mem_nil
  | cons s rest ih =>
    rw [findNameLoop]
    by_cases h : a ≥ s.value ∧ a < add32 s.value s.size
    · rw [if_pos h, clean_follow]
      exact ⟨fun hc _ => hc.1, fun hc => ⟨hc ⟨s, List.mem_cons_self, h⟩, clean_pure _⟩⟩
    · rw [if_neg h, ih]
      simp only [List.mem_cons, exists_eq_or_imp, h, false_or]

theorem clean_findAddressLoop (rounds p : Nat) (table : List Symbol) :
    Clean (findAddressLoop this m rounds p table) ↔
      (table ≠ [] → read32 m (Parser.stringTable this) ≠ 0) := by
  induction table with
  | nil => exact iff_of_true (clean_pure _) fun h => absurd rfl h
  | cons s rest ih =>
    rw [findAddressLoop, clean_follow, clean_lift_bind]
    constructor
    · exact fun h _ => h.1
    · intro h
      have hs := h (List.cons_ne_nil _ _)
      refine ⟨hs, fun b _ => ?_⟩
      cases b with
      | true => exact clean_pure _
      | false => exact ih.2 fun _ => hs

theorem clean_lookup {rounds : Nat} {q : Lookup} :
    Clean (lookup this rounds m q) ↔ Answerable this m q := by
  cases q with
  | symbolName a start =>
    simp only [lookup, clean_bind, clean_pure, implies_true, and_true]
    rw [findSymbolName, clean_follow, clean_findNameLoop]
    rfl
  | symbolAddress p =>
    simp only [lookup, clean_bind, clean_pure, implies_true, and_true]
    rw [findSymbolAddress, clean_follow, clean_findAddressLoop]
    rfl
  | dynamicSymbolAddress offset =>
    simp only [lookup, clean_bind, clean_pure, implies_true, and_true]
    rw [findDynamicSymbolAddress, clean_follow]
    simp only [clean_ite, clean_pure, implies_true, and_true]
    rfl
  | dynamicSymbolName offset =>
    simp only [lookup, clean_bind, clean_pure, implies_true, and_true]
    rw [findDynamicSymbolName, clean_follow, clean_ite]
    refine and_congr_right fun _ => ⟨fun h ht => ?_, fun h => ⟨fun ht => ?_, fun _ => clean_pure _⟩⟩
    · obtain ⟨h1, h2⟩ := clean_useSection.1 (h.1 ht)
      exact ⟨h1, (clean_useSection.1 h2).1⟩
    · obtain ⟨h1, h2⟩ := h ht
      exact clean_useSection.2 ⟨h1, clean_useSection.2 ⟨h2, clean_pure _⟩⟩

/-- No check fails just where, in the states that the constructor goes through, the string table is one
of the sections, the names lie in what is loaded of it, and the sections a call looks into are there. -/
theorem clean_constructAndAsk {rounds : Nat} {q : Lookup} :
    Clean (constructAndAsk kalloc ualloc ufree this filename file rounds q m) ↔
      ∀ p m1 m2, prepare kalloc this filename file m = .ok (p, m1) →
        readTable this file m1 = .ok m2 → Selectable ualloc this file m2 ∧
          ∀ m3, select ualloc ufree this file m2 = .ok m3 → Answerable this m3 q := by
  rw [constructAndAsk, constructChecked]
  simp only [bind_assoc]
  rw [clean_lift_bind]
  constructor
  · intro h p m1 m2 h1 h2
    obtain ⟨hc, hl⟩ := clean_bind.1 (clean_lift_bind.1 (h (p, m1) h1) m2 h2)
    refine ⟨clean_select.1 hc, fun m3 h3 => clean_lookup.1 (hl m3 ?_)⟩
    rw [(selectChecked_checks m2).eq_lift hc]
    exact lift_ok.2 h3
  · rintro h ⟨p, m1⟩ h1
    refine clean_lift_bind.2 fun m2 h2 => ?_
    obtain ⟨hs, hq⟩ := h p m1 m2 h1 h2
    have hc : Clean (selectChecked ualloc ufree this file m2) := clean_select.2 hs
    refine clean_bind.2 ⟨hc, fun m3 h3 => clean_lookup.2 (hq m3 ?_)⟩
    rw [(selectChecked_checks m2).eq_lift hc] at h3
    exact lift_ok.1 h3

/-! ## Files -/

/-- A parser at `this`, and allocators that leave it alone. -/
structure Allocators (kalloc ualloc : Nat → Mem → Except Halt (Nat × Mem))
    (ufree : Nat → Mem → Except Halt Mem) (this : Nat) : Prop where
  inside : this + 76 ≤ 4294967296
  kernel : KernelHeap kalloc this
  user : UserHeap ualloc ufree (Object this)

/-- Whatever memory holds, wherever the parser and the buffers lie and whatever is looked up: no check
fails. -/
def NeverMisread (file : File) : Prop := ∀ kalloc ualloc ufree this, Allocators kalloc ualloc ufree this →
  ∀ filename rounds q m, Clean (constructAndAsk kalloc ualloc ufree this filename file rounds q m)

/-- The first word of the section table, which the reading puts where `section_headers_` is. -/
def firstWord (file : File) : Nat := read32 (table file) 0

theorem firstWord_lt (file : File) : firstWord file < 4294967296 := read32_lt _ _

/-- The memory `m` when `kalloc` is called: the members are initialised and the header is read. -/
def withHeader (this filename : Nat) (file : File) (m : Mem) : Mem :=
  fill (initMembers this filename m) (Parser.header this) file.bytes headerSize

theorem read_header (hthis : this + 76 ≤ 4294967296) (hf : headerSize ≤ file.size) :
    file.read 0 headerSize (Parser.header this) (initMembers this filename m) =
      .ok (headerSize, withHeader this filename file m) := by
  have hne : Parser.header this ≠ 0 := by
    unfold Parser.header
    omega
  have hadd : add32 0 headerSize = headerSize := by decide
  rw [File.read, if_neg (by omega), hadd, if_neg (by omega), decide_eq_true hne, withHeader]
  simp only [Nat.zero_add]
  rfl

theorem withHeader_header (hthis : this + 76 ≤ 4294967296) {k : Nat} (hk : k < headerSize) :
    withHeader this filename file m (Parser.header this + k) = file.bytes k := by
  unfold headerSize at hk
  have h := fill_inside (m := initMembers this filename m) (d := Parser.header this) (f := file.bytes)
    (n := headerSize) (by decide) hk
  rwa [add32_eq (by unfold Parser.header; omega)] at h

theorem prepare_returns (hthis : this + 76 ≤ 4294967296) (hk : KernelHeap kalloc this) (hf : Accepted file)
    {p : Nat} {mb : Mem} (ha : kalloc (tableSize file) (withHeader this filename file m) = .ok (p, mb)) :
    prepare kalloc this filename file m = .ok (p, write32 mb (Parser.sectionHeaders this) p) := by
  have hhead := @header_fields file (withHeader this filename file m) _
    fun k hk => withHeader_header hthis hk
  have hmb := @header_fields file (write32 mb (Parser.sectionHeaders this) p) (Parser.header this)
    fun k hlt => by
      unfold headerSize at hlt
      rw [write32_outside (by unfold Parser.header Parser.sectionHeaders; omega),
        hk.keeps ha ⟨by unfold Parser.header; omega, by unfold Parser.header; omega⟩]
      exact withHeader_header hthis hlt
  unfold prepare
  rw [read_header hthis hf.header, ok_bind]
  show (assert (decide (headerSize = headerSize)) _ >>= _) = _
  rw [decide_eq_true rfl, assert_true, ok_bind, hhead.2.2.1]
  show (kalloc (tableSize file) _ >>= _) = _
  rw [ha, ok_bind]
  show (assert (decide (_ = _)) _ >>= _) = _
  rw [hmb.2.1, hf.entry, decide_eq_true rfl]
  rfl

/-- A file behind whose table the constructor comes is accepted. -/
theorem accepted_of_reads (hthis : this + 76 ≤ 4294967296) (hk : KernelHeap kalloc this) {p : Nat}
    {m1 m2 : Mem} (h1 : prepare kalloc this filename file m = .ok (p, m1))
    (h2 : readTable this file m1 = .ok m2) : Accepted file := by
  obtain ⟨⟨r, ma⟩, hr, hp⟩ := bind_ok.1 h1
  obtain ⟨_, hsize, hp⟩ := bind_ok.1 hp
  obtain ⟨⟨q, mb⟩, -, hp⟩ := bind_ok.1 hp
  obtain ⟨_, hentry, hp⟩ := bind_ok.1 hp
  cases hp
  replace hsize : r = headerSize := of_decide_eq_true (assert_ok.1 hsize)
  have hheader : headerSize ≤ file.size := by
    have hr' := File.read_size hr
    rw [if_neg (by omega), show add32 0 headerSize = headerSize by decide] at hr'
    split at hr' <;> omega
  obtain ⟨hb, -, -⟩ := prepare_ok hthis hheader hk h1
  obtain ⟨e1, e2, e3, -⟩ := header_fields hb
  replace hentry := of_decide_eq_true (assert_ok.1 hentry)
  refine ⟨hheader, e2.symm.trans hentry, ?_⟩
  obtain ⟨⟨r', mc⟩, hr', h2⟩ := bind_ok.1 h2
  obtain ⟨_, hbytes, -⟩ := bind_ok.1 h2
  replace hbytes := of_decide_eq_true (assert_ok.1 hbytes)
  have hgot := File.read_size hr'
  rw [e1, e3, hentry, Nat.mul_comm] at hgot
  rw [e3, hentry, Nat.mul_comm] at hbytes
  change r' = tableSize file at hbytes
  change r' = if _ then 0 else if add32 _ (tableSize file) > _ then _ else tableSize file at hgot
  unfold add32 at hgot
  rcases Nat.eq_zero_or_pos (shnum file.bytes 0) with h0 | h0
  · exact .inl h0
  · have hpos : 0 < tableSize file := Nat.mul_pos (by decide) h0
    right
    split at hgot
    · omega
    · have hle : shoff file.bytes 0 ≤ file.size := by omega
      refine ⟨hle, ?_⟩
      split at hgot
      · have := Nat.sub_add_cancel hle
        omega
      · omega

/-- Behind the reading of the table the header is still there, and `section_headers_` is the table's
first word. -/
theorem table_placed {m1 : Mem} (hthis : this + 76 ≤ 4294967296)
    (hb : ∀ k, k < headerSize → m1 (Parser.header this + k) = file.bytes k) {m2 : Mem}
    (h : m2 = fill m1 (Parser.sectionHeaders this) (table file) (tableSize file)) :
    (∀ k, k < headerSize → m2 (Parser.header this + k) = file.bytes k) ∧
      (0 < shnum file.bytes 0 → read32 m2 (Parser.sectionHeaders this) = firstWord file) := by
  subst h
  have hn : tableSize file ≤ 40 * 65535 := by
    have := read16_lt file.bytes (0 + 48)
    unfold tableSize shnum sectionSize
    omega
  constructor
  · intro k hk
    unfold headerSize at hk
    rw [fill_outside fun i hi => ?_, hb k hk]
    unfold Parser.header Parser.sectionHeaders add32
    omega
  · intro hpos
    have h40 : 40 ≤ tableSize file := by
      unfold tableSize sectionSize
      omega
    refine read32_shift fun k hk => ?_
    have := fill_inside (m := m1) (d := Parser.sectionHeaders this) (f := table file)
      (n := tableSize file) (by omega) (i := k) (by omega)
    rw [add32_eq (by unfold Parser.sectionHeaders; omega)] at this
    rw [this, Nat.zero_add]

/-- A file whose index of the string table is not checked, or whose table starts with a zero word, as
usual. -/
theorem not_clean_usual (h : Allocators kalloc ualloc ufree this) (hf : Accepted file)
    (hbad : shnum file.bytes 0 ≤ shstringIndex file.bytes 0 ∨ firstWord file = 0) {rounds : Nat}
    {q : Lookup}
    (ha : ∃ r, kalloc (tableSize file) (withHeader this filename file m) = .ok r) :
    ¬ Clean (constructAndAsk kalloc ualloc ufree this filename file rounds q m) := by
  obtain ⟨⟨p, mb⟩, ha⟩ := ha
  have h1 := prepare_returns h.inside h.kernel hf ha
  obtain ⟨hb, -, -⟩ := prepare_ok h.inside hf.header h.kernel h1
  have h2 := readTable_ok hf hb
  obtain ⟨hb2, hw⟩ := table_placed h.inside hb rfl
  obtain ⟨-, -, hn, hx⟩ := header_fields hb2
  intro hc
  obtain ⟨hheaders, hindex, -⟩ := (clean_constructAndAsk.1 hc _ _ _ h1 h2).1.strings
  rcases hbad with hi | h0
  · omega
  · exact hheaders ((hw (by omega)).trans h0)

theorem chooseTables_off (m : Mem) :
    Off (Parser.symbolTable this) (Parser.globalOffsetTable this) m (chooseTables this m) := by
  have h1 : Parser.symbolTable this ≤ Parser.stringTable this := Nat.add_le_add_left (by decide) this
  have h2 : Parser.stringTable this ≤ Parser.globalOffsetTable this :=
    Nat.add_le_add_left (by decide) this
  exact ((Off.refl _ _ m).write32 _ h1 (Nat.le_refl _)).trans
    ((symtabLoop_off _ _ _).mono (Nat.le_refl _) h2)

theorem chooseTables_stringTable (m : Mem) : read32 (chooseTables this m) (Parser.stringTable this) =
    sectionHeader this m (shstringIndex m (Parser.header this)) := by
  rw [chooseTables, (symtabLoop_off _ _ _).read32 (.inr (Nat.le_refl _)), read32_write32]
  exact Nat.mod_eq_of_lt (add32_lt _ _)

/-- Allocators with room for one block of 4 MiB. -/
def largeBlock (p n : Nat) (m : Mem) : Except Halt (Nat × Mem) :=
  if n ≤ 0x400000 then .ok (p, m) else .error (.panic "end_address + new_size <= max_address")

theorem largeBlock_ok {p n q : Nat} {m m' : Mem} (h : largeBlock p n m = .ok (q, m')) :
    n ≤ 0x400000 ∧ q = p ∧ m' = m := by
  unfold largeBlock at h
  split at h
  · cases h
    exact ⟨‹_›, rfl, rfl⟩
  · cases h

/-- Allocators whose blocks lie in the second GiB, for a parser outside it. -/
theorem largeBlock_allocators (hthis : this + 76 ≤ 4294967296)
    (hout : this + 76 ≤ 0x40000000 ∨ 0x80000000 ≤ this) :
    Allocators (largeBlock 0x40000000) (largeBlock 0x60000000) noFree this where
  inside := hthis
  kernel :=
    { word := fun h => by
        obtain ⟨-, rfl, -⟩ := largeBlock_ok h
        decide
      apart := fun h => by
        obtain ⟨hn, rfl, -⟩ := largeBlock_ok h
        rintro ⟨i, hi, rfl⟩ ho
        unfold Object add32 at ho
        omega
      keeps := fun h _ => by rw [(largeBlock_ok h).2.2] }
  user :=
    { apart := fun h => by
        obtain ⟨hn, rfl, -⟩ := largeBlock_ok h
        rintro ⟨i, hi, rfl⟩ ho
        unfold Object add32 at ho
        omega
      keeps := fun h _ => by rw [(largeBlock_ok h).2.2]
      free_keeps := fun h _ => by
        cases h
        rfl }

/-- The place of a parser that lies apart from the headers at `w`. -/
def apartFrom (w : Nat) : Nat := if w < 0x80000000 then 0xC0000000 else 0x10000000

/-- In memory that is zero the names of a table apart from the parser are not loaded. -/
theorem not_clean_zero (hf : Accepted file) (rounds : Nat) (q : Lookup) :
    ¬ Clean (constructAndAsk (largeBlock 0x40000000) (largeBlock 0x60000000) noFree
      (apartFrom (firstWord file)) 0 file rounds q fun _ => 0) := by
  generalize hthis : apartFrom (firstWord file) = this
  have hplace : this = 0xC0000000 ∧ firstWord file < 0x80000000 ∨
      this = 0x10000000 ∧ 0x80000000 ≤ firstWord file := by
    unfold apartFrom at hthis
    split at hthis <;> omega
  have hA : Allocators (largeBlock 0x40000000) (largeBlock 0x60000000) noFree this :=
    largeBlock_allocators (by omega) (by omega)
  have hn : tableSize file ≤ 40 * 65535 := by
    have := read16_lt file.bytes (0 + 48)
    unfold tableSize shnum sectionSize
    omega
  have ha : largeBlock 0x40000000 (tableSize file) (withHeader this 0 file fun _ => 0) =
      .ok (0x40000000, withHeader this 0 file fun _ => 0) := if_pos (by omega)
  by_cases hbad : shnum file.bytes 0 ≤ shstringIndex file.bytes 0 ∨ firstWord file = 0
  · exact not_clean_usual hA hf hbad ⟨_, ha⟩
  rw [not_or, Nat.not_le] at hbad
  have h1 := prepare_returns hA.inside hA.kernel hf ha
  obtain ⟨hb, -, -⟩ := prepare_ok hA.inside hf.header hA.kernel h1
  have h2 := readTable_ok hf hb
  generalize hm2 : fill (write32 _ _ _) _ _ _ = m2 at h2
  obtain ⟨hb2, hw⟩ := table_placed hA.inside hb hm2.symm
  obtain ⟨-, -, hnum, hx⟩ := header_fields hb2
  intro hc
  have hs := (clean_constructAndAsk.1 hc _ _ _ h1 h2).1
  -- the string table's header, and all else outside the parser and the table behind it, is zero
  have hzero : ∀ a, a < this ∨ this + 0x300000 ≤ a → chooseTables this m2 a = 0 := fun a ha => by
    rw [chooseTables_off m2 a (by unfold Parser.symbolTable Parser.globalOffsetTable; omega), ← hm2,
      fill_outside fun i hi => by unfold Parser.sectionHeaders add32; omega,
      write32_outside (by unfold Parser.sectionHeaders; omega), withHeader,
      fill_outside fun i hi => by unfold headerSize at hi; unfold Parser.header add32; omega]
    unfold initMembers Parser.filename Parser.sectionHeaders Parser.symbolTable Parser.stringTable
      Parser.globalOffsetTable Parser.relocationTable
    repeat rw [write32_outside (by omega)]
  have hS : read32 (chooseTables this m2) (Parser.stringTable this) =
      add32 (firstWord file) (sectionSize * shstringIndex file.bytes 0) := by
    rw [chooseTables_stringTable, sectionHeader, hw (by omega), hx]
  have hidx : shstringIndex file.bytes 0 < 65536 := read16_lt _ _
  have hword : ∀ c ≤ 20, read32 (chooseTables this m2)
      (add32 (add32 (firstWord file) (sectionSize * shstringIndex file.bytes 0)) c) = 0 := fun c hc => by
    have h0 : ∀ k, k < 4 → chooseTables this m2
        (add32 (add32 (firstWord file) (sectionSize * shstringIndex file.bytes 0)) c + k) =
          (fun _ => 0 : Mem) (0 + k) := fun k hk => hzero _ (by
      have h1 := add32_cases (firstWord_lt file) (b := sectionSize * shstringIndex file.bytes 0)
        (by unfold sectionSize; omega)
      have h2 := add32_cases (add32_lt (firstWord file) (sectionSize * shstringIndex file.bytes 0))
        (b := c) (by omega)
      have hlt := firstWord_lt file
      unfold sectionSize at h1 h2 ⊢
      omega)
    exact (read32_shift (m := fun _ => 0) (b := 0) h0).trans rfl
  have hsize : size (chooseTables this m2) (read32 (chooseTables this m2) (Parser.stringTable this)) = 0 := by
    rw [hS]
    exact hword 20 (Nat.le_refl _)
  have hoffset : offset (chooseTables this m2) (read32 (chooseTables this m2) (Parser.stringTable this)) =
      0 := by
    rw [hS]
    exact hword 16 (by decide)
  obtain ⟨-, hload⟩ := hs.names 0x60000000 (chooseTables this m2) (by rw [hsize]; rfl)
  have hnames := hload 0 (chooseTables this m2) (by rw [hsize, hoffset]; rfl)
  have hnum' : shnum (chooseTables this m2) (Parser.header this) = shnum m2 (Parser.header this) :=
    read16_shift fun k hk => chooseTables_off m2 _ (.inl (by
      unfold Parser.header Parser.symbolTable
      omega))
  exact absurd (hnames 0 _ (by omega) rfl).2 (Nat.not_lt_zero _)

/-- **The constructor takes every file that passes its assertions at its word**: the files that are
never misread are those that fail one. In every memory a file is misread whose string table is none of
its sections, or whose section table starts with a zero word. -/
theorem misread_iff (file : File) : (NeverMisread file ↔ ¬ Accepted file) ∧
    (Accepted file → shnum file.bytes 0 ≤ shstringIndex file.bytes 0 ∨ firstWord file = 0 →
      ∀ kalloc ualloc ufree this, Allocators kalloc ualloc ufree this → ∀ filename rounds q m,
        (∃ r, kalloc (tableSize file) (withHeader this filename file m) = .ok r) →
        ¬ Clean (constructAndAsk kalloc ualloc ufree this filename file rounds q m)) := by
  refine ⟨⟨fun h hf => ?_, fun hf kalloc ualloc ufree this hA filename rounds q m => ?_⟩,
    fun hf hbad _ _ _ _ hA _ _ _ _ ha => not_clean_usual hA hf hbad ha⟩
  · refine not_clean_zero hf 0 (.symbolAddress 0) (h _ _ _ _ ?_ _ _ _ _)
    refine largeBlock_allocators ?_ ?_
    · unfold apartFrom
      split <;> decide
    · unfold apartFrom
      split <;> decide
  · refine clean_constructAndAsk.2 fun p m1 m2 h1 h2 => ?_
    exact absurd (accepted_of_reads hA.inside hA.kernel h1 h2) hf

/-! ## Two files -/

/-- A file of one section whose header starts with 0x2000; the names are in section `index`. -/
def namesIn (index : UInt8) : File where
  size := 92
  bytes i := if i = 32 then 52 else if i = 46 then 40 else if i = 48 then 1 else if i = 50 then index
    else if i = 53 then 0x20 else 0

/-- Memory that is zero but for a symbol table of one byte at 0x2000. -/
def symtabAt2000 (a : Nat) : UInt8 := if a = 0x2004 then 2 else if a = 0x2014 then 1 else 0

example : constructAndAsk (largeBlock 0x40000000) (largeBlock 0x60000000) noFree 0x1000 0 (namesIn 0) 1
    (.symbolAddress 0x4000) symtabAt2000 = .ok () := by
  decide +kernel

/-- **A file that keeps its names in section 5 of one is read on.** -/
theorem stray_index_used : ¬ ∀ file, NeverMisread file := by
  intro h
  have hstray : constructAndAsk (largeBlock 0x40000000) (largeBlock 0x60000000) noFree 0x1000 0 (namesIn 5)
      1 (.symbolAddress 0x4000) symtabAt2000 = .error (.failed (.index 5)) := by
    decide +kernel
  exact h _ _ _ _ _ (largeBlock_allocators (by decide) (by decide)) _ _ _ _ _ hstray

end ElfFile

end Dmanix
