import Dmanix.Bitset
import Dmanix.Lib.Bytes

/-!
# Pages, tables and frames (`src/memory/paging.cc`)

Tables and directories are objects at addresses: `Paging.tables t` is the `Table` at address `t`,
`Paging.directories d` the `Directory` at address `d`. A `Page*` is a table address with an entry
number. `phys` is the physical memory the frames number.

`AllocFrame` and `FreeFrame` act on one page and on the frame bit set; `getPage` is `GetPage` for
a page whose table exists (with a table to make it is `Halt.reentry`: the callers of this module
hold the allocator; `Kernel.getPage` makes the table).
-/

namespace Dmanix

/-- `struct Page`; its 7 unused bits are left out. -/
structure Page where
  present : Bool
  rw : Bool
  user : Bool
  accessed : Bool
  dirty : Bool
  frame : Nat
  deriving DecidableEq, Repr

/-- A zeroed page entry (`Table::Table`). -/
def Page.zero : Page := ⟨false, false, false, false, false, 0⟩

/-- An entry with a frame is present. -/
def Page.Sound (v : Page) : Prop := v.frame ≠ 0 → v.present = true

/-- A `Page*`: an entry of the table at an address. -/
structure PagePtr where
  table : Nat
  entry : Nat
  deriving DecidableEq, Repr

/-- `struct Directory`; a table pointer is an address, `0` for `NULL`. -/
structure Directory where
  tables : Nat → Nat
  physical : Nat → Nat
  physicalAddress : Nat

/-- The globals of `paging.cc` and the objects they reach. -/
structure Paging where
  frames : Bitset
  tables : Nat → Nat → Page
  directories : Nat → Directory
  kernelDirectory : Nat
  currentDirectory : Nat
  phys : Bytes.Mem

namespace Paging

/-- `*page` -/
def page (P : Paging) (q : PagePtr) : Page := P.tables q.table q.entry

/-- `*page = v` -/
def setPage (P : Paging) (q : PagePtr) (v : Page) : Paging :=
  { P with tables := fun t e => if t = q.table ∧ e = q.entry then v else P.tables t e }

/-- `AllocFrame(page, is_kernel, is_writeable)`; the frame field has 20 bits. -/
def allocFrame (P : Paging) (q : PagePtr) (isKernel isWriteable : Bool) : Except Halt Paging :=
  -- Check if already allocated
  if (P.page q).frame ≠ 0 then .ok P
  else
    match P.frames.next with
    | none => .error (.panic "index != bitset::NOT_FOUND")
    | some index => do
      let frames ← P.frames.set index
      return { P with frames := frames }.setPage q
        { P.page q with
          present := true, rw := isWriteable, user := !isKernel, frame := index % 0x100000 }

/-- `FreeFrame(page)` -/
def freeFrame (P : Paging) (q : PagePtr) : Except Halt Paging := do
  let frame := (P.page q).frame
  -- Check if it's already free
  if frame = 0 then return P
  let frames ← P.frames.clear (frame / 0x1000)  -- ADDR_TO_FRAME of the frame number
  return { P with frames := frames }.setPage q { P.page q with frame := 0 }

/-- `GetPage(address, make)` on the directory at `dir`, where no table is made. -/
def getPage (P : Paging) (dir address : Nat) (make : Bool) : Except Halt PagePtr :=
  let address := address / 0x1000
  let table := (P.directories dir).tables (address / 1024)
  if table = 0 then
    if make then .error .reentry else .error (.panic "tables[table_index] != NULL")
  else .ok ⟨table, address % 1024⟩

/-! ## Pages -/

@[simp] theorem page_setPage_self (P : Paging) (q : PagePtr) (v : Page) :
    (P.setPage q v).page q = v := by
  simp [page, setPage]

theorem page_setPage_ne {P : Paging} {q r : PagePtr} (v : Page) (h : r ≠ q) :
    (P.setPage q v).page r = P.page r := by
  unfold page setPage
  refine if_neg fun hr => h ?_
  cases r; cases q; simp_all

@[simp] theorem frames_setPage (P : Paging) (q : PagePtr) (v : Page) :
    (P.setPage q v).frames = P.frames := rfl

@[simp] theorem directories_setPage (P : Paging) (q : PagePtr) (v : Page) :
    (P.setPage q v).directories = P.directories := rfl

@[simp] theorem kernelDirectory_setPage (P : Paging) (q : PagePtr) (v : Page) :
    (P.setPage q v).kernelDirectory = P.kernelDirectory := rfl

@[simp] theorem currentDirectory_setPage (P : Paging) (q : PagePtr) (v : Page) :
    (P.setPage q v).currentDirectory = P.currentDirectory := rfl

@[simp] theorem page_frames (P : Paging) (b : Bitset) (q : PagePtr) :
    ({ P with frames := b } : Paging).page q = P.page q := rfl

/-! ## What the frame functions do -/

/-- **`AllocFrame`**: nothing for a page with a frame; else the least free frame, if any, becomes
used and the page's. -/
theorem allocFrame_cases {P P' : Paging} {q : PagePtr} {k w : Bool}
    (h : P.allocFrame q k w = .ok P') :
    ((P.page q).frame ≠ 0 ∧ P' = P) ∨
    ((P.page q).frame = 0 ∧ ∃ f b, P.frames.next = some f ∧ P.frames.set f = .ok b ∧
      P' = { P with frames := b }.setPage q
        { P.page q with present := true, rw := w, user := !k, frame := f % 0x100000 }) := by
  unfold allocFrame at h
  split at h
  · exact .inl ⟨‹_›, by cases h; rfl⟩
  · rename_i h0
    rw [ne_eq, not_not] at h0
    split at h
    · cases h
    · rename_i f hf
      obtain ⟨b, hb, h⟩ := bind_ok.1 h
      cases h
      exact .inr ⟨h0, f, b, hf, hb, rfl⟩

/-- **`FreeFrame`**: nothing for a page without a frame; else the page loses it and the bit of
the frame number divided by 4096 is cleared. -/
theorem freeFrame_cases {P P' : Paging} {q : PagePtr} (h : P.freeFrame q = .ok P') :
    ((P.page q).frame = 0 ∧ P' = P) ∨
    ((P.page q).frame ≠ 0 ∧ ∃ b, P.frames.clear ((P.page q).frame / 4096) = .ok b ∧
      P' = { P with frames := b }.setPage q { P.page q with frame := 0 }) := by
  unfold freeFrame at h
  by_cases h0 : (P.page q).frame = 0
  · rw [if_pos h0] at h
    exact .inl ⟨h0, by cases h; rfl⟩
  · rw [if_neg h0] at h
    obtain ⟨b, hb, h⟩ := bind_ok.1 h
    cases h
    exact .inr ⟨h0, b, hb, rfl⟩

theorem allocFrame_page {P P' : Paging} {q r : PagePtr} {k w : Bool}
    (h : P.allocFrame q k w = .ok P') (hr : r ≠ q) : P'.page r = P.page r := by
  rcases allocFrame_cases h with ⟨-, rfl⟩ | ⟨-, f, b, -, -, rfl⟩
  · rfl
  · rw [page_setPage_ne _ hr]
    rfl

theorem freeFrame_page {P P' : Paging} {q r : PagePtr} (h : P.freeFrame q = .ok P')
    (hr : r ≠ q) : P'.page r = P.page r := by
  rcases freeFrame_cases h with ⟨-, rfl⟩ | ⟨-, b, -, rfl⟩
  · rfl
  · rw [page_setPage_ne _ hr]
    rfl

/-- A page without a frame gets one whose bit was clear. -/
theorem allocFrame_gives {P P' : Paging} {q : PagePtr} {k w : Bool}
    (h : P.allocFrame q k w = .ok P') (h0 : (P.page q).frame = 0) :
    ∃ f, P.frames.next = some f ∧ f < 32 * P.frames.size ∧ P.frames.bit f = false ∧
      P'.frames.size = P.frames.size ∧ (∀ i, P'.frames.bit i = (i == f || P.frames.bit i)) ∧
      P'.page q = { P.page q with present := true, rw := w, user := !k, frame := f % 0x100000 } := by
  rcases allocFrame_cases h with ⟨hne, -⟩ | ⟨-, f, b, hn, hb, rfl⟩
  · exact absurd h0 hne
  · obtain ⟨hlt, hclear, -⟩ := Bitset.next_some hn
    obtain ⟨b', hb', hsz, hbit⟩ := Bitset.set_ok (b := P.frames) (f := f) (by omega)
    cases hb.symm.trans hb'
    exact ⟨f, hn, hlt, hclear, hsz, hbit, page_setPage_self _ _ _⟩

/-- `AllocFrame` succeeds while a frame is free. -/
theorem allocFrame_ok {P : Paging} {q : PagePtr} {k w : Bool} (h : 0 < P.frames.clearBits) :
    ∃ P', P.allocFrame q k w = .ok P' := by
  unfold allocFrame
  split
  · exact ⟨P, rfl⟩
  · obtain ⟨f, hf⟩ := Bitset.next_isSome h
    obtain ⟨b, hb, -⟩ := Bitset.set_ok (b := P.frames) (f := f)
      (by have := (Bitset.next_some hf).1; omega)
    rw [hf]
    simp only [hb, bind, Except.bind]
    exact ⟨_, rfl⟩

end Paging

end Dmanix
