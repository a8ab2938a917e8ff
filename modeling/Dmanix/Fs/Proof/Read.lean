import Dmanix.Fs.Proof.RoundTrip

/-!
# What `Read` reads

`readable` is the number of bytes a file has for a read. `Read` clamps the size when the 32-bit sum
`offset + size` is past the end, so it reads those bytes and no others exactly when the sum does
not wrap, or the offset is past the end already (`readsExactly_iff`), and then reads in pieces are the
read of the whole (`read_exact_iff`). The files of a built and mounted image are `MountedFile`s
(`Rebased.mountedFile`).
-/

namespace Dmanix

open Bytes Word32

namespace Initrd

/-- `file_headers[node->inode].size` -/
def fileSize (s : Mounted) (node : Node) : Nat :=
  read32 s.memory (fileHeaders s.location node.inode)

/-- `file_headers[node->inode].offset`, which the mount made an address -/
def fileStart (s : Mounted) (node : Node) : Nat :=
  read32 s.memory (fileHeaders s.location node.inode + 4)

/-- The contents of the file lie in memory. -/
structure MountedFile (s : Mounted) (node : Node) : Prop where
  start : 0 < fileStart s node
  top : fileStart s node + fileSize s node < 4294967296

/-- The bytes a file of `length` bytes has for a read of `size` bytes at `offset`. -/
def readable (length offset size : Nat) : Nat := min size (length - offset)

/-- `n` bytes from `buffer` on are memory, and none of the file's header or contents. -/
structure BufferOk (s : Mounted) (node : Node) (buffer n : Nat) : Prop where
  start : 0 < buffer
  top : buffer + n < 4294967296
  apart : buffer + n ≤ fileStart s node ∨ fileStart s node + fileSize s node ≤ buffer
  header : buffer + n ≤ fileHeaders s.location node.inode ∨
    fileHeaders s.location node.inode + 8 ≤ buffer

/-- `t` is `s` after `n` bytes of the file, from `offset` on, were copied to `buffer`. -/
structure Copied (s t : Mounted) (node : Node) (offset n buffer : Nat) : Prop where
  location : t.location = s.location
  nodes : t.nodes = s.nodes
  bytes : ∀ k, k < n → t.memory (buffer + k) = s.memory (fileStart s node + offset + k)
  other : Off buffer (buffer + n) s.memory t.memory

/-- `Read` returns the number of bytes there are, copies these, and touches no other byte. -/
def ReadsExactly (s : Mounted) (node : Node) (offset size buffer : Nat) : Prop :=
  ∃ t, read s node offset size buffer = .ok (readable (fileSize s node) offset size, t) ∧
    Copied s t node offset (readable (fileSize s node) offset size) buffer

section
variable {s : Mounted} {node : Node} {offset size buffer : Nat}

theorem readable_past {length : Nat} (h : length ≤ offset) : readable length offset size = 0 := by
  unfold readable
  omega

/-! ## One read -/

theorem read_past (h : fileSize s node < offset) : read s node offset size buffer = .ok (0, s) := by
  unfold read
  exact if_pos h

theorem read_within (hf : MountedFile s node) (h : offset ≤ fileSize s node) (hb : 0 < buffer) :
    read s node offset size buffer =
      .ok (if add32 offset size > fileSize s node then fileSize s node - offset else size,
        { s with
          memory := copy s.memory buffer (fileStart s node + offset)
            (if add32 offset size > fileSize s node then fileSize s node - offset else size) }) := by
  have htop := hf.top
  have hstart := hf.start
  have hsrc : add32 (fileStart s node) offset = fileStart s node + offset := add32_eq (by omega)
  unfold read
  dsimp only
  rw [if_neg (show ¬ offset > read32 s.memory (fileHeaders s.location node.inode) from
    Nat.not_lt.2 h)]
  have hpos : fileStart s node + offset ≠ 0 := by omega
  rw [show read32 s.memory (fileHeaders s.location node.inode + 4) = fileStart s node from rfl,
    hsrc, decide_eq_true (show buffer ≠ 0 by omega), assert_true, ok_bind, decide_eq_true hpos,
    assert_true, ok_bind]
  rfl

theorem copied_copy {n : Nat} (hf : MountedFile s node) (hb : BufferOk s node buffer n)
    (hn : offset + n ≤ fileSize s node) :
    Copied s { s with memory := copy s.memory buffer (fileStart s node + offset) n } node offset n
      buffer := by
  have htop := hf.top
  have hbtop := hb.top
  have hsep : ∀ i j, i < n → j < n →
      add32 (fileStart s node + offset) i ≠ add32 buffer j := by
    intro i j hi hj
    have := hb.apart
    rw [add32_eq (by omega), add32_eq (by omega)]
    omega
  have hcopy := copy_eq_fill (m := s.memory) hsep
  refine ⟨rfl, rfl, fun k hk => ?_, fun a ha => ?_⟩
  · show copy s.memory buffer (fileStart s node + offset) n (buffer + k) = _
    have hin := fill_inside (m := s.memory) (d := buffer) (n := n)
      (f := fun i => s.memory (add32 (fileStart s node + offset) i)) (by omega) hk
    rw [add32_eq (by omega)] at hin
    rw [hcopy, hin]
    exact congrArg s.memory (add32_eq (by omega))
  · show copy s.memory buffer (fileStart s node + offset) n a = _
    rw [hcopy]
    refine fill_outside fun i hi => ?_
    rw [add32_eq (by omega)]
    omega

theorem read_eq (hf : MountedFile s node) (h : offset ≤ fileSize s node) (hb : 0 < buffer)
    (hsum : offset + size < 4294967296) : read s node offset size buffer =
      .ok (readable (fileSize s node) offset size,
        { s with
          memory := copy s.memory buffer (fileStart s node + offset)
            (readable (fileSize s node) offset size) }) := by
  have hclamp : (if add32 offset size > fileSize s node then fileSize s node - offset else size) =
      readable (fileSize s node) offset size := by
    rw [add32_eq hsum]
    unfold readable
    split <;> omega
  rw [read_within hf h hb, hclamp]

theorem readsExactly_past (h : fileSize s node < offset) :
    ReadsExactly s node offset size buffer := by
  refine ⟨s, ?_, rfl, rfl, fun k hk => ?_, .refl _ _ _⟩
  · rw [read_past h, readable_past (Nat.le_of_lt h)]
  · rw [readable_past (Nat.le_of_lt h)] at hk
    exact absurd hk (Nat.not_lt_zero k)

/-- **What `Read` reads** is what there is exactly when the 32-bit sum does not wrap, or the offset is
past the end. -/
theorem readsExactly_iff (hf : MountedFile s node) (hsize : size < 4294967296)
    (hb : BufferOk s node buffer (readable (fileSize s node) offset size)) :
    ReadsExactly s node offset size buffer ↔
      fileSize s node < offset ∨ offset + size < 4294967296 := by
  constructor
  · rintro ⟨t, ht, -⟩
    by_contra hcon
    rw [not_or, Nat.not_lt, Nat.not_lt] at hcon
    obtain ⟨h, hsum⟩ := hcon
    have htop := hf.top
    -- the wrapped sum is below the offset, so the size is not clamped
    have hwrap : ¬ add32 offset size > fileSize s node := by
      unfold add32
      omega
    rw [read_within hf h hb.start, if_neg hwrap] at ht
    have hret : size = readable (fileSize s node) offset size := (Prod.mk.inj (Except.ok.inj ht)).1
    unfold readable at hret
    omega
  · intro hcond
    rcases Nat.lt_or_ge (fileSize s node) offset with h | h
    · exact readsExactly_past h
    · have hsum := hcond.resolve_left (Nat.not_lt.2 h)
      refine ⟨_, read_eq hf h hb.start hsum, copied_copy hf hb ?_⟩
      unfold readable
      omega

/-! ## Reads in pieces -/

/-- Reads of the given sizes one after the other, each behind the last in the file and in the buffer:
the number of bytes read in all. -/
def readPieces (node : Node) : List Nat → Mounted → Nat → Nat → Except Halt (Nat × Mounted)
  | [], s, _, _ => return (0, s)
  | size :: sizes, s, offset, buffer => do
    let (n, s) ← read s node offset size buffer
    let (k, s) ← readPieces node sizes s (add32 offset n) (add32 buffer n)
    return (n + k, s)

theorem Copied.file {t : Mounted} {n : Nat} (h : Copied s t node offset n buffer)
    (hb : BufferOk s node buffer n) :
    fileSize t node = fileSize s node ∧ fileStart t node = fileStart s node := by
  have hhead := hb.header
  have ho := h.other
  unfold fileSize fileStart
  rw [h.location]
  exact ⟨ho.read32 (by omega), ho.read32 (by omega)⟩

theorem readPieces_past (h : fileSize s node < offset) (ho : offset < 4294967296)
    (hb : buffer < 4294967296) : ∀ sizes, readPieces node sizes s offset buffer = .ok (0, s)
  | [] => rfl
  | size :: sizes => by
    rw [readPieces, read_past h, ok_bind]
    dsimp only
    rw [add32_eq (show offset + 0 < 4294967296 from ho), add32_eq (show buffer + 0 < 4294967296 from hb)]
    exact congrArg (· >>= _) (readPieces_past h ho hb sizes)

theorem readPieces_eq : ∀ {sizes : List Nat} {s : Mounted} {offset buffer : Nat},
    MountedFile s node → offset + sizes.sum < 4294967296 →
    BufferOk s node buffer (readable (fileSize s node) offset sizes.sum) →
      readPieces node sizes s offset buffer = read s node offset sizes.sum buffer
  | [], s, offset, buffer, hf, hsum, hb => by
    rcases Nat.lt_or_ge (fileSize s node) offset with h | h
    · rw [read_past h]
      rfl
    · have h0 : readable (fileSize s node) offset [].sum = 0 := Nat.zero_min _
      rw [read_eq hf h hb.start hsum, h0]
      rfl
  | size :: sizes, s, offset, buffer, hf, hsum, hb => by
    rw [List.sum_cons] at hsum hb ⊢
    have hbs := hb.start
    have hbt := hb.top
    rcases Nat.lt_or_ge (fileSize s node) offset with h | h
    · rw [readPieces_past h (by omega) (by omega), read_past h]
    · have hba := hb.apart
      have hbh := hb.header
      -- the bytes of the first piece, and of the others
      obtain ⟨n, hn⟩ : ∃ n, n = readable (fileSize s node) offset size := ⟨_, rfl⟩
      obtain ⟨k, hk⟩ : ∃ k, k = readable (fileSize s node) (offset + n) sizes.sum := ⟨_, rfl⟩
      have hnk : readable (fileSize s node) offset (size + sizes.sum) = n + k := by
        rw [hk, hn]
        unfold readable
        omega
      have hle : offset + n ≤ fileSize s node ∧ n ≤ size := by
        rw [hn]
        unfold readable
        omega
      rw [hnk] at hbt hba hbh
      have hbn : BufferOk s node buffer n := ⟨hbs, by omega, by omega, by omega⟩
      have hcopied := copied_copy hf hbn hle.1
      have hread := @read_eq s node offset size buffer hf h hbs (by omega)
      rw [← hn] at hread
      generalize ht : ({ s with memory := copy s.memory buffer (fileStart s node + offset) n } :
        Mounted) = t at hcopied hread
      obtain ⟨hsize, hstart⟩ := hcopied.file hbn
      have hft : MountedFile t node := ⟨by rw [hstart]; exact hf.start, by
        rw [hsize, hstart]
        exact hf.top⟩
      have hrest : readPieces node sizes t (offset + n) (buffer + n) =
          read t node (offset + n) sizes.sum (buffer + n) := by
        refine readPieces_eq hft (by omega) ?_
        rw [hsize, ← hk]
        exact ⟨by omega, by omega, by rw [hsize, hstart]; omega, by rw [hcopied.location]; omega⟩
      rw [readPieces, hread, ok_bind]
      dsimp only
      rw [add32_eq (show offset + n < 4294967296 by omega),
        add32_eq (show buffer + n < 4294967296 by omega), hrest,
        read_eq hft (by rw [hsize]; exact hle.1) (by omega) (by omega),
        read_eq hf h hbs hsum, ok_bind, hnk, hsize, hstart, ← hk]
      have hstop := hf.top
      have hcopy : copy t.memory (buffer + n) (fileStart s node + (offset + n)) k =
          copy s.memory buffer (fileStart s node + offset) (n + k) := by
        rw [copy_add, add32_eq (show buffer + n < 4294967296 by omega),
          add32_eq (show fileStart s node + offset + n < 4294967296 by omega), ← Nat.add_assoc, ← ht]
      rw [hcopy, ← ht]
      rfl

/-- **What `Read` reads**, at once or in pieces of any sizes, is what there is exactly when the 32-bit
sum of offset and size does not wrap, or the offset is past the end. -/
theorem read_exact_iff (hf : MountedFile s node) (hoffset : offset < 4294967296)
    (hsize : size < 4294967296)
    (hb : BufferOk s node buffer (readable (fileSize s node) offset size)) :
    (ReadsExactly s node offset size buffer ∧ ∀ sizes : List Nat, sizes.sum = size →
      readPieces node sizes s offset buffer = read s node offset size buffer) ↔
        fileSize s node < offset ∨ offset + size < 4294967296 := by
  constructor
  · rintro ⟨h, -⟩
    exact (readsExactly_iff hf hsize hb).1 h
  · intro hcond
    refine ⟨(readsExactly_iff hf hsize hb).2 hcond, fun sizes hs => ?_⟩
    subst hs
    rcases Nat.lt_or_ge (fileSize s node) offset with h | h
    · have hbtop := hb.top
      rw [readPieces_past h hoffset (by omega), read_past h]
    · exact readPieces_eq hf (hcond.resolve_left (Nat.not_lt.2 h)) hb

end

/-! ## The files of a mounted image -/

theorem Rebased.mountedFile {files : List InputFile} {file : InputFile} {m0 : Mem} {s : Mounted}
    {node : Node} (h : Rebased files s.location files.length m0 s.memory)
    (hi : files[node.inode]? = some file) (h0 : Holds m0 s.location (build files))
    (htop : s.location + (build files).length < 4294967296) :
    MountedFile s node ∧ fileSize s node = file.contents.length := by
  have hlen := length_build files
  have hle := contentStart_le hi
  have hsize : fileSize s node = file.contents.length := by
    unfold fileSize
    rw [h.fields.2.2.1, (holds_fields h0 hi).1, Nat.mod_eq_of_lt (by omega)]
  have hstart : fileStart s node = contentAt files s.location node.inode :=
    h.offset _ (List.getElem?_eq_some_iff.1 hi).1
  refine ⟨⟨?_, ?_⟩, hsize⟩
  · rw [hstart]
    unfold contentAt headerSize
    omega
  · rw [hstart, hsize]
    unfold contentAt
    omega

theorem mount_files {kalloc : Nat → Except Halt Nat} {p q location : Nat} {files : List InputFile}
    {m : Mem} (hk : kalloc nodeSize = .ok p)
    (hk' : kalloc (nodeSize * files.length % 4294967296) = .ok q) (h0 : Holds m location (build files))
    (htop : location + (build files).length < 4294967296)
    (hshort : ∀ f ∈ files, f.name.1.length < nameSize) :
    ∃ s, mount kalloc location m = .ok s ∧ s.location = location ∧ ∀ i f, files[i]? = some f →
      s.nodes[i]? = some (nodeOf f i) ∧ MountedFile s (nodeOf f i) ∧
        fileSize s (nodeOf f i) = f.contents.length ∧
        fileStart s (nodeOf f i) = contentAt files location i := by
  have hstart : Rebased files location 0 m m :=
    ⟨fun _ _ => rfl, fun j hj => absurd hj (Nat.not_lt_zero j)⟩
  obtain ⟨m', nodes, hl, hr, -, hnodes⟩ :=
    mountLoop_short h0 htop hshort (Nat.zero_add files.length) hstart
  refine ⟨⟨m', location, nodes⟩, (mount_ok hk hk' h0 htop).2 ⟨m', nodes, hl, rfl⟩, rfl,
    fun i f hi => ?_⟩
  have hnode := hnodes i f (by rw [Nat.zero_add, hi])
  rw [Nat.zero_add] at hnode
  obtain ⟨hf, hsize⟩ := @Rebased.mountedFile files f m ⟨m', location, nodes⟩ (nodeOf f i) hr hi
    h0 htop
  exact ⟨hnode, hf, hsize, hr.offset i (List.getElem?_eq_some_iff.1 hi).1⟩

/-- The mounted image of the file "a", whose one byte lies at `0x1050`. -/
theorem mount_shortFile : ∃ s,
    mount (fun _ => .ok 0x2000) 0x1000 (load (build [shortFile]) 0x1000) = .ok s ∧
      s.nodes[0]? = some (nodeOf shortFile 0) ∧ MountedFile s (nodeOf shortFile 0) ∧
      fileSize s (nodeOf shortFile 0) = 1 ∧
      ∀ n, n ≤ 4096 → BufferOk s (nodeOf shortFile 0) 0x3000 n := by
  obtain ⟨s, hs, hloc, hfiles⟩ := @mount_files (fun _ => .ok 0x2000) 0x2000 0x2000 0x1000
    [shortFile] _ rfl rfl (holds_load (build [shortFile]) 0x1000) (by decide) (by decide)
  obtain ⟨hnode, hf, hsize, hstart⟩ := hfiles 0 shortFile rfl
  refine ⟨s, hs, hnode, hf, hsize, fun n hn => ⟨by decide, by omega, .inr ?_, .inr ?_⟩⟩
  · rw [hsize, hstart]
    decide
  · rw [hloc]
    decide

/-- The last of three files, from its second byte on, with more asked for than there is: at once and in
pieces. -/
theorem read_exact_three : ∃ s,
    mount (fun _ => .ok 0x2000) 0x1000 (load (build threeFiles) 0x1000) = .ok s ∧
      ReadsExactly s (nodeOf initFile 2) 1 5 0x3000 ∧
      readPieces (nodeOf initFile 2) [1, 4] s 1 0x3000 = read s (nodeOf initFile 2) 1 5 0x3000 := by
  obtain ⟨s, hs, hloc, hfiles⟩ := @mount_files (fun _ => .ok 0x2000) 0x2000 0x2000 0x1000 threeFiles _
    rfl rfl (holds_load (build threeFiles) 0x1000) threeFiles_below (by decide)
  obtain ⟨-, hf, hsize, hstart⟩ := hfiles 2 initFile rfl
  have hb : BufferOk s (nodeOf initFile 2) 0x3000 (readable (fileSize s (nodeOf initFile 2)) 1 5) := by
    rw [hsize]
    refine ⟨by decide, by decide, .inr ?_, .inr ?_⟩
    · rw [hsize, hstart]
      decide
    · rw [hloc]
      decide
  obtain ⟨h1, h2⟩ := (read_exact_iff hf (by decide) (by decide) hb).2 (.inr (by decide))
  exact ⟨s, hs, h1, h2 [1, 4] rfl⟩

/-- Behind the one byte of the file there is nothing to read, but a read of `2^32 - 1` bytes copies
`2^32 - 1` bytes. -/
theorem read_wraps : ¬ ∀ (s : Mounted) (node : Node) (offset size buffer : Nat),
    MountedFile s node → offset < 4294967296 → size < 4294967296 →
    BufferOk s node buffer (readable (fileSize s node) offset size) →
      ReadsExactly s node offset size buffer := by
  intro h
  obtain ⟨s, -, -, hf, hsize, hb⟩ := mount_shortFile
  have hread := h s (nodeOf shortFile 0) 1 4294967295 0x3000 hf (by decide) (by decide)
    (hb _ (by rw [hsize]; decide))
  have hcond := (readsExactly_iff hf (by decide) (hb _ (by rw [hsize]; decide))).1 hread
  rw [hsize] at hcond
  revert hcond
  decide

end Initrd

end Dmanix
