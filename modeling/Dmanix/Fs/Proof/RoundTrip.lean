import Dmanix.Fs.Initrd

/-!
# What is built can be mounted

`holds_header`, `holds_contents`: where the image has the header and the bytes of a file. The mount
rebases one offset a file and leaves the rest of the image alone (`Rebased`, `Rebased.mountFile`).

A stored name of 64 bytes has no NUL, so copying it runs on behind its field. `round_trip`: mounting
what was built gives back the files just when every name has at most 63 bytes.
-/

namespace Dmanix

open Bytes Word32

namespace Initrd

/-! ## The layout of the image -/

/-- The file headers, the contents of the first file being at `offset`. -/
def headers : Nat → List InputFile → List UInt8
  | _, [] => []
  | offset, file :: files =>
    fileHeader file.name file.contents.length offset ++ headers (offset + file.contents.length) files

/-- The contents one after the other. -/
def contents : List InputFile → List UInt8
  | [] => []
  | file :: files => file.contents ++ contents files

/-- Where the contents of file `i` begin. -/
def contentStart : List InputFile → Nat → Nat
  | [], _ => 0
  | _ :: _, 0 => 0
  | file :: files, i + 1 => file.contents.length + contentStart files i

theorem buildLoop_eq : ∀ (files : List InputFile) (n : Nat) (h c : List UInt8),
    buildLoop files n h c = (n + files.length, h ++ headers c.length files, c ++ contents files)
  | [], n, h, c => by
    rw [buildLoop, headers, contents, List.append_nil, List.append_nil]
    rfl
  | file :: files, n, h, c => by
    rw [buildLoop, buildLoop_eq files, headers, contents, List.length_append, List.append_assoc,
      List.append_assoc, List.length_cons, show n + 1 + files.length = n + (files.length + 1) by omega]

theorem length_strncpy (s : List UInt8) (n : Nat) : (strncpy s n).length = n := by
  rw [strncpy, List.length_append, List.length_take, List.length_replicate]
  omega

theorem length_fileHeader (name : CString) (size offset : Nat) :
    (fileHeader name size offset).length = 72 := by
  rw [fileHeader, List.length_append, length_strncpy]
  rfl

theorem length_headers : ∀ (files : List InputFile) (offset : Nat),
    (headers offset files).length = 72 * files.length
  | [], _ => rfl
  | file :: files, offset => by
    rw [headers, List.length_append, length_fileHeader, length_headers files, List.length_cons]
    omega

theorem contentStart_le : ∀ {files : List InputFile} {i : Nat} {file : InputFile},
    files[i]? = some file → contentStart files i + file.contents.length ≤ (contents files).length
  | _ :: files, 0, _, h => by
    cases h
    rw [contentStart, contents, List.length_append]
    omega
  | _ :: files, i + 1, file, h => by
    have hrest : contentStart files i + file.contents.length ≤ (contents files).length :=
      contentStart_le h
    rw [contentStart, contents, List.length_append]
    omega

theorem build_eq (files : List InputFile) :
    build files = le32 files.length ++ le32 (headerSize + 72 * files.length) ++ headers 0 files ++
      contents files := by
  rw [build, buildLoop_eq, List.nil_append, List.nil_append, Nat.zero_add]
  dsimp only
  rw [length_headers, List.length_nil]

theorem length_build (files : List InputFile) :
    (build files).length = headerSize + 72 * files.length + (contents files).length := by
  rw [build_eq, List.length_append, List.length_append, List.length_append, length_headers]
  rfl

theorem holds_headers : ∀ {files : List InputFile} {m : Mem} {a offset i : Nat} {file : InputFile},
    Holds m a (headers offset files) → files[i]? = some file →
      Holds m (a + 72 * i)
        (fileHeader file.name file.contents.length (offset + contentStart files i))
  | _ :: files, m, a, offset, 0, _, h, hf => by
    cases hf
    exact (holds_append.1 h).1
  | _ :: files, m, a, offset, i + 1, _, h, hf => by
    have := holds_headers (holds_append.1 h).2 hf
    rw [length_fileHeader] at this
    rw [contentStart, ← Nat.add_assoc, show a + 72 * (i + 1) = a + 72 + 72 * i by omega]
    exact this

theorem holds_contentsOf : ∀ {files : List InputFile} {m : Mem} {a i : Nat} {file : InputFile},
    Holds m a (contents files) → files[i]? = some file →
      Holds m (a + contentStart files i) file.contents
  | _ :: files, m, a, 0, _, h, hf => by
    cases hf
    exact (holds_append.1 h).1
  | _ :: files, m, a, i + 1, _, h, hf => by
    rw [contentStart, ← Nat.add_assoc]
    exact holds_contentsOf (holds_append.1 h).2 hf

/-- The address of the contents of file `i` in an image at `location`. -/
def contentAt (files : List InputFile) (location i : Nat) : Nat :=
  location + headerSize + 72 * files.length + contentStart files i

section
variable {files : List InputFile} {location i : Nat} {m m0 m1 : Mem} {file : InputFile}

theorem holds_numFiles (h : Holds m location (build files)) :
    read32 m location = files.length % 4294967296 := by
  rw [build_eq, holds_append, holds_append, holds_append] at h
  exact h.1.1.1.read32

theorem holds_contentOffset (h : Holds m location (build files)) :
    read32 m (location + 4) = (headerSize + 72 * files.length) % 4294967296 := by
  rw [build_eq, holds_append, holds_append, holds_append] at h
  exact h.1.1.2.read32

theorem holds_header (h : Holds m location (build files)) (hf : files[i]? = some file) :
    Holds m (fileHeaders location i)
      (fileHeader file.name file.contents.length (contentStart files i)) := by
  rw [build_eq, holds_append, holds_append] at h
  have := holds_headers h.1.2 hf
  rwa [Nat.zero_add] at this

theorem holds_contents (h : Holds m location (build files)) (hf : files[i]? = some file) :
    Holds m (contentAt files location i) file.contents := by
  rw [build_eq, holds_append] at h
  have := holds_contentsOf h.2 hf
  rw [List.length_append, List.length_append, length_headers] at this
  unfold contentAt headerSize
  rwa [← Nat.add_assoc] at this

/-- The three fields of a file header. -/
theorem holds_fields (h : Holds m location (build files)) (hf : files[i]? = some file) :
    read32 m (fileHeaders location i) = file.contents.length % 4294967296 ∧
      read32 m (fileHeaders location i + 4) = contentStart files i % 4294967296 ∧
      Holds m (fileHeaders location i + 8) (strncpy file.name.1 nameSize) := by
  have hh := holds_header h hf
  rw [fileHeader, holds_append, holds_append] at hh
  exact ⟨hh.1.1.read32, hh.1.2.read32, hh.2⟩

/-! ## Copying a name -/

theorem copyName_ok : ∀ {s : List UInt8} {room a : Nat} (hs : (0 : UInt8) ∉ s),
    Holds m a (s ++ [0]) → s.length < room → copyName m room a = .ok ⟨s, hs⟩
  | [], room + 1, a, _, h, _ => by
    have h0 : m a = 0 := h 0 0 rfl
    rw [copyName, dif_pos h0]
    rfl
  | b :: s, room + 1, a, hs, h, hr => by
    have hb : m a = b := h 0 b rfl
    have hne : m a ≠ 0 := fun he => hs (List.mem_cons.2 (.inl (he.symm.trans hb)))
    have hrest : Holds m (a + 1) (s ++ [0]) := by
      have happ : Holds m a ([b] ++ (s ++ [0])) := h
      exact (holds_append.1 happ).2
    rw [copyName, dif_neg hne, copyName_ok (fun hm => hs (List.mem_cons_of_mem b hm)) hrest
      (Nat.lt_of_succ_lt_succ hr), ok_bind]
    subst hb
    rfl

/-- A copy reads on as long as it meets no NUL. -/
theorem le_of_copyName : ∀ {n room a : Nat} {s : CString}, copyName m room a = .ok s →
    (∀ k, k < n → m (a + k) ≠ 0) → n ≤ s.1.length
  | 0, _, _, s, _, _ => Nat.zero_le s.1.length
  | n + 1, 0, _, _, h, _ => by cases h
  | n + 1, room + 1, a, s, h, hne => by
    have h0 : m a ≠ 0 := hne 0 (Nat.succ_pos n)
    rw [copyName, dif_neg h0] at h
    obtain ⟨s', hs', h⟩ := bind_ok.1 h
    cases h
    have := le_of_copyName hs' fun k hk => by
      rw [Nat.add_assoc, Nat.add_comm 1 k]
      exact hne (k + 1) (Nat.succ_lt_succ hk)
    exact Nat.succ_le_succ this

/-- A short name is stored with its NUL. -/
theorem strncpy_short {s : List UInt8} (h : s.length < nameSize) :
    strncpy s nameSize = s ++ [0] ++ List.replicate (nameSize - s.length - 1) 0 := by
  rw [strncpy, List.take_of_length_le (Nat.le_of_lt h), List.append_assoc]
  congr 1
  obtain ⟨k, hk⟩ : ∃ k, nameSize - s.length = k + 1 := ⟨nameSize - s.length - 1, by omega⟩
  rw [hk, List.replicate_succ, Nat.add_sub_cancel]
  rfl

/-- A long name fills its field. -/
theorem strncpy_long {a : Nat} (h : Holds m a (strncpy file.name.1 nameSize))
    (hl : nameSize ≤ file.name.1.length) : ∀ k, k < nameSize → m (a + k) ≠ 0 := by
  intro k hk
  have hk' : k < file.name.1.length := by omega
  have hget : (strncpy file.name.1 nameSize)[k]? = some file.name.1[k] := by
    rw [strncpy, List.getElem?_append_left (by rw [List.length_take]; omega),
      List.getElem?_take_of_lt hk, List.getElem?_eq_getElem hk']
  rw [h k _ hget]
  intro he
  have hm := List.getElem_mem hk'
  rw [he] at hm
  exact file.name.2 hm

/-! ## Mounting -/

/-- The image `m0` with the offsets of the first `n` files rebased. -/
structure Rebased (files : List InputFile) (location n : Nat) (m0 m : Mem) : Prop where
  other : ∀ a, (∀ j, j < n → a < fileHeaders location j + 4 ∨ fileHeaders location j + 8 ≤ a) →
    m a = m0 a
  offset : ∀ j, j < n → read32 m (fileHeaders location j + 4) = contentAt files location j

/-- The node of file `i`. -/
def nodeOf (file : InputFile) (i : Nat) : Node :=
  { name := file.name, flags := flagFile, inode := i, length := file.contents.length }

/-- What the rebasing leaves alone: the header of the image, the files not yet mounted, and the size
and the name of every file. -/
theorem Rebased.fields {n : Nat} (h : Rebased files location n m0 m) :
    read32 m (location + 4) = read32 m0 (location + 4) ∧
      (n ≤ i → read32 m (fileHeaders location i + 4) = read32 m0 (fileHeaders location i + 4)) ∧
      read32 m (fileHeaders location i) = read32 m0 (fileHeaders location i) ∧
      ∀ bs, bs.length ≤ nameSize → Holds m0 (fileHeaders location i + 8) bs →
        Holds m (fileHeaders location i + 8) bs := by
  have ho := h.other
  unfold fileHeaders headerSize fileHeaderSize at *
  refine ⟨read32_congr fun x hl hh => ho x fun j hj => ?_, fun hi => read32_congr fun x hl hh =>
    ho x fun j hj => ?_, read32_congr fun x hl hh => ho x fun j hj => ?_, fun bs hbs hb =>
    hb.congr fun x hl hh => ho x fun j hj => ?_⟩
  · omega
  · omega
  · omega
  · unfold nameSize at hbs
    omega

theorem mountFile_ok {r : Mem × Node} : mountFile location i m = .ok r ↔
    ∃ name, copyName (write32 m (fileHeaders location i + 4)
        (add32 (read32 m (fileHeaders location i + 4)) (add32 location (read32 m (location + 4)))))
        nodeNameSize (fileHeaders location i + 8) = .ok name ∧
      r.1 = write32 m (fileHeaders location i + 4)
        (add32 (read32 m (fileHeaders location i + 4)) (add32 location (read32 m (location + 4)))) ∧
      r.2 = { name, flags := flagFile, inode := i, length := read32 r.1 (fileHeaders location i) } := by
  unfold mountFile
  constructor
  · intro h
    obtain ⟨name, hn, h⟩ := bind_ok.1 h
    cases h
    exact ⟨name, hn, rfl, rfl⟩
  · rintro ⟨name, hn, h1, h2⟩
    refine bind_ok.2 ⟨name, hn, ?_⟩
    rw [← h1, ← h2]
    rfl

/-- Mounting one more file rebases its offset. -/
theorem Rebased.mountFile (h : Rebased files location i m0 m) (hi : files[i]? = some file)
    (h0 : Holds m0 location (build files)) (htop : location + (build files).length < 4294967296) :
    Rebased files location (i + 1) m0 (write32 m (fileHeaders location i + 4)
      (add32 (read32 m (fileHeaders location i + 4))
        (add32 location (read32 m (location + 4))))) := by
  obtain ⟨hoff, hown, -, -⟩ := h.fields (i := i)
  have hlen := length_build files
  have hle := contentStart_le hi
  rw [hoff, hown (Nat.le_refl i), (holds_fields h0 hi).2.1, holds_contentOffset h0]
  have hval : add32 (contentStart files i % 4294967296)
      (add32 location ((headerSize + 72 * files.length) % 4294967296)) =
        contentAt files location i := by
    unfold contentAt add32
    omega
  rw [hval]
  refine ⟨fun a ha => ?_, fun j hj => ?_⟩
  · have := ha i (Nat.lt_succ_self i)
    rw [write32_outside (by omega)]
    exact h.other a fun j hj => ha j (Nat.lt_succ_of_lt hj)
  · rcases Nat.lt_succ_iff_lt_or_eq.1 hj with hlt | rfl
    · rw [read32_write32_apart (by unfold fileHeaders fileHeaderSize; omega), h.offset j hlt]
    · rw [read32_write32]
      refine Nat.mod_eq_of_lt ?_
      unfold contentAt
      omega

/-- The name of file `i` as the mount finds it. -/
theorem Rebased.name (h : Rebased files location (i + 1) m0 m) (hi : files[i]? = some file)
    (h0 : Holds m0 location (build files)) :
    Holds m (fileHeaders location i + 8) (strncpy file.name.1 nameSize) :=
  h.fields.2.2.2 _ (Nat.le_of_eq (length_strncpy _ _)) (holds_fields h0 hi).2.2

/-- A file with a short name is mounted. -/
theorem mountFile_short (h : Rebased files location i m0 m) (hi : files[i]? = some file)
    (h0 : Holds m0 location (build files)) (htop : location + (build files).length < 4294967296)
    (hshort : file.name.1.length < nameSize) :
    ∃ m1, mountFile location i m = .ok (m1, nodeOf file i) ∧
      Rebased files location (i + 1) m0 m1 := by
  have h1 := h.mountFile hi h0 htop
  obtain ⟨m1, hm1⟩ : ∃ m1, m1 = write32 m (fileHeaders location i + 4)
    (add32 (read32 m (fileHeaders location i + 4)) (add32 location (read32 m (location + 4)))) :=
    ⟨_, rfl⟩
  rw [← hm1] at h1
  have hname := h1.name hi h0
  rw [strncpy_short hshort] at hname
  refine ⟨m1, mountFile_ok.2 ⟨file.name, ?_, hm1, ?_⟩, h1⟩
  · rw [← hm1]
    exact copyName_ok file.name.2 (holds_append.1 hname).1 (Nat.lt_of_lt_of_le hshort (by decide))
  · have hlen := length_build files
    have hle := contentStart_le hi
    dsimp only
    rw [h1.fields.2.2.1, (holds_fields h0 hi).1, Nat.mod_eq_of_lt (by omega)]
    rfl

/-- However a file is mounted, its name is at least as long as what of it is stored without NUL. -/
theorem mountFile_long (h : Rebased files location i m0 m) (hi : files[i]? = some file)
    (h0 : Holds m0 location (build files)) (htop : location + (build files).length < 4294967296)
    {node : Node} (hm : mountFile location i m = .ok (m1, node)) :
    Rebased files location (i + 1) m0 m1 ∧
      (nameSize ≤ file.name.1.length → nameSize ≤ node.name.1.length) := by
  have h1 := h.mountFile hi h0 htop
  obtain ⟨name, hn, hm1, hnode⟩ := mountFile_ok.1 hm
  dsimp only at hm1 hnode
  rw [← hm1] at h1 hn
  refine ⟨h1, fun hl => ?_⟩
  rw [hnode]
  exact le_of_copyName hn (strncpy_long (h1.name hi h0) hl)

theorem mountLoop_short (h0 : Holds m0 location (build files))
    (htop : location + (build files).length < 4294967296)
    (hshort : ∀ f ∈ files, f.name.1.length < nameSize) : ∀ {n i : Nat} {m : Mem},
    i + n = files.length → Rebased files location i m0 m →
      ∃ m' nodes, mountLoop location n i m = .ok (m', nodes) ∧
        Rebased files location files.length m0 m' ∧ nodes.length = n ∧
        ∀ k f, files[i + k]? = some f → nodes[k]? = some (nodeOf f (i + k))
  | 0, i, m, hn, h => by
    obtain rfl : i = files.length := by omega
    refine ⟨m, [], rfl, h, rfl, fun k f hf => ?_⟩
    rw [List.getElem?_eq_none (by omega)] at hf
    cases hf
  | n + 1, i, m, hn, h => by
    obtain ⟨f, hf⟩ : ∃ f, files[i]? = some f := ⟨_, List.getElem?_eq_getElem (by omega)⟩
    obtain ⟨m1, hm1, h1⟩ := mountFile_short h hf h0 htop (hshort f (List.mem_of_getElem? hf))
    obtain ⟨m2, nodes, hm2, h2, hlen, hnodes⟩ :=
      mountLoop_short h0 htop hshort (i := i + 1) (n := n) (by omega) h1
    refine ⟨m2, nodeOf f i :: nodes, ?_, h2, congrArg Nat.succ hlen, fun k g hg => ?_⟩
    · rw [mountLoop, hm1, ok_bind]
      dsimp only
      rw [hm2]
      rfl
    · cases k with
      | zero =>
        rw [Nat.add_zero, hf] at hg
        cases hg
        rfl
      | succ k =>
        rw [show i + (k + 1) = i + 1 + k by omega] at hg ⊢
        exact hnodes k g hg

theorem mountLoop_long (h0 : Holds m0 location (build files))
    (htop : location + (build files).length < 4294967296) : ∀ {n i : Nat} {m m' : Mem}
    {nodes : List Node}, Rebased files location i m0 m → i + n ≤ files.length →
      mountLoop location n i m = .ok (m', nodes) →
      ∀ k f node, files[i + k]? = some f → nodes[k]? = some node →
        nameSize ≤ f.name.1.length → nameSize ≤ node.name.1.length
  | 0, _, _, _, _, _, _, hm, k, _, _, _, hnode, _ => by
    cases hm
    cases hnode
  | n + 1, i, m, m', nodes, h, hn, hm, k, f, node, hf, hnode, hl => by
    obtain ⟨⟨m1, node1⟩, hm1, hm⟩ := bind_ok.1 hm
    obtain ⟨⟨m2, rest⟩, hm2, hm⟩ := bind_ok.1 hm
    cases hm
    obtain ⟨g, hg⟩ : ∃ g, files[i]? = some g := ⟨_, List.getElem?_eq_getElem (by omega)⟩
    obtain ⟨h1, hname⟩ := mountFile_long h hg h0 htop hm1
    cases k with
    | zero =>
      rw [Nat.add_zero, hg] at hf
      cases hf
      cases hnode
      exact hname hl
    | succ k =>
      rw [show i + (k + 1) = i + 1 + k by omega] at hf
      exact mountLoop_long h0 htop h1 (by omega) hm2 k f node hf hnode hl

/-! ## Reading -/

/-- Reading a file of the mounted image from its start gives its bytes. -/
theorem read_all {s : Mounted} {node : Node} {buffer : Nat}
    (h : Rebased files s.location files.length m0 s.memory) (hi : files[node.inode]? = some file)
    (h0 : Holds m0 s.location (build files))
    (htop : s.location + (build files).length < 4294967296) (hb : buffer ≠ 0)
    (hfit : buffer + file.contents.length ≤ 4294967296)
    (hapart : buffer + file.contents.length ≤ s.location ∨
      s.location + (build files).length ≤ buffer) :
    ∃ s', read s node 0 file.contents.length buffer = .ok (file.contents.length, s') ∧
      Holds s'.memory buffer file.contents := by
  have hlen := length_build files
  have hle := contentStart_le hi
  have hlt := (List.getElem?_eq_some_iff.1 hi).1
  have hsize : read32 s.memory (fileHeaders s.location node.inode) = file.contents.length := by
    rw [h.fields.2.2.1, (holds_fields h0 hi).1, Nat.mod_eq_of_lt (by omega)]
  have hsrc : add32 (read32 s.memory (fileHeaders s.location node.inode + 4)) 0 =
      contentAt files s.location node.inode := by
    rw [h.offset _ hlt, add32_eq (by unfold contentAt; omega), Nat.add_zero]
  have hstart : ¬ 0 > read32 s.memory (fileHeaders s.location node.inode) := Nat.not_lt_zero _
  have hend : ¬ add32 0 file.contents.length >
      read32 s.memory (fileHeaders s.location node.inode) := by
    rw [hsize, add32_eq (by omega), Nat.zero_add]
    exact Nat.lt_irrefl _
  have hpos : contentAt files s.location node.inode ≠ 0 := by
    unfold contentAt headerSize
    omega
  refine ⟨{ s with
    memory := copy s.memory buffer (contentAt files s.location node.inode) file.contents.length },
    ?_, ?_⟩
  · unfold read
    dsimp only
    rw [if_neg hstart, if_neg hend, hsrc, decide_eq_true hb, assert_true, ok_bind,
      decide_eq_true hpos, assert_true, ok_bind]
    rfl
  · have hcontents := holds_contents h0 hi
    intro k b hk
    have hklt := (List.getElem?_eq_some_iff.1 hk).1
    have hsep : ∀ x y, x < file.contents.length → y < file.contents.length →
        add32 (contentAt files s.location node.inode) x ≠ add32 buffer y := by
      intro x y hx hy
      rw [add32_eq (by unfold contentAt; omega), add32_eq (by omega)]
      unfold contentAt
      omega
    have hfill := fill_inside (m := s.memory) (d := buffer)
      (f := fun x => s.memory (add32 (contentAt files s.location node.inode) x)) (by omega) hklt
    rw [add32_eq (by omega)] at hfill
    dsimp only at hfill ⊢
    rw [copy_eq_fill hsep, hfill, add32_eq (by unfold contentAt; omega), h.other, hcontents k b hk]
    intro j hj
    unfold contentAt fileHeaders fileHeaderSize
    omega

/-- The mount of an image gives back its files: one node a file, whose name was copied within its
fields, which `FindDir` finds and `Read` reads. -/
def RoundTrip (kalloc : Nat → Except Halt Nat) (files : List InputFile) (location : Nat)
    (m : Mem) : Prop :=
  ∃ s, mount kalloc location m = .ok s ∧ s.nodes.length = files.length ∧
    ∀ i file, files[i]? = some file → ∃ node, s.nodes[i]? = some node ∧
      node.name.1.length < nameSize ∧ node.length = file.contents.length ∧
      findDir s file.name = some (.file i) ∧
      ∀ buffer, buffer ≠ 0 → buffer + file.contents.length ≤ 4294967296 →
        buffer + file.contents.length ≤ location ∨ location + (build files).length ≤ buffer →
        ∃ s', read s node 0 file.contents.length buffer = .ok (file.contents.length, s') ∧
          Holds s'.memory buffer file.contents

/-- `FindDir` finds the file of a name that no file before it has. -/
theorem findDir_node {s : Mounted} (hnodes : ∀ k f, files[k]? = some f →
      s.nodes[k]? = some (nodeOf f k)) (hlen : s.nodes.length = files.length)
    (hnames : (files.map (·.name)).Nodup) (hi : files[i]? = some file) (hdev : file.name ≠ DEV) :
    findDir s file.name = some (.file i) := by
  have hilt := (List.getElem?_eq_some_iff.1 hi).1
  have hfind : s.nodes.findIdx? (fun node => CString.compare file.name node.name) = some i := by
    refine List.findIdx?_eq_some_iff_getElem.2 ⟨by omega, ?_, fun j hj => ?_⟩
    · have := hnodes i file hi
      obtain ⟨hlt, he⟩ := List.getElem?_eq_some_iff.1 this
      rw [he]
      exact CString.compare_iff.2 rfl
    · obtain ⟨f, hf⟩ : ∃ f, files[j]? = some f := ⟨_, List.getElem?_eq_getElem (by omega)⟩
      obtain ⟨hlt, he⟩ := List.getElem?_eq_some_iff.1 (hnodes j f hf)
      rw [he]
      intro hc
      have hname : file.name = f.name := CString.compare_iff.1 hc
      have hij : i = j := by
        refine (List.getElem?_inj (by rw [List.length_map]; exact hilt) hnames).1 ?_
        rw [List.getElem?_map, List.getElem?_map, hi, hf, Option.map_some, Option.map_some, hname]
      omega
  rw [findDir, if_neg fun hc => hdev (CString.compare_iff.1 hc), hfind]
  rfl

theorem mount_ok {kalloc : Nat → Except Halt Nat} {p q : Nat} {s : Mounted}
    (hk : kalloc nodeSize = .ok p)
    (hk' : kalloc (nodeSize * files.length % 4294967296) = .ok q)
    (h0 : Holds m location (build files)) (htop : location + (build files).length < 4294967296) :
    mount kalloc location m = .ok s ↔ ∃ m' nodes, mountLoop location files.length 0 m =
      .ok (m', nodes) ∧ s = ⟨m', location, nodes⟩ := by
  have hlen := length_build files
  have hn : read32 m location = files.length := by
    rw [holds_numFiles h0, Nat.mod_eq_of_lt (by omega)]
  unfold mount
  rw [hk, ok_bind, ok_bind, hn]
  dsimp only
  rw [hk', ok_bind]
  constructor
  · intro h
    obtain ⟨⟨m', nodes⟩, hl, h⟩ := bind_ok.1 h
    cases h
    exact ⟨m', nodes, hl, rfl⟩
  · rintro ⟨m', nodes, hl, rfl⟩
    exact bind_ok.2 ⟨(m', nodes), hl, rfl⟩

/-- **The round trip of the ramdisk.** An image that is loaded and mounted gives back the files it
was built from just when every name has at most 63 bytes. -/
theorem round_trip {kalloc : Nat → Except Halt Nat} {p q : Nat} (hk : kalloc nodeSize = .ok p)
    (hk' : kalloc (nodeSize * files.length % 4294967296) = .ok q)
    (hnames : (files.map (·.name)).Nodup) (hdev : ∀ f ∈ files, f.name ≠ DEV)
    (h0 : Holds m location (build files)) (htop : location + (build files).length < 4294967296) :
    RoundTrip kalloc files location m ↔ ∀ f ∈ files, f.name.1.length < nameSize := by
  have hstart : Rebased files location 0 m m :=
    ⟨fun _ _ => rfl, fun j hj => absurd hj (Nat.not_lt_zero j)⟩
  constructor
  · rintro ⟨s, hs, -, hfiles⟩ f hf
    obtain ⟨i, hi⟩ := List.getElem?_of_mem hf
    obtain ⟨node, hnode, hshort, -⟩ := hfiles i f hi
    obtain ⟨m', nodes, hl, rfl⟩ := (mount_ok hk hk' h0 htop).1 hs
    by_contra hlong
    have := mountLoop_long h0 htop hstart (by omega) hl i f node (by rw [Nat.zero_add, hi]) hnode
      (Nat.le_of_not_lt hlong)
    omega
  · intro hshort
    obtain ⟨m', nodes, hl, hr, hlen, hnodes⟩ :=
      mountLoop_short h0 htop hshort (Nat.zero_add files.length) hstart
    simp only [Nat.zero_add] at hnodes
    refine ⟨_, (mount_ok hk hk' h0 htop).2 ⟨m', nodes, hl, rfl⟩, hlen, fun i f hi => ?_⟩
    have hf := List.mem_of_getElem? hi
    refine ⟨nodeOf f i, hnodes i f hi, hshort f hf, rfl,
      findDir_node hnodes hlen hnames hi (hdev f hf), fun buffer hb hfit hapart => ?_⟩
    exact read_all hr hi h0 htop hb hfit hapart

end

/-! ## Images of one file -/

/-- Memory that holds `bs` at `a`, and zeros. -/
def load (bs : List UInt8) (a x : Nat) : UInt8 := bs.getD (x - a) 0

theorem holds_load (bs : List UInt8) (a : Nat) : Holds (load bs a) a bs := fun k b hk => by
  rw [load, Nat.add_sub_cancel_left, List.getD_eq_getElem?_getD, hk, Option.getD_some]

/-- A file "a" of one byte. -/
def shortFile : InputFile := ⟨⟨[97], by decide⟩, [98]⟩

/-- A file of one byte whose name has 64 bytes. -/
def longFile : InputFile := ⟨⟨List.replicate 64 97, by decide⟩, [98]⟩

/-- A file "init" of three bytes. -/
def initFile : InputFile := ⟨⟨[105, 110, 105, 116], by decide⟩, [1, 2, 3]⟩

/-- With these two an empty file "etc" between them. -/
def threeFiles : List InputFile := [shortFile, ⟨⟨[101, 116, 99], by decide⟩, []⟩, initFile]

theorem threeFiles_below : 0x1000 + (build threeFiles).length < 4294967296 := by
  rw [length_build]
  decide

theorem round_trip_three : RoundTrip (fun _ => .ok 0x2000) threeFiles 0x1000
    (load (build threeFiles) 0x1000) :=
  (round_trip rfl rfl (by decide) (by decide) (holds_load _ _) threeFiles_below).2 (by decide)

/-- The name of 64 bytes is copied together with the byte behind its field. -/
theorem longFile_overrun : ¬ RoundTrip (fun _ => .ok 0x2000) [longFile] 0x1000
    (load (build [longFile]) 0x1000) := by
  rintro ⟨s, hs, -, hfiles⟩
  obtain ⟨node, hnode, hshort, -⟩ := hfiles 0 longFile rfl
  have hlen : (mount (fun _ => .ok 0x2000) 0x1000 (load (build [longFile]) 0x1000)).map
      (fun s => s.nodes.map (·.name.1.length)) = .ok [65] := by
    decide +kernel
  rw [hs] at hlen
  have hget := congrArg (·[0]?) (Except.ok.inj hlen)
  dsimp only at hget
  rw [List.getElem?_map, hnode] at hget
  have h65 : node.name.1.length = 65 := Option.some.inj hget
  rw [h65] at hshort
  revert hshort
  decide

theorem long_name_lost : ¬ ∀ (kalloc : Nat → Except Halt Nat) (p q : Nat) (files : List InputFile)
    (location : Nat) (m : Mem), kalloc nodeSize = .ok p →
    kalloc (nodeSize * files.length % 4294967296) = .ok q → (files.map (·.name)).Nodup →
    (∀ f ∈ files, f.name ≠ DEV ∧ f.name.1 ≠ [] ∧ f.name.1.length ≤ 64) →
    (contents files).length < 4294967296 - 268435456 → Holds m location (build files) →
    location + (build files).length < 4294967296 → RoundTrip kalloc files location m := fun h =>
  longFile_overrun (h _ _ _ _ _ _ rfl rfl (by decide) (by decide) (by decide) (holds_load _ _)
    (by decide))

end Initrd

end Dmanix
