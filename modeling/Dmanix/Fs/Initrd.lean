import Dmanix.CString
import Dmanix.Lib.Bytes

/-!
# The initial ramdisk (`src/fs/initrd.cc`, `src/tools/initrd_build.cc`)

`build` is the image the tool writes: a header, one 72-byte file header a file, and the contents.
`mount` is `initrd::Initialize` on the image in byte memory: it rebases the offsets in place and
makes a node of each file header. The nodes lie in memory of their own; `kalloc` is a parameter that
says whether there is room for them.
-/

namespace Dmanix

open Bytes Word32

namespace Initrd

/-! ## The tool -/

/-- An input of the tool: the name a file gets and its bytes. -/
structure InputFile where
  name : CString
  contents : List UInt8

/-- `sizeof(Header)` -/
def headerSize : Nat := 8

/-- `sizeof(FileHeader)` -/
def fileHeaderSize : Nat := 72

/-- `sizeof(FileHeader::name)` -/
def nameSize : Nat := 64

/-- `strncpy(dest, s, n)`: at most `n` bytes of the string, the rest filled with zeros. -/
def strncpy (s : List UInt8) (n : Nat) : List UInt8 := s.take n ++ List.replicate (n - s.length) 0

/-- `FileHeader(name, size, offset)` -/
def fileHeader (name : CString) (size offset : Nat) : List UInt8 :=
  le32 size ++ le32 offset ++ strncpy name.1 nameSize

/-- The loop of `main`: the number of files, the header stream and the content stream. -/
def buildLoop : List InputFile → Nat → List UInt8 → List UInt8 → Nat × List UInt8 × List UInt8
  | [], numFiles, headers, contents => (numFiles, headers, contents)
  | file :: files, numFiles, headers, contents =>
    let header := fileHeader file.name file.contents.length contents.length
    buildLoop files (numFiles + 1) (headers ++ header) (contents ++ file.contents)

/-- The image. -/
def build (files : List InputFile) : List UInt8 :=
  let (numFiles, headers, contents) := buildLoop files 0 [] []
  le32 numFiles ++ le32 (headerSize + headers.length) ++ headers ++ contents

/-! ## The kernel -/

/-- The fields of an `fs::Node` that a file of the ramdisk uses. -/
structure Node where
  name : CString
  flags : Nat
  inode : Nat
  length : Nat

/-- `sizeof(fs::Node)` -/
def nodeSize : Nat := 184

/-- `sizeof(fs::Node::name)` -/
def nodeNameSize : Nat := 128

/-- `fs::FLAG_FILE` -/
def flagFile : Nat := 0x1

/-- A mounted image: `file_headers` lies behind the header at `location`. -/
structure Mounted where
  memory : Mem
  location : Nat
  nodes : List Node

/-- `&file_headers[i]` -/
def fileHeaders (location i : Nat) : Nat := location + headerSize + fileHeaderSize * i

/-- `string::copy` from the string at `a` into a name with room for `room` bytes more. -/
def copyName (m : Mem) : Nat → Nat → Except Halt CString
  | 0, _ => .error (.wild nodeNameSize)
  | room + 1, a =>
    if h : m a = 0 then return .empty
    else do
      let s ← copyName m room (a + 1)
      return ⟨m a :: s.1, fun hm => (List.mem_cons.1 hm).elim (fun he => h he.symm) s.2⟩

/-- The body of the loop of `Initialize`. -/
def mountFile (location i : Nat) (m : Mem) : Except Halt (Mem × Node) := do
  let header := fileHeaders location i
  let m := write32 m (header + 4)
    (add32 (read32 m (header + 4)) (add32 location (read32 m (location + 4))))
  let name ← copyName m nodeNameSize (header + 8)
  return (m, { name, flags := flagFile, inode := i, length := read32 m header })

/-- The loop of `Initialize`, `n` files from file `i` on. -/
def mountLoop (location : Nat) : Nat → Nat → Mem → Except Halt (Mem × List Node)
  | 0, _, m => return (m, [])
  | n + 1, i, m => do
    let (m, node) ← mountFile location i m
    let (m, nodes) ← mountLoop location n (i + 1) m
    return (m, node :: nodes)

/-- `Initialize`, for an image loaded at `location` -/
def mount (kalloc : Nat → Except Halt Nat) (location : Nat) (m : Mem) : Except Halt Mounted := do
  let _root ← kalloc nodeSize
  let _dev ← kalloc nodeSize
  let numNodes := read32 m location
  let _nodes ← kalloc (nodeSize * numNodes % 4294967296)
  let (m, nodes) ← mountLoop location numNodes 0 m
  return ⟨m, location, nodes⟩

/-- The string "dev". -/
def DEV : CString := ⟨[100, 101, 118], by decide⟩

/-- A node `FindDir` returns. -/
inductive Found where
  | dev
  | file (i : Nat)
  deriving DecidableEq, Repr

/-- `root->FindDir(name)`; `none` is `NULL`. -/
def findDir (s : Mounted) (name : CString) : Option Found :=
  if CString.compare name DEV then some .dev
  else (s.nodes.findIdx? fun node => CString.compare name node.name).map .file

/-- `Read(node, offset, size, buffer)` -/
def read (s : Mounted) (node : Node) (offset size buffer : Nat) : Except Halt (Nat × Mounted) := do
  let header := fileHeaders s.location node.inode
  let headerSize := read32 s.memory header
  if offset > headerSize then
    return (0, s)
  else
    let size := if add32 offset size > headerSize then headerSize - offset else size
    let src := add32 (read32 s.memory (header + 4)) offset
    assert (buffer ≠ 0) "dest != NULL"
    assert (src ≠ 0) "src != NULL"
    return (size, { s with memory := copy s.memory buffer src size })

end Initrd

end Dmanix
