import Dmanix.Fs.Initrd

/-!
# Walking the file system (`src/fs/fs.cc`, `ReadDir` of `src/fs/initrd.cc`)

The entry that `ReadDir` returns is `curr_dir`, one global that every call writes again; so it is a
state here, and a call says whether it returned the entry. `fs::root` is the root of the ramdisk.
-/

namespace Dmanix

open Word32

/-- `fs::DirEntry` -/
structure DirEntry where
  name : CString
  inode : Nat

/-- `sizeof(fs::DirEntry::name)` -/
def dirEntryNameSize : Nat := 128

/-- `fs::FLAG_DIRECTORY` -/
def flagDirectory : Nat := 0x2

namespace Initrd

/-- `string::copy(curr_dir.name, name); curr_dir.inode = inode;` -/
def setCurrDir (name : CString) (inode : Nat) : Except Halt DirEntry :=
  if name.1.length < dirEntryNameSize then return ⟨name, inode⟩ else .error (.wild dirEntryNameSize)

/-- `root->ReadDir(index)`: whether it returned `&curr_dir`, not `NULL`, and `curr_dir` -/
def readDir (s : Mounted) (index : Nat) (currDir : DirEntry) : Except Halt (Bool × DirEntry) :=
  if index = 0 then do
    let currDir ← setCurrDir DEV 0
    return (true, currDir)
  else
    let index := sub32 index 1
    match s.nodes[index]? with
    | none => return (false, currDir)
    | some node => do
      let currDir ← setCurrDir node.name node.inode
      return (true, currDir)

/-- `fsnode->flags` -/
def flags (s : Mounted) : Found → Except Halt Nat
  | .dev => return flagDirectory
  | .file i =>
    match s.nodes[i]? with
    | none => .error (.wild i)
    | some node => return node.flags

/-- The loop of `Traverse(filename)` from entry `i` on, granted `rounds` entries: the node it returns,
and `curr_dir`. -/
def traverseLoop (s : Mounted) (filename : CString) :
    Nat → Nat → DirEntry → Except Halt (Option Found × DirEntry)
  | 0, _, _ => .error .hang
  | rounds + 1, i, currDir => do
    let (found, node) ← readDir s i currDir
    if !found then return (none, node)
    else
      match findDir s node.name with
      | none => .error (.wild 0)  -- fsnode->flags, of NULL
      | some fsnode => do
        let flags ← flags s fsnode
        if flags &&& flagDirectory = flagDirectory then
          -- TODO(dominic): recurse.
          traverseLoop s filename rounds (add32 i 1) node
        else if CString.compare node.name filename then return (some fsnode, node)
        else traverseLoop s filename rounds (add32 i 1) node

/-- `Traverse(filename)` -/
def traverse (s : Mounted) (rounds : Nat) (filename : CString) (currDir : DirEntry) :
    Except Halt (Option Found × DirEntry) :=
  traverseLoop s filename rounds 0 currDir

end Initrd

end Dmanix
