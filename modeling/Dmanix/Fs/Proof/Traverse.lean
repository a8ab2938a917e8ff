import Dmanix.Fs.Fs
import Dmanix.Fs.Proof.RoundTrip

/-!
# `Traverse` is `FindDir`

`Traverse` meets the files in image order and looks each one's name up again; the first file whose
name is the one asked for is the one `FindDir` finds (`traverse_eq`). Files named as the directory
"dev" are passed over like it.
-/

namespace Dmanix

open Bytes Word32

namespace Initrd

/-! ## The nodes of a mounted image -/

/-- What the mount makes of a file header: a file, whose name ends in its field. -/
structure FileNode (node : Node) : Prop where
  flags : node.flags = flagFile
  name : node.name.1.length < nodeNameSize

theorem length_of_copyName : ∀ {m : Mem} {room a : Nat} {s : CString},
    copyName m room a = .ok s → s.1.length < room
  | _, 0, _, _, h => by cases h
  | m, room + 1, a, s, h => by
    unfold copyName at h
    by_cases h0 : m a = 0
    · rw [dif_pos h0] at h
      cases h
      exact Nat.succ_pos room
    · rw [dif_neg h0] at h
      obtain ⟨rest, hrest, h⟩ := bind_ok.1 h
      cases h
      exact Nat.succ_lt_succ (length_of_copyName hrest)

theorem mountLoop_nodes {location : Nat} : ∀ {n i : Nat} {m m' : Mem} {nodes : List Node},
    mountLoop location n i m = .ok (m', nodes) → ∀ node ∈ nodes, FileNode node
  | 0, _, _, _, _, h, _, hnode => by
    cases h
    cases hnode
  | n + 1, i, m, m', nodes, h, node, hnode => by
    obtain ⟨⟨m1, node1⟩, h1, h⟩ := bind_ok.1 h
    obtain ⟨⟨m2, rest⟩, h2, h⟩ := bind_ok.1 h
    cases h
    rcases List.mem_cons.1 hnode with rfl | hnode
    · obtain ⟨name, hname, -, hnode1⟩ := mountFile_ok.1 h1
      rw [show node = _ from hnode1]
      exact ⟨rfl, length_of_copyName hname⟩
    · exact mountLoop_nodes h2 node hnode

theorem mount_nodes {kalloc : Nat → Except Halt Nat} {location : Nat} {m : Mem} {s : Mounted}
    (h : mount kalloc location m = .ok s) : ∀ node ∈ s.nodes, FileNode node := by
  obtain ⟨_, -, h⟩ := bind_ok.1 h
  obtain ⟨_, -, h⟩ := bind_ok.1 h
  obtain ⟨_, -, h⟩ := bind_ok.1 h
  obtain ⟨⟨m', nodes⟩, hl, h⟩ := bind_ok.1 h
  cases h
  exact mountLoop_nodes hl

/-! ## What `FindDir` finds -/

/-- File `i` is the first of the name. -/
def FirstNamed (s : Mounted) (name : CString) (i : Nat) : Prop :=
  (∃ node, s.nodes[i]? = some node ∧ node.name = name) ∧
    ∀ j node, j < i → s.nodes[j]? = some node → node.name ≠ name

section
variable {s : Mounted} {name : CString}

theorem findDir_dev : findDir s DEV = some .dev := if_pos (CString.compare_iff.2 rfl)

theorem findDir_of_ne (h : name ≠ DEV) : findDir s name =
    (s.nodes.findIdx? fun node => CString.compare name node.name).map .file :=
  if_neg fun hc => h (CString.compare_iff.1 hc)

theorem findDir_some {found : Found} (h : name ≠ DEV) :
    findDir s name = some found ↔ ∃ i, found = .file i ∧ FirstNamed s name i := by
  rw [findDir_of_ne h, Option.map_eq_some_iff]
  constructor
  · rintro ⟨i, hi, rfl⟩
    obtain ⟨hlt, hat, hbefore⟩ := List.findIdx?_eq_some_iff_getElem.1 hi
    refine ⟨i, rfl, ⟨_, List.getElem?_eq_getElem hlt, (CString.compare_iff.1 hat).symm⟩,
      fun j node hj hnode hname => ?_⟩
    obtain ⟨hjlt, he⟩ := List.getElem?_eq_some_iff.1 hnode
    exact hbefore j hj (by rw [he]; exact CString.compare_iff.2 hname.symm)
  · rintro ⟨i, rfl, ⟨node, hnode, hname⟩, hbefore⟩
    obtain ⟨hlt, he⟩ := List.getElem?_eq_some_iff.1 hnode
    refine ⟨i, List.findIdx?_eq_some_iff_getElem.2
      ⟨hlt, by rw [he]; exact CString.compare_iff.2 hname.symm, fun j hj hc => ?_⟩, rfl⟩
    exact hbefore j _ hj (List.getElem?_eq_getElem (Nat.lt_trans hj hlt))
      (CString.compare_iff.1 hc).symm

/-- `FindDir` finds none just when no file has the name. -/
theorem findDir_none (h : name ≠ DEV) :
    findDir s name = none ↔ ∀ node ∈ s.nodes, node.name ≠ name := by
  rw [findDir_of_ne h, Option.map_eq_none_iff, List.findIdx?_eq_none_iff]
  refine forall₂_congr fun node _ => ?_
  rw [← Bool.not_eq_true, CString.compare_iff]
  exact not_congr eq_comm

theorem findDir_own (hfiles : ∀ node ∈ s.nodes, FileNode node) {node : Node}
    (hnode : node ∈ s.nodes) (h : node.name ≠ DEV) :
    ∃ k, findDir s node.name = some (.file k) ∧ flags s (.file k) = .ok flagFile := by
  cases hf : findDir s node.name with
  | none => exact absurd rfl ((findDir_none h).1 hf node hnode)
  | some found =>
    rw [findDir_of_ne h] at hf
    obtain ⟨k, hk, rfl⟩ := Option.map_eq_some_iff.1 hf
    obtain ⟨hlt, -, -⟩ := List.findIdx?_eq_some_iff_getElem.1 hk
    refine ⟨k, rfl, ?_⟩
    unfold flags
    dsimp only
    rw [List.getElem?_eq_getElem hlt]
    exact congrArg Except.ok (hfiles _ (List.getElem_mem hlt)).flags

/-! ## The walk -/

theorem readDir_file {i : Nat} {node : Node} {currDir : DirEntry} (hi : i + 1 < 4294967296)
    (hnode : s.nodes[i]? = some node) (hf : FileNode node) :
    readDir s (i + 1) currDir = .ok (true, ⟨node.name, node.inode⟩) := by
  have hindex : sub32 (i + 1) 1 = i := sub32_eq (by omega) hi
  unfold readDir
  rw [if_neg (Nat.succ_ne_zero i)]
  dsimp only
  rw [hindex, hnode]
  dsimp only
  unfold setCurrDir
  rw [if_pos (show node.name.1.length < dirEntryNameSize from hf.name)]
  rfl

theorem readDir_end {currDir : DirEntry} (h : s.nodes.length + 1 < 4294967296) :
    readDir s (s.nodes.length + 1) currDir = .ok (false, currDir) := by
  have hindex : sub32 (s.nodes.length + 1) 1 = s.nodes.length := sub32_eq (by omega) h
  unfold readDir
  rw [if_neg (Nat.succ_ne_zero _)]
  dsimp only
  rw [hindex, List.getElem?_eq_none (Nat.le_refl _)]
  rfl

/-- The walk from file `i` on, none of the files before it having the name. -/
theorem traverseLoop_eq (hfiles : ∀ node ∈ s.nodes, FileNode node)
    (hlen : s.nodes.length < 4294967295) (hname : name ≠ DEV) :
    ∀ {rounds i : Nat} {currDir : DirEntry}, i ≤ s.nodes.length → s.nodes.length < rounds + i →
      (∀ j node, j < i → s.nodes[j]? = some node → node.name ≠ name) →
      ∃ entry, traverseLoop s name rounds (i + 1) currDir = .ok (findDir s name, entry)
  | 0, i, _, hi, hr, _ => by omega
  | rounds + 1, i, currDir, hi, hr, hbefore => by
    rcases Nat.lt_or_eq_of_le hi with hlt | rfl
    · obtain ⟨node, hnode⟩ : ∃ node, s.nodes[i]? = some node := ⟨_, List.getElem?_eq_getElem hlt⟩
      have hmem := List.mem_of_getElem? hnode
      have hnext : add32 (i + 1) 1 = i + 1 + 1 := add32_eq (by omega)
      -- the walk goes on when this file has another name
      have hrest : node.name ≠ name → ∃ entry,
          traverseLoop s name rounds (i + 1 + 1) ⟨node.name, node.inode⟩ =
            .ok (findDir s name, entry) := fun hne =>
        traverseLoop_eq hfiles hlen hname (by omega) (by omega) fun j node' hj hnode' => by
          rcases Nat.lt_succ_iff_lt_or_eq.1 hj with hj | rfl
          · exact hbefore j node' hj hnode'
          · rw [hnode] at hnode'
            cases hnode'
            exact hne
      rw [traverseLoop, readDir_file (by omega) hnode (hfiles node hmem), ok_bind]
      dsimp only
      rw [if_neg (by decide)]
      by_cases hdev : node.name = DEV
      · rw [hdev, findDir_dev]
        dsimp only
        rw [show flags s .dev = .ok flagDirectory from rfl, ok_bind, if_pos (by decide), hnext, ← hdev]
        exact hrest fun he => hname (he.symm.trans hdev)
      · obtain ⟨k, hk, hflags⟩ := findDir_own hfiles hmem hdev
        rw [hk]
        dsimp only
        rw [hflags, ok_bind, if_neg (by decide)]
        by_cases he : node.name = name
        · rw [if_pos (CString.compare_iff.2 he), ← he, hk]
          exact ⟨_, rfl⟩
        · rw [if_neg fun hc => he (CString.compare_iff.1 hc), hnext]
          exact hrest he
    · refine ⟨currDir, ?_⟩
      rw [traverseLoop, readDir_end (by omega), ok_bind]
      have hnone : findDir s name = none := (findDir_none hname).2 fun node hnode => by
        obtain ⟨j, hj⟩ := List.getElem?_of_mem hnode
        exact hbefore j node (List.getElem?_eq_some_iff.1 hj).1 hj
      rw [hnone]
      rfl

end

/-- **`Traverse` is `FindDir`**: on a mounted image with fewer than `2^32 - 1` files it ends, and
returns the first file of the name, or `NULL` when there is none. -/
theorem traverse_eq {kalloc : Nat → Except Halt Nat} {location rounds : Nat} {m : Mem} {s : Mounted}
    {name : CString} {currDir : DirEntry} (hs : mount kalloc location m = .ok s)
    (hlen : s.nodes.length < 4294967295) (hname : name ≠ DEV) (hr : s.nodes.length + 1 < rounds) :
    (∃ entry, traverse s rounds name currDir = .ok (findDir s name, entry)) ∧
      (∀ found, findDir s name = some found ↔ ∃ i, found = .file i ∧ FirstNamed s name i) ∧
      (findDir s name = none ↔ ∀ node ∈ s.nodes, node.name ≠ name) := by
  refine ⟨?_, fun found => findDir_some hname, findDir_none hname⟩
  obtain ⟨rounds, rfl⟩ : ∃ n, rounds = n + 1 := ⟨rounds - 1, by omega⟩
  obtain ⟨entry, h⟩ := @traverseLoop_eq s name (mount_nodes hs) hlen hname rounds 0 ⟨DEV, 0⟩
    (Nat.zero_le _) (by omega) fun j _ hj => absurd hj (Nat.not_lt_zero j)
  refine ⟨entry, ?_⟩
  -- the first entry is the directory "dev"
  have hdev : readDir s 0 currDir = .ok (true, ⟨DEV, 0⟩) := rfl
  rw [traverse, traverseLoop, hdev, ok_bind]
  dsimp only
  rw [if_neg (by decide), findDir_dev]
  exact h

/-- The walk over an image of three files finds the last. -/
theorem traverse_three : ∃ s,
    mount (fun _ => .ok 0x2000) 0x1000 (load (build threeFiles) 0x1000) = .ok s ∧
      s.nodes.length = 3 ∧ ∀ currDir, ∃ entry,
        traverse s 5 initFile.name currDir = .ok (some (.file 2), entry) := by
  have hstart : Rebased threeFiles 0x1000 0 (load (build threeFiles) 0x1000)
      (load (build threeFiles) 0x1000) :=
    ⟨fun _ _ => rfl, fun j hj => absurd hj (Nat.not_lt_zero j)⟩
  obtain ⟨m, nodes, hl, -, hlen, hnodes⟩ := mountLoop_short (holds_load (build threeFiles) 0x1000)
    threeFiles_below (by decide) (n := 3) (i := 0) rfl hstart
  have hs := (@mount_ok _ _ _ (fun _ => .ok 0x2000) 0x2000 0x2000 _ rfl rfl
    (holds_load (build threeFiles) 0x1000) threeFiles_below).2 ⟨m, nodes, hl, rfl⟩
  refine ⟨_, hs, hlen, fun currDir => ?_⟩
  obtain ⟨⟨entry, ht⟩, hfirst, -⟩ := @traverse_eq _ _ 5 _ _ initFile.name currDir hs
    (by dsimp only; omega) (by decide) (by dsimp only; omega)
  have hfound : findDir ⟨m, 0x1000, nodes⟩ initFile.name = some (.file 2) := by
    refine (hfirst _).2 ⟨2, rfl, ⟨nodeOf initFile 2, hnodes 2 initFile rfl, rfl⟩,
      fun j node hj hnode => ?_⟩
    match j, hj with
    | 0, _ =>
      cases hnode.symm.trans (hnodes 0 shortFile rfl)
      decide
    | 1, _ =>
      cases hnode.symm.trans (hnodes 1 _ rfl)
      decide
  rw [hfound] at ht
  exact ⟨entry, ht⟩

end Initrd

end Dmanix
