/-
  Cs24.Fat16.Follow — `follow` and `main` (the FAT16 walker), which read a disk image's
  directory entries and build the tree with `add_child_directory_tree`.

  fat16.h is not in the repository: the entry and BIOS parameter block layouts and the
  helpers `follow` calls on them are a parameter (`Header`). The image is a byte list
  read through `fread`, which reads one item of `n` bytes or returns 0, also for
  `n = 0` (C11 7.21.8.1p3). Each pass of `follow`'s `while` loop reads one entry: a
  first name byte of 0 ends the loop, a hidden entry is skipped, a directory is walked
  from its cluster into a fresh node, a file's bytes are read from its cluster, and
  the node goes into the directory by `add_child_directory_tree`. The C code inserts a
  directory's node before `follow` fills it; the insertion reads only names, so the
  model fills the node first and inserts it finished. `fuel` bounds the passes and the
  depth together: a directory whose cluster leads back to an ancestor recurses without
  end.

  Proved:
  - `follow_good`: whenever `follow` returns, every directory it built lists its
    children sorted by name, and every file holds exactly `file_size` bytes, at least
    one: an empty file fails the `assert` on its `fread`;
  - `follow_names`: nothing is lost or added twice: the names of the children a call
    of `follow` adds are, up to order, those of the directory's entries (`entries`,
    up to the first 0 name byte) that are not hidden;
  - `main_good`: the whole tree `main` builds is good, and its root, `ROOT`, holds
    exactly the visible entries of the root directory, hidden ones left out.
  All of it is derived from `follow_eq_ok`, what one pass of the loop does.
  - `follow_self_loop`: a visible directory entry whose cluster is its own directory's
    (FAT16's `.`, unless `is_hidden` skips it) makes `follow` recurse without end.
-/

import Cs24.Fat16.DirectoryTree

namespace Cs24.Fat16

/-- `node_t`, by its type: a `file_node_t` with its size and bytes, or a
    `directory_node_t` with its `num_children` children. -/
inductive Node where
  | file (name : CString) (size : Nat) (contents : List UInt8)
  | directory (name : CString) (children : List Node)

instance : Inhabited Node := ⟨.directory rootName []⟩

/-- `node->name`. -/
def Node.name : Node → CString
  | .file name _ _ => name
  | .directory name _ => name

/-- A directory node, once filled, as a `node_t`. -/
def DirectoryNode.toNode (d : DirectoryNode Node) : Node := .directory d.name d.children

/-- Modelled from the spec: fat16.h is missing, and the spec leaves the walker out of its
    scope, so the layouts of `directory_entry_t` (`E`) and `bios_parameter_block_t` (`B`)
    and the helpers `follow` and `main` call are left open. -/
structure Header (E B : Type) where
  /-- `sizeof(directory_entry_t)`. -/
  entrySize : Nat
  /-- `sizeof(bios_parameter_block_t)`. -/
  bpbSize : Nat
  /-- The entry `fread` fills from `entrySize` bytes. -/
  readEntry : List UInt8 → E
  /-- The parameter block `fread` fills from `bpbSize` bytes. -/
  readBpb : List UInt8 → B
  /-- `entry.filename[0]`. -/
  filename0 : E → UInt8
  firstCluster : E → Nat
  fileSize : E → Nat
  isHidden : E → Bool
  isDirectory : E → Bool
  getFileName : E → CString
  getOffsetFromCluster : Nat → B → Nat
  getRootDirectoryLocation : B → Nat

/-- `fread(buf, n, 1, disk)` with the file position at `pos`: the item's `n` bytes, or
    `none` where `fread` returns 0, too few bytes being left or `n` being 0. -/
def fread (disk : List UInt8) (pos n : Nat) : Option (List UInt8) :=
  if 0 < n ∧ pos + n ≤ disk.length then some ((disk.drop pos).take n) else none

theorem fread_eq_some {disk : List UInt8} {pos n : Nat} {bs : List UInt8} (h : fread disk pos n = some bs) :
    0 < n ∧ bs.length = n := by
  unfold fread at h
  split_ifs at h with hn
  cases h
  exact ⟨hn.1, by simp only [List.length_take, List.length_drop]; omega⟩

/-- How the walker stops short of a tree. -/
inductive Stop where
  /-- An `assert` on an `fread` fails. -/
  | assertion
  /-- The walk does not end within the fuel. -/
  | outOfFuel
  deriving DecidableEq, Repr

section Walk

variable {E B : Type} (h : Header E B) (disk : List UInt8) (bpb : B)

/-- `follow(disk, node, bpb)` with the file position at `pos`. -/
def follow : Nat → Nat → DirectoryNode Node → Except Stop (DirectoryNode Node)
  | 0, _, _ => .error .outOfFuel
  | fuel + 1, pos, node =>
    match fread disk pos h.entrySize with
    | none => .error .assertion
    | some bytes =>
      let entry := h.readEntry bytes
      if h.filename0 entry = 0 then .ok node
      else
        let currOffset := pos + h.entrySize
        let offset := h.getOffsetFromCluster (h.firstCluster entry) bpb
        if h.isHidden entry then follow fuel currOffset node
        else if h.isDirectory entry then do
          let newDnode ← follow fuel offset (initDirectoryNode (some (h.getFileName entry)))
          follow fuel currOffset (addChildDirectoryTree Node.name default node (some newDnode.toNode))
        else
          match fread disk offset (h.fileSize entry) with
          | none => .error .assertion
          | some fileSize =>
            follow fuel currOffset (addChildDirectoryTree Node.name default node
              (some (.file (h.getFileName entry) (h.fileSize entry) fileSize)))

/-- `MASTER_BOOT_RECORD_SIZE`. -/
def masterBootRecordSize : Nat := 0x20B

/-- `main` once the image is open: read the parameter block past the master boot record,
    then `follow` the root directory into `init_directory_node(NULL)`. -/
def main (fuel : Nat) : Except Stop Node :=
  match fread disk masterBootRecordSize h.bpbSize with
  | none => .error .assertion
  | some bytes =>
    let bpb := h.readBpb bytes
    (follow h disk bpb fuel (h.getRootDirectoryLocation bpb) (initDirectoryNode none)).map
      DirectoryNode.toNode

end Walk

/-- A four-byte entry for the image below: a name byte, the flags (`0x02` hidden, `0x10`
    directory), a cluster and a size; clusters and the root location count from the byte
    after the one-byte parameter block. -/
def sampleHeader : Header (List UInt8) (List UInt8) where
  entrySize := 4
  bpbSize := 1
  readEntry := id
  readBpb := id
  filename0 e := e.getD 0 0
  firstCluster e := (e.getD 2 0).toNat
  fileSize e := (e.getD 3 0).toNat
  isHidden e := e.getD 1 0 &&& 0x02 != 0
  isDirectory e := e.getD 1 0 &&& 0x10 != 0
  getFileName e := ⟨(e.take 1).filter (· != 0), by simp⟩
  getOffsetFromCluster c _ := 0x20C + c
  getRootDirectoryLocation b := 0x20C + (b.getD 0 0).toNat

/-- A root holding a file `B` of two bytes, a directory `A` holding a file `C` of one
    byte, and a hidden entry `H`. -/
def sampleDisk : List UInt8 := List.replicate 0x20B 0 ++ 0 ::
  [0x42, 0, 28, 2, 0x41, 0x10, 16, 0, 0x48, 0x02, 0, 0, 0, 0, 0, 0,
   0x43, 0, 30, 1, 0, 0, 0, 0, 0, 0, 0, 0, 7, 8, 9]

/-- The root `follow` fills: `A` before `B`, `H` left out. -/
def sampleRoot : DirectoryNode Node :=
  ⟨rootName, 2, [.directory ⟨[0x41], by decide⟩ [.file ⟨[0x43], by decide⟩ 1 [9]],
    .file ⟨[0x42], by decide⟩ 2 [7, 8]], rfl⟩

/-- The tree `main` builds from `sampleDisk`. -/
def sampleTree : Node := sampleRoot.toNode

/-! ## The trees the walker builds -/

/-- Every directory lists its children sorted by name, and every file holds its
    `file_size` bytes, at least one. -/
inductive Node.Good : Node → Prop
  | file {name : CString} {size : Nat} {contents : List UInt8} :
      0 < size → contents.length = size → Node.Good (.file name size contents)
  | directory {name : CString} {children : List Node} :
      children.Sorted (NameLE Node.name) → (∀ c ∈ children, Node.Good c) →
      Node.Good (.directory name children)

/-- A directory node under construction whose children are all good and sorted. -/
def DirectoryGood (d : DirectoryNode Node) : Prop :=
  d.children.Sorted (NameLE Node.name) ∧ ∀ c ∈ d.children, c.Good

theorem DirectoryGood.toNode {d : DirectoryNode Node} (hd : DirectoryGood d) : d.toNode.Good :=
  .directory hd.1 hd.2

theorem DirectoryGood.init (nm : Option CString) : DirectoryGood (initDirectoryNode nm) :=
  ⟨List.sorted_nil, fun _ h => nomatch h⟩

/-- `add_child_directory_tree` keeps a directory good. -/
theorem DirectoryGood.add {d : DirectoryNode Node} {c : Node} (hd : DirectoryGood d) (hc : c.Good) (junk : Node) :
    DirectoryGood (addChildDirectoryTree Node.name junk d (some c)) := by
  obtain ⟨hs, hp⟩ := addChild_sorted Node.name junk d c hd.1
  refine ⟨hs, fun x hx => ?_⟩
  rcases List.mem_append.1 (hp.mem_iff.1 hx) with hx | hx
  · exact hd.2 x hx
  · exact List.mem_singleton.1 hx ▸ hc

section Walk

variable {E B : Type} (h : Header E B) (disk : List UInt8) (bpb : B)

/-- The node one pass of `follow` adds for a visible entry: the directory `follow` fills
    from the entry's cluster, or the file of the bytes `fread` reads there. -/
inductive Built (fuel : Nat) (entry : E) : Node → Prop
  | directory {sub : DirectoryNode Node} : h.isDirectory entry = true →
      follow h disk bpb fuel (h.getOffsetFromCluster (h.firstCluster entry) bpb)
        (initDirectoryNode (some (h.getFileName entry))) = .ok sub →
      Built fuel entry sub.toNode
  | file {contents : List UInt8} : h.isDirectory entry = false →
      fread disk (h.getOffsetFromCluster (h.firstCluster entry) bpb) (h.fileSize entry) = some contents →
      Built fuel entry (.file (h.getFileName entry) (h.fileSize entry) contents)

/-- What one pass of `follow`'s loop does on a walk that returns: it reads an entry, and
    stops at a 0 name byte, skips a hidden entry, or adds the node built for a visible one. -/
theorem follow_eq_ok {fuel pos : Nat} {node node' : DirectoryNode Node}
    (hr : follow h disk bpb (fuel + 1) pos node = .ok node') :
    ∃ entry, (fread disk pos h.entrySize).map h.readEntry = some entry ∧
      (h.filename0 entry = 0 ∧ node' = node ∨
       h.filename0 entry ≠ 0 ∧ h.isHidden entry = true ∧
         follow h disk bpb fuel (pos + h.entrySize) node = .ok node' ∨
       h.filename0 entry ≠ 0 ∧ h.isHidden entry = false ∧ ∃ c, Built h disk bpb fuel entry c ∧
         follow h disk bpb fuel (pos + h.entrySize) (addChildDirectoryTree Node.name default node (some c)) =
           .ok node') := by
  unfold follow at hr
  split at hr
  · cases hr
  · rename_i hb
    refine ⟨_, by rw [hb]; rfl, ?_⟩
    dsimp only at hr
    split_ifs at hr with h0 hh hd
    · cases hr; exact .inl ⟨h0, rfl⟩
    · exact .inr (.inl ⟨h0, hh, hr⟩)
    · simp only [bind, Except.bind] at hr
      split at hr
      · cases hr
      · exact .inr (.inr ⟨h0, by simpa using hh, _, .directory hd ‹_›, hr⟩)
    · split at hr
      · cases hr
      · exact .inr (.inr ⟨h0, by simpa using hh, _, .file (by simpa using hd) ‹_›, hr⟩)

theorem follow_good : ∀ (fuel pos : Nat) (node node' : DirectoryNode Node), DirectoryGood node →
    follow h disk bpb fuel pos node = .ok node' → DirectoryGood node'
  | 0, _, _, _, _, hr => nomatch hr
  | fuel + 1, pos, node, node', hd, hr => by
    obtain ⟨entry, -, ⟨-, rfl⟩ | ⟨-, -, hr⟩ | ⟨-, -, c, hc, hr⟩⟩ := follow_eq_ok h disk bpb hr
    · exact hd
    · exact follow_good fuel _ node node' hd hr
    · refine follow_good fuel _ _ node' (hd.add ?_ default) hr
      cases hc with
      | directory _ hsub => exact (follow_good fuel _ _ _ (.init _) hsub).toNode
      | file _ hf => exact .file (fread_eq_some hf).1 (fread_eq_some hf).2

/-! ## Every visible entry once -/

/-- What the directory at `pos` holds on the image: its entries up to the first whose name
    starts with 0, within `fuel` reads. -/
def entries : Nat → Nat → List E
  | 0, _ => []
  | fuel + 1, pos =>
    match (fread disk pos h.entrySize).map h.readEntry with
    | none => []
    | some entry => if h.filename0 entry = 0 then [] else entry :: entries fuel (pos + h.entrySize)

/-- `follow` fills a node's children and never renames it. -/
theorem follow_name : ∀ (fuel pos : Nat) (node node' : DirectoryNode Node),
    follow h disk bpb fuel pos node = .ok node' → node'.name = node.name
  | 0, _, _, _, hr => nomatch hr
  | fuel + 1, pos, node, node', hr => by
    obtain ⟨entry, -, ⟨-, rfl⟩ | ⟨-, -, hr⟩ | ⟨-, -, c, -, hr⟩⟩ := follow_eq_ok h disk bpb hr
    · rfl
    · exact follow_name fuel _ node node' hr
    · exact follow_name fuel _ (addChildDirectoryTree Node.name default node (some c)) node' hr

theorem Built.name {fuel : Nat} {entry : E} {c : Node} (hc : Built h disk bpb fuel entry c) :
    c.name = h.getFileName entry := by
  cases hc with
  | directory _ hsub => exact follow_name h disk bpb _ _ _ _ hsub
  | file => rfl

theorem addChild_names (junk : Node) (d : DirectoryNode Node) (c : Node) :
    ((addChildDirectoryTree Node.name junk d (some c)).children.map Node.name).Perm
      (d.children.map Node.name ++ [c.name]) := by
  rw [addChildDirectoryTree_eq]
  simpa using ((insertByName_perm Node.name c d.children).trans (List.perm_append_singleton c _).symm).map Node.name

theorem follow_children_perm : ∀ (fuel pos : Nat) (node node' : DirectoryNode Node),
    follow h disk bpb fuel pos node = .ok node' →
    (node'.children.map Node.name).Perm (node.children.map Node.name ++
      ((entries h disk fuel pos).filter fun e => !h.isHidden e).map h.getFileName)
  | 0, _, _, _, hr => nomatch hr
  | fuel + 1, pos, node, node', hr => by
    obtain ⟨entry, he, ⟨h0, rfl⟩ | ⟨h0, hh, hr⟩ | ⟨h0, hh, c, hc, hr⟩⟩ := follow_eq_ok h disk bpb hr
    · simp [entries, he, h0]
    · simpa [entries, he, h0, hh] using follow_children_perm fuel _ node node' hr
    · simpa [entries, he, h0, hh, hc.name] using
        (follow_children_perm fuel _ _ node' hr).trans ((addChild_names default node c).append_right _)

theorem follow_names : ∀ (fuel pos : Nat) (node node' : DirectoryNode Node),
    follow h disk bpb fuel pos node = .ok node' →
    (node'.children.map Node.name).Perm (node.children.map Node.name ++
      ((entries h disk fuel pos).filter fun e => !h.isHidden e).map h.getFileName) :=
  follow_children_perm h disk bpb

set_option maxRecDepth 3000 in
theorem sampleRoot_names :
    follow sampleHeader sampleDisk [0] 10 0x20C (initDirectoryNode none) = .ok sampleRoot ∧
      (sampleRoot.children.map Node.name).Perm ((initDirectoryNode none : DirectoryNode Node).children.map Node.name ++
        ((entries sampleHeader sampleDisk 10 0x20C).filter fun e => !sampleHeader.isHidden e).map
          sampleHeader.getFileName) :=
  ⟨rfl, follow_names sampleHeader sampleDisk [0] 10 0x20C _ _ rfl⟩

/-- The tree `main` builds is good, and its root, `ROOT`, holds exactly the visible entries of
    the root directory. -/
theorem main_good (fuel : Nat) (root : Node) (hr : main h disk fuel = .ok root) :
    root.Good ∧ ∃ bpb children, (fread disk masterBootRecordSize h.bpbSize).map h.readBpb = some bpb ∧
      root = .directory rootName children ∧
      (children.map Node.name).Perm
        (((entries h disk fuel (h.getRootDirectoryLocation bpb)).filter fun e => !h.isHidden e).map h.getFileName) := by
  unfold main at hr
  split at hr
  · cases hr
  · rename_i bytes hb
    simp only [Except.map] at hr
    split at hr
    · cases hr
    · rename_i d hd
      cases hr
      refine ⟨(follow_good h disk _ fuel _ _ d (DirectoryGood.init none) hd).toNode, _, d.children,
        by rw [hb]; rfl, ?_, by simpa using follow_children_perm h disk _ fuel _ _ d hd⟩
      rw [DirectoryNode.toNode, follow_name h disk _ fuel _ _ _ hd]
      rfl

set_option maxRecDepth 3000 in
theorem sampleDisk_good :
    main sampleHeader sampleDisk 10 = .ok sampleTree ∧ sampleTree.Good ∧
      ∃ bpb children, (fread sampleDisk masterBootRecordSize sampleHeader.bpbSize).map sampleHeader.readBpb = some bpb ∧
        sampleTree = .directory rootName children ∧
        (children.map Node.name).Perm (((entries sampleHeader sampleDisk 10 (sampleHeader.getRootDirectoryLocation bpb)).filter
          fun e => !sampleHeader.isHidden e).map sampleHeader.getFileName) :=
  ⟨rfl, main_good sampleHeader sampleDisk 10 sampleTree rfl⟩

/-! ## A directory that holds itself -/

/-- A visible directory entry whose cluster is the directory it sits in (FAT16's `.`, the first
    entry of every subdirectory, unless `is_hidden` skips it): `follow` recurses into the same
    directory again and never returns, whatever the fuel. -/
theorem follow_self_loop {pos : Nat} {entry : E} (he : (fread disk pos h.entrySize).map h.readEntry = some entry)
    (h0 : h.filename0 entry ≠ 0) (hv : h.isHidden entry = false) (hd : h.isDirectory entry = true)
    (hself : h.getOffsetFromCluster (h.firstCluster entry) bpb = pos) :
    ∀ (fuel : Nat) (node : DirectoryNode Node), follow h disk bpb fuel pos node = .error .outOfFuel
  | 0, _ => rfl
  | fuel + 1, node => by
    obtain ⟨bytes, hb, rfl⟩ := Option.map_eq_some'.1 he
    simp only [follow, hb, h0, hv, hd, hself, if_false, if_true, Bool.false_eq_true]
    rw [follow_self_loop he h0 hv hd hself fuel]
    rfl

end Walk

/-- An image whose root directory's first entry is `.`, a directory at the root's own cluster. -/
def loopDisk : List UInt8 := List.replicate 0x20B 0 ++ 0 :: [0x2E, 0x10, 0, 0]

set_option maxRecDepth 3000 in
/-- `follow` on `loopDisk`'s root never returns. -/
theorem loopDisk_never_returns :
    (fread loopDisk 0x20C sampleHeader.entrySize).map sampleHeader.readEntry = some [0x2E, 0x10, 0, 0] ∧
      sampleHeader.filename0 [0x2E, 0x10, 0, 0] ≠ 0 ∧ sampleHeader.isHidden [0x2E, 0x10, 0, 0] = false ∧
      sampleHeader.isDirectory [0x2E, 0x10, 0, 0] = true ∧
      sampleHeader.getOffsetFromCluster (sampleHeader.firstCluster [0x2E, 0x10, 0, 0]) [0] = 0x20C ∧
      ∀ (fuel : Nat) (node : DirectoryNode Node), follow sampleHeader loopDisk [0] fuel 0x20C node = .error .outOfFuel :=
  ⟨rfl, by decide, rfl, rfl, rfl, follow_self_loop sampleHeader loopDisk [0] rfl (by decide) rfl rfl rfl⟩

end Cs24.Fat16
