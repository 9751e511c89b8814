/-
  Cs24.Fat16.Extract — `print_directory_tree` and `create_directory_tree`
  (directory_tree.c), which the walker's `main` runs on the tree `follow` built: the
  listing on standard output and the copy of the tree under the working directory.

  `helper_directory_tree` builds a node's path with `strcpy` and `strcat` as
  `filename/name`, makes a directory with `mkdir` and a file with `fopen(.., "w")`,
  `fwrite` and `fclose`, each under an `assert`, and walks a directory's children in
  order. The file system is what each path names (`FileSystem`); `mkdir` and `fopen` act
  as POSIX has them for a path whose last component is new: the part before the last `/`
  must be a directory, `mkdir` fails on a path that exists and `fopen` on a directory,
  and a last component that is empty, `.` or `..` names a directory that exists. The
  device takes every byte `fwrite` is given; an `fwrite` on a `NULL` stream, or one that
  reads past its buffer, is undefined.

  Proved:
  - `helperDirectoryTree_spec`: under a directory, a tree whose names are single path
    components, no two children of a directory sharing one, and whose files have their
    `size` bytes, is written as exactly its paths (`Node.paths`): each directory made,
    each file holding its bytes, nothing else changed, provided none of those paths
    exists;
  - `create_directory_tree_copies`: the same for `create_directory_tree`, under `./ROOT`;
  - `create_directory_tree_twice`: `helper_directory_tree` changes only the paths under
    its node's (`helperDirectoryTree_frame`), so a copy of a directory leaves it a
    directory, and a second copy into the same working directory fails its first `mkdir`;
  - `main_copies_image`: for the walker, the tree `main` reads from any image is copied
    so whenever its names are distinct components: its files always have their bytes;
  - `print_directory_tree_iff`: two trees whose names hold no newline and do not start
    with four spaces, one level of indentation, print the same listing exactly when they
    have the same names in the same shape (`Node.outline`: a file and an empty directory
    look alike). The proof reads a listing back line by line, what follows a subtree
    being a shallower line or nothing (`StartsAbove`).
-/

import Cs24.Fat16.Follow

namespace Cs24.Fat16

def slash : UInt8 := 0x2F

def dot : UInt8 := 0x2E

/-! ## The file system -/

/-- What a path names. -/
inductive Entry where
  | directory
  | file (bytes : List UInt8)
  deriving DecidableEq, Repr

/-- The file system: what each path names, if anything. -/
structure FileSystem where
  entry : List UInt8 → Option Entry

namespace FileSystem

variable (fs : FileSystem)

def set (p : List UInt8) (e : Entry) : FileSystem := ⟨fun q => if q = p then some e else fs.entry q⟩

/-- The file system with each path of `l` naming its entry, in order. -/
def setAll (l : List (List UInt8 × Entry)) : FileSystem := l.foldl (fun fs pe => fs.set pe.1 pe.2) fs

@[simp] theorem set_entry (p q : List UInt8) (e : Entry) :
    (fs.set p e).entry q = if q = p then some e else fs.entry q := rfl

@[simp] theorem set_set (p : List UInt8) (e e' : Entry) : (fs.set p e).set p e' = fs.set p e' := by
  simp only [set, ite_eq_left_iff]
  congr
  funext q
  split_ifs <;> rfl

@[simp] theorem setAll_nil : fs.setAll [] = fs := rfl

@[simp] theorem setAll_cons (pe : List UInt8 × Entry) (l : List (List UInt8 × Entry)) :
    fs.setAll (pe :: l) = (fs.set pe.1 pe.2).setAll l := rfl

theorem setAll_append (l l' : List (List UInt8 × Entry)) : fs.setAll (l ++ l') = (fs.setAll l).setAll l' :=
  List.foldl_append _ _ _ _

/-- A path no entry of `l` names keeps what it named. -/
theorem setAll_entry_of_not_mem {q : List UInt8} :
    ∀ {l : List (List UInt8 × Entry)} (fs : FileSystem), (∀ pe ∈ l, pe.1 ≠ q) → (fs.setAll l).entry q = fs.entry q
  | [], _, _ => rfl
  | pe :: l, fs, h => by
    rw [setAll_cons, setAll_entry_of_not_mem _ fun pe' hm => h pe' (List.mem_cons_of_mem _ hm), set_entry,
      if_neg (h pe (List.mem_cons_self _ _)).symm]

end FileSystem

/-- The part of a path before its last `/`. -/
def parentOf (p : List UInt8) : List UInt8 := (p.reverse.dropWhile (· != slash)).reverse.dropLast

/-- The part of a path after its last `/`. -/
def lastComponent (p : List UInt8) : List UInt8 := (p.reverse.takeWhile (· != slash)).reverse

/-- A last component that names the directory itself or its parent: empty, `.` or `..`. -/
def isDots (c : List UInt8) : Bool := c == [] || c == [dot] || c == [dot, dot]

/-- Modelled from POSIX: `mkdir(path, 0777) == 0`. It fails when the part before the last
    `/` is not a directory, when the last component is empty, `.` or `..`, or when the path
    exists. -/
def mkdir (fs : FileSystem) (p : List UInt8) : Option FileSystem :=
  if fs.entry (parentOf p) = some .directory ∧ isDots (lastComponent p) = false ∧ fs.entry p = none then
    some (fs.set p .directory)
  else none

/-- Modelled from POSIX: `fopen(path, "w")`, a stream on the file at `path`, created empty or
    truncated, or `NULL` when the part before the last `/` is not a directory or the path
    names one. -/
def fopen (fs : FileSystem) (p : List UInt8) : Option FileSystem :=
  if fs.entry (parentOf p) = some .directory ∧ isDots (lastComponent p) = false ∧ fs.entry p ≠ some .directory then
    some (fs.set p (.file []))
  else none

/-- How `create_directory_tree` stops short. -/
inductive Abort where
  | assertion
  /-- A C library call is undefined: `fwrite` on a `NULL` stream or past its buffer. -/
  | undefined
  deriving DecidableEq, Repr

/-- Modelled from the C library: `fwrite(contents, sizeof(char), size, stream)` on the empty
    file `fopen` opened at `p`: the first `size` bytes of `contents` are the file. It returns
    `size`, so its `assert` holds. -/
def fwrite (fs : FileSystem) (p contents : List UInt8) (size : Nat) : Except Abort FileSystem :=
  if size ≤ contents.length then .ok (fs.set p (.file (contents.take size))) else .error .undefined

/-! ## The functions -/

mutual

/-- `helper_directory_tree(node, filename)`: `dir_name` is `filename/name`; a directory is
    made and its children copied under it, a file is written. -/
def helperDirectoryTree : Node → List UInt8 → FileSystem → Except Abort FileSystem
  | .file name size contents, filename, fs =>
    match fopen fs (filename ++ slash :: name.1) with
    | none => .error .undefined
    | some fs => fwrite fs (filename ++ slash :: name.1) contents size
  | .directory name children, filename, fs =>
    match mkdir fs (filename ++ slash :: name.1) with
    | none => .error .assertion
    | some fs => helperChildren children (filename ++ slash :: name.1) fs

/-- The `for` loop over a directory's `num_children` children. -/
def helperChildren : List Node → List UInt8 → FileSystem → Except Abort FileSystem
  | [], _, fs => .ok fs
  | c :: cs, dirName, fs => do
    let fs ← helperDirectoryTree c dirName fs
    helperChildren cs dirName fs

end

/-- `create_directory_tree(node)`: the tree copied under `.`. -/
def createDirectoryTree (t : Node) (fs : FileSystem) : Except Abort FileSystem := helperDirectoryTree t [dot] fs

/-- `"    "`, one level of the listing's indentation, then `printf("%s\n", name)`. -/
def listingLine (level : Nat) (name : CString) : List UInt8 :=
  List.replicate (4 * level) 0x20 ++ name.1 ++ [0x0A]

mutual

/-- `print_directory_helper(node, level)`: the node's line, then its children's one level in. -/
def printDirectoryHelper : Node → Nat → List UInt8
  | .file name _ _, level => listingLine level name
  | .directory name children, level => listingLine level name ++ printChildren children (level + 1)

/-- The `for` loop over a directory's children. -/
def printChildren : List Node → Nat → List UInt8
  | [], _ => []
  | c :: cs, level => printDirectoryHelper c level ++ printChildren cs level

end

/-- `print_directory_tree(node)`: what it writes to standard output. -/
def printDirectoryTree (t : Node) : List UInt8 := printDirectoryHelper t 0

/-! ## What a tree means on disk -/

mutual

/-- The paths a tree takes under `base`, in the order `helper_directory_tree` makes them,
    each with what it names: a directory, or a file of its first `size` bytes. -/
def Node.paths : Node → List UInt8 → List (List UInt8 × Entry)
  | .file name size contents, base => [(base ++ slash :: name.1, .file (contents.take size))]
  | .directory name children, base =>
    (base ++ slash :: name.1, .directory) :: childPaths children (base ++ slash :: name.1)

/-- The paths of a directory's children under the directory's path. -/
def childPaths : List Node → List UInt8 → List (List UInt8 × Entry)
  | [], _ => []
  | c :: cs, base => c.paths base ++ childPaths cs base

end

/-- A name `strcat` adds to a path as one new component: not empty, `.` or `..`, no `/`. -/
def Component (n : CString) : Prop := isDots n.1 = false ∧ slash ∉ n.1

/-- Every name is one new path component and no directory has two children of one name. -/
inductive Node.Distinct : Node → Prop
  | file {name : CString} {size : Nat} {contents : List UInt8} :
      Component name → Node.Distinct (.file name size contents)
  | directory {name : CString} {children : List Node} : Component name →
      (children.map fun c => c.name.1).Nodup → (∀ c ∈ children, Node.Distinct c) →
      Node.Distinct (.directory name children)

/-- Every file's buffer holds its `size` bytes. -/
inductive Node.Sized : Node → Prop
  | file {name : CString} {size : Nat} {contents : List UInt8} :
      size ≤ contents.length → Node.Sized (.file name size contents)
  | directory {name : CString} {children : List Node} :
      (∀ c ∈ children, Node.Sized c) → Node.Sized (.directory name children)

/-! ## Paths -/

section Paths

theorem dropWhile_ne_slash {n : List UInt8} (hn : slash ∉ n) (l : List UInt8) :
    (n ++ l).dropWhile (· != slash) = l.dropWhile (· != slash) := by
  induction n with
  | nil => rfl
  | cons a n ih =>
    have : a ≠ slash := fun h => hn (h ▸ List.mem_cons_self _ _)
    simp_all [List.dropWhile_cons]

theorem takeWhile_ne_slash {n : List UInt8} (hn : slash ∉ n) (l : List UInt8) :
    (n ++ slash :: l).takeWhile (· != slash) = n := by
  induction n with
  | nil => simp [List.takeWhile_cons]
  | cons a n ih =>
    have : a ≠ slash := fun h => hn (h ▸ List.mem_cons_self _ _)
    simp_all [List.takeWhile_cons]

variable {base n : List UInt8}

/-- `strcat` of `/` and a name without `/` is undone by `parentOf`. -/
theorem parentOf_append (hn : slash ∉ n) : parentOf (base ++ slash :: n) = base := by
  have h : slash ∉ n.reverse := by simpa using hn
  simp [parentOf, dropWhile_ne_slash h, List.dropWhile_cons]

theorem lastComponent_append (hn : slash ∉ n) : lastComponent (base ++ slash :: n) = n := by
  have h : slash ∉ n.reverse := by simpa using hn
  simp [lastComponent, takeWhile_ne_slash h]

/-- What follows a name without `/` in a path, nothing or a `/`, does not start with a byte of
    the name. -/
theorem sep_ne_cons {a : UInt8} {x r : List UInt8} (ha : a ≠ slash) (hr : r = [] ∨ r.head? = some slash) :
    r ≠ a :: x := by
  rintro rfl
  rcases hr with hr | hr <;> simp_all

/-- Two names without `/`, each followed by nothing or by `/`, are told apart. -/
theorem eq_of_append_sep : ∀ {n n' r r' : List UInt8}, slash ∉ n → slash ∉ n' →
    (r = [] ∨ r.head? = some slash) → (r' = [] ∨ r'.head? = some slash) → n ++ r = n' ++ r' → n = n'
  | [], [], _, _, _, _, _, _, _ => rfl
  | [], _ :: _, _, _, _, hn', hr, _, h => absurd h (sep_ne_cons (fun e => hn' (e ▸ List.mem_cons_self _ _)) hr)
  | _ :: _, [], _, _, hn, _, _, hr', h => absurd h.symm (sep_ne_cons (fun e => hn (e ▸ List.mem_cons_self _ _)) hr')
  | a :: n, b :: n', r, r', hn, hn', hr, hr', h => by
    simp only [List.cons_append, List.cons.injEq] at h
    rw [h.1, eq_of_append_sep (List.not_mem_of_not_mem_cons hn) (List.not_mem_of_not_mem_cons hn') hr hr' h.2]

end Paths

mutual

/-- Every path a tree takes under `base` is `base/name`, or lies under it. -/
theorem Node.paths_under : ∀ (t : Node) (base : List UInt8), ∀ pe ∈ t.paths base,
    ∃ r, pe.1 = base ++ slash :: (t.name.1 ++ r) ∧ (r = [] ∨ r.head? = some slash)
  | .file name _ _, base, pe, hm => by
    simp only [Node.paths, List.mem_singleton] at hm
    exact ⟨[], by simp [hm, Node.name], .inl rfl⟩
  | .directory name children, base, pe, hm => by
    simp only [Node.paths, List.mem_cons] at hm
    rcases hm with rfl | hm
    · exact ⟨[], by simp [Node.name], .inl rfl⟩
    · obtain ⟨c, -, r, hr, -⟩ := childPaths_under children _ pe hm
      exact ⟨slash :: (c.name.1 ++ r), by simp [hr, Node.name], .inr rfl⟩

theorem childPaths_under : ∀ (cs : List Node) (base : List UInt8), ∀ pe ∈ childPaths cs base,
    ∃ c ∈ cs, ∃ r, pe.1 = base ++ slash :: (c.name.1 ++ r) ∧ (r = [] ∨ r.head? = some slash)
  | [], _, _, hm => nomatch hm
  | c :: cs, base, pe, hm => by
    rcases List.mem_append.1 hm with hm | hm
    · exact ⟨c, List.mem_cons_self _ _, Node.paths_under c base pe hm⟩
    · obtain ⟨c', hc', hr⟩ := childPaths_under cs base pe hm
      exact ⟨c', List.mem_cons_of_mem _ hc', hr⟩

end

theorem append_slash_ne (base l : List UInt8) : base ++ slash :: l ≠ base := fun h => by
  simpa using congrArg List.length h

/-- A node's paths lie strictly under the path it is copied to. -/
theorem Node.paths_ne_base {t : Node} {base : List UInt8} : ∀ pe ∈ t.paths base, pe.1 ≠ base := fun pe hm he => by
  obtain ⟨r, hr, -⟩ := Node.paths_under t base pe hm
  exact append_slash_ne base _ (hr ▸ he)

theorem childPaths_ne_base {cs : List Node} {base : List UInt8} : ∀ pe ∈ childPaths cs base, pe.1 ≠ base :=
  fun pe hm he => by
  obtain ⟨c, -, r, hr, -⟩ := childPaths_under cs base pe hm
  exact append_slash_ne base _ (hr ▸ he)

/-- Children of distinct names take disjoint paths. -/
theorem paths_disjoint {c : Node} {cs : List Node} {base : List UInt8} (hc : slash ∉ c.name.1)
    (hcs : ∀ c' ∈ cs, slash ∉ c'.name.1) (hn : c.name.1 ∉ cs.map fun c' => c'.name.1) :
    ∀ pe ∈ childPaths cs base, ∀ pe' ∈ c.paths base, pe'.1 ≠ pe.1 := by
  intro pe hm pe' hm' he
  obtain ⟨c', hc', r, hr, hrs⟩ := childPaths_under cs base pe hm
  obtain ⟨r', hr', hrs'⟩ := Node.paths_under c base pe' hm'
  rw [hr, hr'] at he
  simp only [List.append_cancel_left_eq, List.cons.injEq, true_and] at he
  exact hn (List.mem_map.2 ⟨c', hc', (eq_of_append_sep hc (hcs c' hc') hrs' hrs he).symm⟩)

/-! ## The copy -/

section Copy

theorem Node.Distinct.component {t : Node} (ht : t.Distinct) : Component t.name := by
  cases ht <;> assumption

mutual

/-- `helper_directory_tree` writes exactly the tree's paths. -/
theorem helperDirectoryTree_spec : ∀ (t : Node) (base : List UInt8) (fs : FileSystem),
    fs.entry base = some .directory → t.Distinct → t.Sized → (∀ pe ∈ t.paths base, fs.entry pe.1 = none) →
    helperDirectoryTree t base fs = .ok (fs.setAll (t.paths base))
  | .file name size contents, base, fs, hb, .file ⟨hd, hs⟩, .file hl, hf => by
    have hp : fs.entry (base ++ slash :: name.1) = none := hf _ (List.mem_singleton_self _)
    simp [helperDirectoryTree, fopen, fwrite, Node.paths, parentOf_append hs, lastComponent_append hs, hb, hd, hp, hl]
  | .directory name children, base, fs, hb, .directory ⟨hd, hs⟩ hn hcs, .directory hsz, hf => by
    have hp : fs.entry (base ++ slash :: name.1) = none := hf _ (List.mem_cons_self _ _)
    have hm : mkdir fs (base ++ slash :: name.1) = some (fs.set (base ++ slash :: name.1) .directory) := by
      simp [mkdir, parentOf_append hs, lastComponent_append hs, hb, hd, hp]
    simp only [helperDirectoryTree, hm, Node.paths, FileSystem.setAll_cons]
    refine helperChildren_spec children _ _ (by simp) hn hcs hsz fun pe hm' => ?_
    rw [FileSystem.set_entry, if_neg (childPaths_ne_base pe hm')]
    exact hf pe (List.mem_cons_of_mem _ hm')

/-- The loop over a directory's children writes each child's paths in turn. -/
theorem helperChildren_spec : ∀ (cs : List Node) (dir : List UInt8) (fs : FileSystem),
    fs.entry dir = some .directory → (cs.map fun c => c.name.1).Nodup → (∀ c ∈ cs, c.Distinct) →
    (∀ c ∈ cs, c.Sized) → (∀ pe ∈ childPaths cs dir, fs.entry pe.1 = none) →
    helperChildren cs dir fs = .ok (fs.setAll (childPaths cs dir))
  | [], _, _, _, _, _, _, _ => rfl
  | c :: cs, dir, fs, hb, hn, hd, hsz, hf => by
    have hc := helperDirectoryTree_spec c dir fs hb (hd c (List.mem_cons_self _ _)) (hsz c (List.mem_cons_self _ _))
      fun pe hm => hf pe (List.mem_append_left _ hm)
    simp only [helperChildren, hc, bind, Except.bind, childPaths, FileSystem.setAll_append]
    have hn' := List.nodup_cons.1 hn
    refine helperChildren_spec cs dir _ ?_ hn'.2 (fun c' h => hd c' (List.mem_cons_of_mem _ h))
      (fun c' h => hsz c' (List.mem_cons_of_mem _ h)) fun pe hm => ?_
    · rw [FileSystem.setAll_entry_of_not_mem _ Node.paths_ne_base]
      exact hb
    · rw [FileSystem.setAll_entry_of_not_mem _ fun pe' hm' => paths_disjoint
        (hd c (List.mem_cons_self _ _)).component.2
        (fun c' h => (hd c' (List.mem_cons_of_mem _ h)).component.2) hn'.1 pe hm pe' hm']
      exact hf pe (List.mem_append_right _ hm)

end

/-- `create_directory_tree` copies a tree under `.` exactly: every directory made, every file
    holding its `size` bytes, nothing else changed. -/
theorem create_directory_tree_copies (t : Node) (fs : FileSystem) (hcwd : fs.entry [dot] = some .directory)
    (ht : t.Distinct) (hs : t.Sized) (hfresh : ∀ pe ∈ t.paths [dot], fs.entry pe.1 = none) :
    createDirectoryTree t fs = .ok (fs.setAll (t.paths [dot])) :=
  helperDirectoryTree_spec t [dot] fs hcwd ht hs hfresh

/-- The working directory the examples start from: `.` and nothing else. -/
def emptyCwd : FileSystem := ⟨fun p => if p = [dot] then some .directory else none⟩

theorem sampleTree_distinct : sampleTree.Distinct :=
  .directory ⟨rfl, by decide⟩ (by decide) fun c hc => by
    simp only [sampleTree, sampleRoot, DirectoryNode.toNode, List.mem_cons, List.mem_singleton,
      List.not_mem_nil, or_false] at hc
    rcases hc with rfl | rfl
    · exact .directory ⟨rfl, by decide⟩ (by decide) fun c hc => by
        rw [List.mem_singleton] at hc
        exact hc ▸ .file ⟨rfl, by decide⟩
    · exact .file ⟨rfl, by decide⟩

theorem sampleTree_sized : sampleTree.Sized :=
  .directory fun c hc => by
    simp only [sampleTree, sampleRoot, DirectoryNode.toNode, List.mem_cons, List.mem_singleton,
      List.not_mem_nil, or_false] at hc
    rcases hc with rfl | rfl
    · exact .directory fun c hc => by
        rw [List.mem_singleton] at hc
        exact hc ▸ .file (by decide)
    · exact .file (by decide)

/-- The sample tree, copied into an empty working directory. -/
theorem sampleTree_copies :
    emptyCwd.entry [dot] = some .directory ∧ sampleTree.Distinct ∧ sampleTree.Sized ∧
      (∀ pe ∈ sampleTree.paths [dot], emptyCwd.entry pe.1 = none) ∧
      createDirectoryTree sampleTree emptyCwd = .ok (emptyCwd.setAll (sampleTree.paths [dot])) :=
  ⟨rfl, sampleTree_distinct, sampleTree_sized, by decide,
    create_directory_tree_copies sampleTree emptyCwd rfl sampleTree_distinct sampleTree_sized (by decide)⟩

end Copy

/-! ## The listing -/

/-- A byte string that does not start with one level of the listing's indentation. -/
def Unindented (x : List UInt8) : Prop := ¬ [0x20, 0x20, 0x20, 0x20] <+: x

/-- A name its line shows unambiguously: no newline in it and no indentation at its start. -/
def ListableName (n : CString) : Prop := 0x0A ∉ n.1 ∧ Unindented n.1

instance (x : List UInt8) : Decidable (Unindented x) := inferInstanceAs (Decidable (¬ _))

instance (n : CString) : Decidable (ListableName n) := inferInstanceAs (Decidable (_ ∧ _))

/-- Every name of the tree is listable. -/
inductive Node.Listable : Node → Prop
  | file {name : CString} {size : Nat} {contents : List UInt8} :
      ListableName name → Node.Listable (.file name size contents)
  | directory {name : CString} {children : List Node} : ListableName name →
      (∀ c ∈ children, Node.Listable c) → Node.Listable (.directory name children)

/-- What a listing can show of a tree: its names, and each directory's children in order. A
    file and an empty directory look alike. -/
inductive Outline where
  | node (name : List UInt8) (children : List Outline)

mutual

def Node.outline : Node → Outline
  | .file name _ _ => .node name.1 []
  | .directory name children => .node name.1 (outlines children)

def outlines : List Node → List Outline
  | [] => []
  | c :: cs => c.outline :: outlines cs

end

mutual

/-- The listing of an outline, as `print_directory_helper` writes it. -/
def Outline.print : Outline → Nat → List UInt8
  | .node name children, level =>
    List.replicate (4 * level) 0x20 ++ name ++ [0x0A] ++ Outline.printAll children (level + 1)

def Outline.printAll : List Outline → Nat → List UInt8
  | [], _ => []
  | o :: os, level => o.print level ++ Outline.printAll os level

end

/-- The remainder after a subtree listed at depth `e - 1` or deeper: nothing, or a line
    indented fewer than `e` levels. -/
def StartsAbove (e : Nat) (r : List UInt8) : Prop :=
  r = [] ∨ ∃ k < e, ∃ y, Unindented y ∧ r = List.replicate (4 * k) 0x20 ++ y

section Listing

mutual

/-- The listing shows only the outline. -/
theorem print_outline : ∀ (t : Node) (d : Nat), printDirectoryHelper t d = t.outline.print d
  | .file name _ _, d => by simp [printDirectoryHelper, listingLine, Node.outline, Outline.print, Outline.printAll]
  | .directory name children, d => by
    simp [printDirectoryHelper, listingLine, Node.outline, Outline.print, printChildren_outlines children]

theorem printChildren_outlines : ∀ (cs : List Node) (d : Nat), printChildren cs d = Outline.printAll (outlines cs) d
  | [], _ => rfl
  | c :: cs, d => by simp [printChildren, outlines, Outline.printAll, print_outline c, printChildren_outlines cs]

end

/-- A name followed by a newline: its first four bytes are not all spaces, whatever follows. -/
theorem unindented_append_newline {n : List UInt8} (hu : Unindented n) (x : List UInt8) :
    Unindented (n ++ 0x0A :: x) := by
  intro hp
  rw [List.prefix_iff_eq_take] at hp
  simp only [List.length_cons, List.length_nil, Nat.reduceAdd] at hp
  by_cases hn : 4 ≤ n.length
  · rw [List.take_append_of_le_length hn] at hp
    exact hu (hp ▸ List.take_prefix _ _)
  · have h4 : 4 - n.length = (3 - n.length) + 1 := by omega
    rw [List.take_append_eq_append_take, List.take_of_length_le (by omega), h4, List.take_succ_cons] at hp
    have : (0x0A : UInt8) ∈ [(0x20 : UInt8), 0x20, 0x20, 0x20] := by rw [hp]; simp
    exact absurd this (by decide)

theorem replicate_four_succ (k : Nat) :
    List.replicate (4 * (k + 1)) (0x20 : UInt8) = [0x20, 0x20, 0x20, 0x20] ++ List.replicate (4 * k) 0x20 := by
  rw [show 4 * (k + 1) = 4 + 4 * k by omega, List.replicate_add]
  rfl

/-- Lines indented to different depths differ. -/
theorem indent_inj : ∀ {a b : Nat} {x y : List UInt8}, Unindented x → Unindented y →
    List.replicate (4 * a) 0x20 ++ x = List.replicate (4 * b) 0x20 ++ y → a = b ∧ x = y
  | 0, 0, _, _, _, _, h => ⟨rfl, by simpa using h⟩
  | 0, b + 1, _, y, hx, _, h => by
    simp only [Nat.mul_zero, List.replicate_zero, List.nil_append] at h
    exact absurd ⟨List.replicate (4 * b) 0x20 ++ y, by rw [h, replicate_four_succ, List.append_assoc]⟩ hx
  | a + 1, 0, x, _, _, hy, h => by
    simp only [Nat.mul_zero, List.replicate_zero, List.nil_append] at h
    exact absurd ⟨List.replicate (4 * a) 0x20 ++ x, by rw [← h, replicate_four_succ, List.append_assoc]⟩ hy
  | a + 1, b + 1, _, _, hx, hy, h => by
    simp only [replicate_four_succ, List.append_assoc, List.append_cancel_left_eq] at h
    obtain ⟨rfl, rfl⟩ := indent_inj hx hy h
    exact ⟨rfl, rfl⟩

theorem append_newline_inj : ∀ {n₁ n₂ x₁ x₂ : List UInt8}, 0x0A ∉ n₁ → 0x0A ∉ n₂ →
    n₁ ++ 0x0A :: x₁ = n₂ ++ 0x0A :: x₂ → n₁ = n₂ ∧ x₁ = x₂
  | [], [], _, _, _, _, h => ⟨rfl, by simpa using h⟩
  | [], _ :: _, _, _, _, h₂, h => by
    simp only [List.nil_append, List.cons_append, List.cons.injEq] at h
    exact absurd (h.1 ▸ List.mem_cons_self _ _) h₂
  | _ :: _, [], _, _, h₁, _, h => by
    simp only [List.nil_append, List.cons_append, List.cons.injEq] at h
    exact absurd (h.1 ▸ List.mem_cons_self _ _) h₁
  | _ :: _, _ :: _, _, _, h₁, h₂, h => by
    simp only [List.cons_append, List.cons.injEq] at h
    obtain ⟨rfl, rfl⟩ := append_newline_inj (List.not_mem_of_not_mem_cons h₁) (List.not_mem_of_not_mem_cons h₂) h.2
    exact ⟨congrArg (· :: _) h.1, rfl⟩

/-- Two lines at one depth, of listable names: the names and what follows them agree. -/
theorem line_inj {d : Nat} {n₁ n₂ : CString} {x₁ x₂ : List UInt8} (h₁ : ListableName n₁) (h₂ : ListableName n₂)
    (h : listingLine d n₁ ++ x₁ = listingLine d n₂ ++ x₂) : n₁ = n₂ ∧ x₁ = x₂ := by
  simp only [listingLine, List.append_assoc, List.singleton_append, List.append_cancel_left_eq] at h
  obtain ⟨hn, rfl⟩ := append_newline_inj h₁.1 h₂.1 h
  exact ⟨Subtype.ext hn, rfl⟩

theorem Node.Listable.name {t : Node} (ht : t.Listable) : ListableName t.name := by
  cases ht <;> assumption

/-- A node's listing starts with its line. -/
theorem print_head : ∀ (t : Node) (d : Nat), ∃ x, printDirectoryHelper t d = List.replicate (4 * d) 0x20 ++ (t.name.1 ++ 0x0A :: x)
  | .file _ _ _, _ => ⟨[], by simp [printDirectoryHelper, listingLine, Node.name]⟩
  | .directory _ cs, d => ⟨printChildren cs (d + 1), by simp [printDirectoryHelper, listingLine, Node.name]⟩

theorem startsAbove_print {t : Node} (ht : t.Listable) (d : Nat) (r : List UInt8) :
    StartsAbove (d + 1) (printDirectoryHelper t d ++ r) := by
  obtain ⟨x, hx⟩ := print_head t d
  exact .inr ⟨d, Nat.lt_succ_self d, _, unindented_append_newline ht.name.2 (x ++ r), by simp [hx]⟩

theorem startsAbove_printChildren {cs : List Node} (hcs : ∀ c ∈ cs, c.Listable) {e : Nat} {r : List UInt8}
    (hr : StartsAbove e r) : StartsAbove (e + 1) (printChildren cs e ++ r) := by
  cases cs with
  | nil =>
    rcases hr with rfl | ⟨k, hk, y, hy, rfl⟩
    · exact .inl rfl
    · exact .inr ⟨k, by omega, y, hy, rfl⟩
  | cons c cs =>
    rw [printChildren, List.append_assoc]
    exact startsAbove_print (hcs c (List.mem_cons_self _ _)) e _

/-- What follows a subtree at depth `e - 1` is no child's listing at depth `e`. -/
theorem printChildren_eq_nil {cs : List Node} (hcs : ∀ c ∈ cs, c.Listable) {e : Nat} {r r' : List UInt8}
    (hr : StartsAbove e r) (h : r = printChildren cs e ++ r') : cs = [] := by
  cases cs with
  | nil => rfl
  | cons c cs =>
    obtain ⟨x, hx⟩ := print_head c e
    rw [printChildren, hx] at h
    rcases hr with rfl | ⟨k, hk, y, hy, rfl⟩
    · simp at h
    · have h' : List.replicate (4 * k) 0x20 ++ y =
          List.replicate (4 * e) 0x20 ++ (c.name.1 ++ 0x0A :: (x ++ (printChildren cs e ++ r'))) := by
        rw [h]; simp only [List.append_assoc, List.cons_append]
      have := indent_inj hy (unindented_append_newline (hcs c (List.mem_cons_self _ _)).name.2 _) h'
      omega

mutual

/-- Two listable subtrees at one depth, each followed by a shallower line or nothing, with the
    same listing, have the same outline, and what follows them is the same. -/
theorem print_inj : ∀ (t₁ t₂ : Node) (d : Nat) (r₁ r₂ : List UInt8), t₁.Listable → t₂.Listable →
    StartsAbove (d + 1) r₁ → StartsAbove (d + 1) r₂ →
    printDirectoryHelper t₁ d ++ r₁ = printDirectoryHelper t₂ d ++ r₂ → t₁.outline = t₂.outline ∧ r₁ = r₂
  | .file _ _ _, .file _ _ _, _, _, _, .file h₁, .file h₂, _, _, h => by
    obtain ⟨rfl, rfl⟩ := line_inj h₁ h₂ h
    exact ⟨rfl, rfl⟩
  | .file _ _ _, .directory _ _, _, _, _, .file h₁, .directory h₂ hcs₂, hr₁, _, h => by
    rw [printDirectoryHelper, printDirectoryHelper, List.append_assoc] at h
    obtain ⟨rfl, hr⟩ := line_inj h₁ h₂ h
    obtain rfl := printChildren_eq_nil hcs₂ hr₁ hr
    exact ⟨rfl, hr⟩
  | .directory _ _, .file _ _ _, _, _, _, .directory h₁ hcs₁, .file h₂, _, hr₂, h => by
    rw [printDirectoryHelper, printDirectoryHelper, List.append_assoc] at h
    obtain ⟨rfl, hr⟩ := line_inj h₁ h₂ h
    obtain rfl := printChildren_eq_nil hcs₁ hr₂ hr.symm
    exact ⟨rfl, hr⟩
  | .directory _ cs₁, .directory _ cs₂, d, r₁, r₂, .directory h₁ hcs₁, .directory h₂ hcs₂, hr₁, hr₂, h => by
    rw [printDirectoryHelper, printDirectoryHelper, List.append_assoc, List.append_assoc] at h
    obtain ⟨rfl, hc⟩ := line_inj h₁ h₂ h
    obtain ⟨ho, rfl⟩ := printChildren_inj cs₁ cs₂ (d + 1) r₁ r₂ hcs₁ hcs₂ hr₁ hr₂ hc
    exact ⟨by rw [Node.outline, Node.outline, ho], rfl⟩

theorem printChildren_inj : ∀ (cs₁ cs₂ : List Node) (e : Nat) (r₁ r₂ : List UInt8), (∀ c ∈ cs₁, c.Listable) →
    (∀ c ∈ cs₂, c.Listable) → StartsAbove e r₁ → StartsAbove e r₂ →
    printChildren cs₁ e ++ r₁ = printChildren cs₂ e ++ r₂ → outlines cs₁ = outlines cs₂ ∧ r₁ = r₂
  | [], _, _, _, _, _, hcs₂, hr₁, _, h => by
    obtain rfl := printChildren_eq_nil hcs₂ hr₁ h
    exact ⟨rfl, h⟩
  | _ :: _, [], _, _, _, hcs₁, _, _, hr₂, h => nomatch printChildren_eq_nil hcs₁ hr₂ h.symm
  | c₁ :: cs₁, c₂ :: cs₂, e, r₁, r₂, hcs₁, hcs₂, hr₁, hr₂, h => by
    simp only [printChildren, List.append_assoc] at h
    have hl₁ : ∀ c ∈ cs₁, c.Listable := fun c hc => hcs₁ c (List.mem_cons_of_mem _ hc)
    have hl₂ : ∀ c ∈ cs₂, c.Listable := fun c hc => hcs₂ c (List.mem_cons_of_mem _ hc)
    obtain ⟨ho, h⟩ := print_inj c₁ c₂ e _ _ (hcs₁ c₁ (List.mem_cons_self _ _)) (hcs₂ c₂ (List.mem_cons_self _ _))
      (startsAbove_printChildren hl₁ hr₁) (startsAbove_printChildren hl₂ hr₂) h
    obtain ⟨hos, rfl⟩ := printChildren_inj cs₁ cs₂ e r₁ r₂ hl₁ hl₂ hr₁ hr₂ h
    exact ⟨by rw [outlines, outlines, ho, hos], rfl⟩

end

/-- `print_directory_tree` shows a tree faithfully: two trees whose names hold no newline and do
    not start with four spaces print the same listing exactly when they have the same names in
    the same shape (a file and an empty directory look alike). -/
theorem print_directory_tree_iff (t₁ t₂ : Node) (h₁ : t₁.Listable) (h₂ : t₂.Listable) :
    printDirectoryTree t₁ = printDirectoryTree t₂ ↔ t₁.outline = t₂.outline := by
  constructor
  · intro h
    exact (print_inj t₁ t₂ 0 [] [] h₁ h₂ (.inl rfl) (.inl rfl) (by simpa [printDirectoryTree] using h)).1
  · intro h
    rw [printDirectoryTree, printDirectoryTree, print_outline, print_outline, h]

/-- The sample tree with `B` an empty directory in place of its file. -/
def sampleTreeEmptyB : Node :=
  .directory rootName [.directory ⟨[0x41], by decide⟩ [.file ⟨[0x43], by decide⟩ 1 [9]],
    .directory ⟨[0x42], by decide⟩ []]

theorem sampleTree_listable : sampleTree.Listable :=
  .directory (by decide) fun c hc => by
    simp only [sampleTree, sampleRoot, DirectoryNode.toNode, List.mem_cons, List.mem_singleton,
      List.not_mem_nil, or_false] at hc
    rcases hc with rfl | rfl
    · exact .directory (by decide) fun c hc => by
        rw [List.mem_singleton] at hc
        exact hc ▸ .file (by decide)
    · exact .file (by decide)

theorem sampleTreeEmptyB_listable : sampleTreeEmptyB.Listable :=
  .directory (by decide) fun c hc => by
    simp only [sampleTreeEmptyB, List.mem_cons, List.mem_singleton, List.not_mem_nil, or_false] at hc
    rcases hc with rfl | rfl
    · exact .directory (by decide) fun c hc => by
        rw [List.mem_singleton] at hc
        exact hc ▸ .file (by decide)
    · exact .directory (by decide) fun _ h => nomatch h

/-- The file `B` and an empty directory `B` list alike. -/
theorem sample_listings_agree :
    sampleTree.Listable ∧ sampleTreeEmptyB.Listable ∧ printDirectoryTree sampleTree = printDirectoryTree sampleTreeEmptyB :=
  ⟨sampleTree_listable, sampleTreeEmptyB_listable,
    (print_directory_tree_iff sampleTree sampleTreeEmptyB sampleTree_listable sampleTreeEmptyB_listable).2 rfl⟩

end Listing

/-! ## A second copy -/

mutual

/-- `helper_directory_tree` changes only `filename/name` and the paths under it, whatever
    the tree. -/
theorem helperDirectoryTree_frame : ∀ (t : Node) (base : List UInt8) (fs fs' : FileSystem),
    helperDirectoryTree t base fs = .ok fs' → ∀ q, fs'.entry q ≠ fs.entry q → ∃ r, q = base ++ slash :: (t.name.1 ++ r)
  | .file name _ _, base, fs, fs', h, q, hq => by
    simp only [helperDirectoryTree, fopen, fwrite] at h
    split_ifs at h
    cases h
    refine ⟨[], ?_⟩
    by_contra hne
    simp only [Node.name, List.append_nil] at hne
    simp [hne] at hq
  | .directory name children, base, fs, fs', h, q, hq => by
    simp only [helperDirectoryTree, mkdir] at h
    split_ifs at h
    by_cases hqp : q = base ++ slash :: name.1
    · exact ⟨[], by simp [hqp, Node.name]⟩
    · obtain ⟨c, -, r, rfl⟩ := helperChildren_frame children _ _ fs' h q (by rwa [FileSystem.set_entry, if_neg hqp])
      exact ⟨slash :: (c.name.1 ++ r), by simp [Node.name]⟩

theorem helperChildren_frame : ∀ (cs : List Node) (dir : List UInt8) (fs fs' : FileSystem),
    helperChildren cs dir fs = .ok fs' → ∀ q, fs'.entry q ≠ fs.entry q →
      ∃ c ∈ cs, ∃ r, q = dir ++ slash :: (c.name.1 ++ r)
  | [], _, _, _, h, _, hq => by cases h; exact absurd rfl hq
  | c :: cs, dir, fs, fs', h, q, hq => by
    simp only [helperChildren, bind, Except.bind] at h
    split at h
    · cases h
    · rename_i fs₁ h₁
      by_cases hq₁ : fs₁.entry q = fs.entry q
      · obtain ⟨c', hc', r, rfl⟩ := helperChildren_frame cs dir fs₁ fs' h q (by rwa [hq₁])
        exact ⟨c', List.mem_cons_of_mem _ hc', r, rfl⟩
      · exact ⟨c, List.mem_cons_self _ _, helperDirectoryTree_frame c dir fs fs₁ h₁ q hq₁⟩

end

/-- A copy leaves `./name` a directory, so copying a directory tree again into the same working
    directory fails the first `mkdir`'s assertion, whatever the trees and the file system. -/
theorem create_directory_tree_twice (name : CString) (children : List Node) (fs fs' : FileSystem)
    (h : createDirectoryTree (.directory name children) fs = .ok fs') :
    createDirectoryTree (.directory name children) fs' = .error .assertion := by
  have hdir : fs'.entry ([dot] ++ slash :: name.1) = some .directory := by
    simp only [createDirectoryTree, helperDirectoryTree, mkdir] at h
    split_ifs at h
    by_contra hne
    obtain ⟨c, -, r, hr⟩ := helperChildren_frame children _ _ fs' h ([dot] ++ slash :: name.1)
      (by rwa [FileSystem.set_entry, if_pos rfl])
    exact append_slash_ne _ _ hr.symm
  rw [createDirectoryTree, helperDirectoryTree, mkdir, if_neg fun hc => by rw [hdir] at hc; exact nomatch hc.2.2]

/-- The sample tree, copied into an empty working directory and copied again. -/
theorem sampleTree_twice :
    createDirectoryTree sampleTree emptyCwd = .ok (emptyCwd.setAll (sampleTree.paths [dot])) ∧
      createDirectoryTree sampleTree (emptyCwd.setAll (sampleTree.paths [dot])) = .error .assertion :=
  have h := helperDirectoryTree_spec sampleTree [dot] emptyCwd rfl sampleTree_distinct sampleTree_sized (by decide)
  ⟨h, create_directory_tree_twice _ _ _ _ h⟩

/-! ## The walker's copy -/

theorem Node.Good.sized {t : Node} (ht : t.Good) : t.Sized := by
  induction ht with
  | file _ hl => exact .file hl.ge
  | directory _ _ ih => exact .directory ih

section Walk

variable {E B : Type} (h : Header E B) (disk : List UInt8)

/-- What `main` copies: the tree it reads from any image is written under `./ROOT` exactly
    (every file with the bytes `fread` read for it) whenever no directory has two visible
    entries of one name and every name is one path component. The files need nothing more:
    the walk reads each file's `file_size` bytes. -/
theorem main_copies_image (fuel : Nat) (root : Node) (hr : main h disk fuel = .ok root) (hd : root.Distinct)
    (fs : FileSystem) (hcwd : fs.entry [dot] = some .directory)
    (hfresh : ∀ pe ∈ root.paths [dot], fs.entry pe.1 = none) :
    createDirectoryTree root fs = .ok (fs.setAll (root.paths [dot])) := by
  have hg : root.Good := by
    unfold main at hr
    split at hr
    · cases hr
    · simp only [Except.map] at hr
      split at hr
      · cases hr
      · cases hr
        exact (follow_good h disk _ fuel _ _ _ (DirectoryGood.init none) ‹_›).toNode
  exact helperDirectoryTree_spec root [dot] fs hcwd hd hg.sized hfresh

set_option maxRecDepth 3000 in
/-- The sample image's tree, read by `main` and copied into an empty working directory. -/
theorem sampleDisk_copies :
    main sampleHeader sampleDisk 10 = .ok sampleTree ∧ sampleTree.Distinct ∧
      emptyCwd.entry [dot] = some .directory ∧ (∀ pe ∈ sampleTree.paths [dot], emptyCwd.entry pe.1 = none) ∧
      createDirectoryTree sampleTree emptyCwd = .ok (emptyCwd.setAll (sampleTree.paths [dot])) :=
  ⟨rfl, sampleTree_distinct, rfl, by decide,
    main_copies_image sampleHeader sampleDisk 10 sampleTree rfl sampleTree_distinct emptyCwd rfl (by decide)⟩

end Walk

end Cs24.Fat16
