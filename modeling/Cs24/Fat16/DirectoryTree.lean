/-
  Cs24.Fat16.DirectoryTree — `add_child_directory_tree` (directory_tree.c), the sorted
  insertion the FAT16 walker builds its tree with.

  A directory node's `children` are `num_children` pointers; the function `realloc`s
  one more slot (uninitialised: `junk`), walks `position` past every child whose name
  `strcmp`s below the new child's, shifts the tail up one slot from the end, and writes
  the child at `position`. Names are C strings: byte lists without a NUL
  (`CString`). `strcmp` compares them as the C library does, by the first differing
  byte read as `unsigned char`, a proper prefix comparing below.

  Proved:
  - `addChildDirectoryTree_eq`: the C loops compute `insertByName`, the insertion before
    the first child not below the new one;
  - `add_child_directory_tree_sorted`: from children sorted by name, one call adds
    exactly the new child, keeps them sorted and puts it before every child of equal
    name; every sequence of calls from `init_directory_node` leaves the inserted nodes
    sorted by name.
-/

import Mathlib.Data.List.Sort

namespace Cs24.Fat16

/-- A C string's bytes, without its terminating NUL. -/
def CString : Type := { s : List UInt8 // 0 ∉ s }

/-- Modelled from the C library: `strcmp(s1, s2)`, the difference of the first bytes that
    differ, as `unsigned char`, the NUL ending the shorter string included. -/
def strcmp : List UInt8 → List UInt8 → Int
  | [], [] => 0
  | [], b :: _ => -(b.toNat : Int)
  | a :: _, [] => a.toNat
  | a :: as, b :: bs => if a = b then strcmp as bs else (a.toNat : Int) - b.toNat

theorem strcmp_swap : ∀ s t : List UInt8, strcmp t s = -strcmp s t
  | [], [] => rfl
  | [], b :: _ => by simp [strcmp]
  | a :: _, [] => by simp [strcmp]
  | a :: as, b :: bs => by
    by_cases h : a = b
    · subst h; simp [strcmp, strcmp_swap as bs]
    · simp only [strcmp, if_neg h, if_neg (Ne.symm h)]; omega

theorem toNat_pos_of_not_mem {a : UInt8} {s : List UInt8} (h : 0 ∉ a :: s) : 0 < a.toNat :=
  Nat.pos_of_ne_zero fun e => h (by rw [show a = 0 from UInt8.toNat.inj e]; exact List.mem_cons_self _ _)

theorem strcmp_cons_nonpos {a b : UInt8} {as bs : List UInt8} :
    strcmp (a :: as) (b :: bs) ≤ 0 ↔ a.toNat < b.toNat ∨ (a = b ∧ strcmp as bs ≤ 0) := by
  simp only [strcmp]
  split_ifs with h
  · subst h; simp
  · have : a.toNat ≠ b.toNat := fun e => h (UInt8.toNat.inj e)
    simp only [h, false_and, or_false]
    omega

/-- On NUL-free strings, `strcmp … ≤ 0` is transitive. -/
theorem strcmp_trans : ∀ {s t u : List UInt8}, 0 ∉ s → 0 ∉ t → 0 ∉ u →
    strcmp s t ≤ 0 → strcmp t u ≤ 0 → strcmp s u ≤ 0
  | [], _, [], _, _, _, _, _ => le_refl _
  | [], _, _ :: _, _, _, _, _, _ => by simp only [strcmp]; omega
  | _ :: _, [], _, ha, _, _, h, _ => by
    have := toNat_pos_of_not_mem ha
    simp [strcmp] at h; omega
  | _ :: _, _ :: _, [], _, hb, _, _, h => by
    have := toNat_pos_of_not_mem hb
    simp [strcmp] at h; omega
  | _ :: _, _ :: _, _ :: _, ha, hb, hc, h1, h2 => by
    rw [strcmp_cons_nonpos] at h1 h2 ⊢
    rcases h1 with h1 | ⟨rfl, h1⟩ <;> rcases h2 with h2 | ⟨rfl, h2⟩
    · exact .inl (by omega)
    · exact .inl h1
    · exact .inl h2
    · exact .inr ⟨rfl, strcmp_trans (List.not_mem_of_not_mem_cons ha) (List.not_mem_of_not_mem_cons hb)
        (List.not_mem_of_not_mem_cons hc) h1 h2⟩

/-! ## The function -/

/-- `directory_node_t`, with `children[0 .. num_children)`. -/
structure DirectoryNode (α : Type) where
  name : CString
  numChildren : Nat
  children : List α
  length_children : children.length = numChildren

/-- `strdup("ROOT")`, the name `init_node` gives a node named `NULL`. -/
def rootName : CString := ⟨[0x52, 0x4f, 0x4f, 0x54], by decide⟩

instance : Inhabited CString := ⟨rootName⟩

/-- `init_directory_node(name)`: no children. -/
def initDirectoryNode {α : Type} (name : Option CString) : DirectoryNode α :=
  ⟨name.getD rootName, 0, [], rfl⟩

section Insert

variable {α : Type} (name : α → CString)

/-- The `while` loop: `position` steps past each child whose name `strcmp`s below `child`'s. -/
def searchPosition (child : α) : List α → Nat
  | [] => 0
  | c :: cs => if strcmp (name c).1 (name child).1 < 0 then searchPosition child cs + 1 else 0

/-- The `for` loop: `children[i] = children[i - 1]` for `i` from `num_children` down to
    `position + 1`. -/
def shiftUp [Inhabited α] (position : Nat) : Nat → List α → List α
  | 0, arr => arr
  | i + 1, arr => if position < i + 1 then shiftUp position i (arr.set (i + 1) (arr.getD i default)) else arr

theorem length_shiftUp [Inhabited α] (position i : Nat) (arr : List α) : (shiftUp position i arr).length = arr.length := by
  induction i generalizing arr with
  | zero => rfl
  | succ i ih =>
    unfold shiftUp
    split_ifs
    · rw [ih, List.length_set]
    · rfl

/-- `add_child_directory_tree(dnode, child)`: `junk` is the slot `realloc` adds. A `NULL`
    child changes nothing. -/
def addChildDirectoryTree [Inhabited α] (junk : α) (dnode : DirectoryNode α) : Option α → DirectoryNode α
  | none => dnode
  | some child =>
    let newChildren := dnode.children ++ [junk]
    let position := searchPosition name child dnode.children
    ⟨dnode.name, dnode.numChildren + 1,
      (shiftUp position dnode.numChildren newChildren).set position child,
      by simp [newChildren, length_shiftUp, dnode.length_children]⟩

/-- What the function is for: `child` goes before the first child whose name does not
    compare below its own. -/
def insertByName (child : α) : List α → List α
  | [] => [child]
  | c :: cs => if strcmp (name c).1 (name child).1 < 0 then c :: insertByName child cs else child :: c :: cs

theorem searchPosition_le (child : α) (cs : List α) : searchPosition name child cs ≤ cs.length := by
  induction cs with
  | nil => exact le_refl 0
  | cons c cs ih => unfold searchPosition; split_ifs <;> simp; omega

theorem insertByName_eq (child : α) (cs : List α) :
    insertByName name child cs =
      cs.take (searchPosition name child cs) ++ child :: cs.drop (searchPosition name child cs) := by
  induction cs with
  | nil => rfl
  | cons c cs ih => unfold insertByName searchPosition; split_ifs <;> simp [ih]

/-- The shift loop, run from slot `i` down to `position`, moves the tail up by one and
    leaves a copy (or, if nothing moved, the old slot) at `position`. -/
theorem shiftUp_take_drop [Inhabited α] {position : Nat} (cs : List α) :
    ∀ i, position ≤ i → i ≤ cs.length → ∀ j, ∃ j', shiftUp position i (cs.take i ++ j :: cs.drop i) =
      cs.take position ++ j' :: cs.drop position
  | 0, hp, _, j => ⟨j, by rw [Nat.le_zero.1 hp]; rfl⟩
  | i + 1, hp, hi, j => by
    unfold shiftUp
    split_ifs with hlt
    · have hget : (cs.take (i + 1) ++ j :: cs.drop (i + 1)).getD i default = cs[i] := by
        rw [List.getD_eq_getElem?_getD, List.getElem?_append_left (by simp; omega),
          List.getElem?_take_of_lt (by omega), List.getElem?_eq_getElem (by omega), Option.getD_some]
      have hset : (cs.take (i + 1) ++ j :: cs.drop (i + 1)).set (i + 1) cs[i] =
          cs.take i ++ cs[i] :: cs.drop i := by
        rw [List.set_append_right _ _ (by simp only [List.length_take]; omega), List.length_take,
          Nat.min_eq_left (by omega), Nat.sub_self, List.set_cons_zero, List.take_succ,
          List.getElem?_eq_getElem (by omega), List.drop_eq_getElem_cons (n := i) (by omega)]
        simp only [Option.toList_some, List.append_assoc, List.singleton_append]
      rw [hget, hset]
      exact shiftUp_take_drop cs i (by omega) (by omega) cs[i]
    · exact ⟨j, by rw [show position = i + 1 by omega]⟩

theorem addChildDirectoryTree_eq [Inhabited α] (junk : α) (d : DirectoryNode α) (child : α) :
    (addChildDirectoryTree name junk d (some child)).children = insertByName name child d.children := by
  have hp := searchPosition_le name child d.children
  obtain ⟨j, hj⟩ := shiftUp_take_drop d.children d.numChildren (d.length_children ▸ hp)
    d.length_children.ge junk
  have hcs : d.children ++ [junk] = d.children.take d.numChildren ++ junk :: d.children.drop d.numChildren := by
    rw [← d.length_children, List.take_length, List.drop_length]
  show (shiftUp _ d.numChildren (d.children ++ [junk])).set _ child = _
  rw [hcs, hj, List.set_append_right _ _ (by simp only [List.length_take]; omega), List.length_take,
    Nat.min_eq_left hp, Nat.sub_self, List.set_cons_zero, insertByName_eq]

/-! ## Sorted by name -/

/-- `a`'s name does not compare above `b`'s. -/
def NameLE (a b : α) : Prop := strcmp (name a).1 (name b).1 ≤ 0

theorem insertByName_perm (child : α) (cs : List α) : (insertByName name child cs).Perm (child :: cs) := by
  induction cs with
  | nil => exact List.Perm.refl _
  | cons c cs ih =>
    unfold insertByName
    split_ifs
    · exact (ih.cons c).trans (List.Perm.swap child c cs)
    · exact List.Perm.refl _

theorem insertByName_sorted (child : α) {cs : List α} (h : cs.Sorted (NameLE name)) :
    (insertByName name child cs).Sorted (NameLE name) := by
  induction cs with
  | nil => exact List.sorted_singleton child
  | cons c cs ih =>
    have hc := List.sorted_cons.1 h
    unfold insertByName
    split_ifs with hlt
    · refine List.sorted_cons.2 ⟨fun b hb => ?_, ih hc.2⟩
      rcases List.mem_cons.1 ((insertByName_perm name child cs).mem_iff.1 hb) with rfl | hb
      · exact le_of_lt hlt
      · exact hc.1 b hb
    · have hle : NameLE name child c := by
        unfold NameLE; rw [strcmp_swap]; omega
      refine List.sorted_cons.2 ⟨fun b hb => ?_, h⟩
      rcases List.mem_cons.1 hb with rfl | hb
      · exact hle
      · exact strcmp_trans (name child).2 (name c).2 (name b).2 hle (hc.1 b hb)

theorem searchPosition_take (child : α) (cs : List α) :
    ∀ c ∈ cs.take (searchPosition name child cs), strcmp (name c).1 (name child).1 < 0 := by
  induction cs with
  | nil => simp
  | cons c cs ih =>
    unfold searchPosition
    split_ifs with hlt
    · intro b hb
      rcases List.mem_cons.1 (by simpa using hb) with rfl | hb
      · exact hlt
      · exact ih b hb
    · simp

/-- One call on sorted children. -/
theorem addChild_sorted [Inhabited α] (junk : α) (d : DirectoryNode α) (child : α)
    (h : d.children.Sorted (NameLE name)) :
    (addChildDirectoryTree name junk d (some child)).children.Sorted (NameLE name) ∧
    (addChildDirectoryTree name junk d (some child)).children.Perm (d.children ++ [child]) := by
  rw [addChildDirectoryTree_eq]
  exact ⟨insertByName_sorted name child h,
    (insertByName_perm name child _).trans (List.perm_append_singleton child _).symm⟩

/-- A run of calls from sorted children. -/
theorem addChildren_sorted [Inhabited α] (calls : List (α × Option α)) :
    ∀ d : DirectoryNode α, d.children.Sorted (NameLE name) →
      let d' := calls.foldl (fun d c => addChildDirectoryTree name c.1 d c.2) d
      d'.children.Sorted (NameLE name) ∧ d'.children.Perm (d.children ++ calls.filterMap Prod.snd) := by
  induction calls with
  | nil => intro d h; exact ⟨h, by simp⟩
  | cons c calls ih =>
    rintro d h
    obtain ⟨junk, _ | child⟩ := c
    · simpa using ih d h
    · obtain ⟨hs, hp⟩ := addChild_sorted name junk d child h
      obtain ⟨hs', hp'⟩ := ih _ hs
      refine ⟨hs', hp'.trans ?_⟩
      simpa using hp.append_right (calls.filterMap Prod.snd)

theorem add_child_directory_tree_sorted [Inhabited α] :
    (∀ (junk : α) (d : DirectoryNode α) (child : α), d.children.Sorted (NameLE name) →
      let d' := addChildDirectoryTree name junk d (some child)
      d'.numChildren = d.numChildren + 1 ∧ d'.children.Sorted (NameLE name) ∧
      d'.children.Perm (d.children ++ [child]) ∧
      ∃ pre post, d.children = pre ++ post ∧ d'.children = pre ++ child :: post ∧
        ∀ c ∈ pre, strcmp (name c).1 (name child).1 < 0) ∧
    (∀ (nm : Option CString) (calls : List (α × Option α)),
      let d := calls.foldl (fun d c => addChildDirectoryTree name c.1 d c.2) (initDirectoryNode nm)
      d.children.Sorted (NameLE name) ∧ d.children.Perm (calls.filterMap Prod.snd)) := by
  refine ⟨fun junk d child h => ⟨rfl, (addChild_sorted name junk d child h).1,
    (addChild_sorted name junk d child h).2, _, _, (List.take_append_drop _ _).symm, ?_,
    searchPosition_take name child d.children⟩, fun nm calls => ?_⟩
  · rw [addChildDirectoryTree_eq, insertByName_eq]
  · simpa using addChildren_sorted name calls (initDirectoryNode nm) List.sorted_nil

end Insert

/-- `B` added to a node whose children are `A` and `C` goes between them. -/
theorem add_between :
    let a : CString := ⟨[0x41], by decide⟩
    let b : CString := ⟨[0x42], by decide⟩
    let c : CString := ⟨[0x43], by decide⟩
    [a, c].Sorted (NameLE id) ∧
      (addChildDirectoryTree id a ⟨rootName, 2, [a, c], rfl⟩ (some b)).children = [a, b, c] ∧
      (addChildDirectoryTree id a ⟨rootName, 2, [a, c], rfl⟩ (some b)).children.Sorted (NameLE id) :=
  have h : [(⟨[0x41], by decide⟩ : CString), ⟨[0x43], by decide⟩].Sorted (NameLE id) := by
    simp [NameLE, strcmp]
  ⟨h, rfl, ((add_child_directory_tree_sorted id).1 _ _ ⟨[0x42], by decide⟩ h).2.1⟩

end Cs24.Fat16
