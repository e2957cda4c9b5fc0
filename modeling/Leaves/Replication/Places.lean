import Leaves.Replication.Hash
import Mathlib.Data.List.Nodup

/-!
The offsets of a hash trie: an offset is told from all others by its place, the indices
of the arrays on the way to it.
-/

namespace Leaves
namespace HashTree

/-- Induction over hash tries with the hypothesis for every child at once. -/
theorem induct {P : HashTree → Prop} (leaf : ∀ p k, P (.leaf p k))
    (node : ∀ p c arr, (∀ x ∈ arr, P x.2) → P (.node p c arr)) (t : HashTree) : P t :=
  @HashTree.rec P (fun arr => ∀ x ∈ arr, P x.2) (fun x => P x.2)
    leaf node (by simp)
    (by
      intro x arr hx harr y hy
      rcases List.mem_cons.mp hy with rfl | hy
      . exact hx
      . exact harr y hy)
    (fun _ _ h => h) t

/-- What a node adds to the path: its compressed string, for a leaf its branch only. -/
def label : HashTree → Key
  | .leaf _ b => b.toList
  | .node _ c _ => c

def array : HashTree → List (Branch × HashTree)
  | .leaf _ _ => []
  | .node _ _ arr => arr

/-- A trie hangs under the first byte of its string. -/
def Hangs (x : Branch × HashTree) : Prop := x.2.label.head? = x.1 ∧ (x.1 = none → x.2.type = .leaf)

def WF : HashTree → Prop
  | .leaf _ _ => True
  | .node _ _ arr => arr ≠ [] ∧ Branches.Sorted arr ∧ (∀ x ∈ arr, Hangs x) ∧ go arr
where
  go : List (Branch × HashTree) → Prop
    | [] => True
    | (_, t) :: arr => t.WF ∧ go arr

theorem wf_go_iff (arr : List (Branch × HashTree)) : WF.go arr ↔ ∀ x ∈ arr, x.2.WF := by
  induction arr with
  | nil => simp [WF.go]
  | cons x arr ih => simp [WF.go, ih]

@[simp]
theorem wf_leaf {p : HashPage} {b : Branch} : (leaf p b).WF := trivial

@[simp]
theorem wf_node {p : HashPage} {c : Key} {arr : List (Branch × HashTree)} :
    (node p c arr).WF ↔
      arr ≠ [] ∧ Branches.Sorted arr ∧ (∀ x ∈ arr, Hangs x) ∧ ∀ x ∈ arr, x.2.WF := by
  simp [WF, wf_go_iff]

theorem head_label_deepCopy (blake3 : List UInt8 → List UInt8) (db : HashSource) (p : Key)
    (t : Tree) : (deepCopy blake3 db p t).label.head? = t.head := by
  cases t with
  | leaf a k v => cases k <;> rfl
  | node a c arr => rfl

/-- The copy of a trie is a hash trie. -/
theorem wf_deepCopy (blake3 : List UInt8 → List UInt8) (db : HashSource) {p : Key} {t : Tree}
    (h : t.WF) : (deepCopy blake3 db p t).WF := by
  induction t using Tree.induct generalizing p with
  | leaf a k v => simp [createLeafHash]
  | node a c arr ih =>
    obtain ⟨-, hne, hsort, hhang, hwf⟩ := Tree.wf_node.mp h
    rw [deepCopy_node, createTrieHash, wf_node]
    refine ⟨?_, (Branches.sorted_mapSnd _ _).mpr hsort, ?_, ?_⟩
    . simpa [Branches.mapSnd] using hne
    . intro y hy
      obtain ⟨x, hx, rfl⟩ := List.mem_map.mp hy
      obtain ⟨hhead, hnone⟩ := hhang x hx
      refine ⟨?_, ?_⟩
      . rw [head_label_deepCopy]
        exact hhead
      . intro hb
        rw [type_deepCopy, hnone hb]
        rfl
    . intro y hy
      obtain ⟨x, hx, rfl⟩ := List.mem_map.mp hy
      exact ih x hx (hwf x hx)

end HashTree

/-- A `hash_offset_e`: where it is, the path to its node, and the node it refers to. -/
structure HashOffset where
  place : List Nat
  path : Key
  tree : HashTree
  deriving Inhabited

namespace HashOffset

/-- The path with the string of the node itself. -/
def key (s : HashOffset) : Key := s.path ++ s.tree.label

/-- The offsets of an array from the index `i` on. -/
def ofArray (place : List Nat) (path : Key) : Nat → List (Branch × HashTree) → List HashOffset
  | _, [] => []
  | i, (_, t) :: arr => ⟨place ++ [i], path, t⟩ :: ofArray place path (i + 1) arr

def children (s : HashOffset) : List HashOffset := ofArray s.place s.key 0 s.tree.array

theorem length_ofArray (place : List Nat) (path : Key) (i : Nat)
    (arr : List (Branch × HashTree)) : (ofArray place path i arr).length = arr.length := by
  induction arr generalizing i with
  | nil => rfl
  | cons x arr ih => simp [ofArray, ih]

@[simp]
theorem length_children (s : HashOffset) : s.children.length = s.tree.array.length :=
  length_ofArray s.place s.key 0 s.tree.array

theorem mem_ofArray {place : List Nat} {path : Key} {i : Nat} {arr : List (Branch × HashTree)}
    {s : HashOffset} (h : s ∈ ofArray place path i arr) :
    ∃ j, i ≤ j ∧ s.place = place ++ [j] ∧ s.path = path ∧ ∃ b, (b, s.tree) ∈ arr := by
  induction arr generalizing i with
  | nil => simp [ofArray] at h
  | cons x arr ih =>
    rw [ofArray] at h
    rcases List.mem_cons.mp h with rfl | h
    . exact ⟨i, Nat.le_refl i, rfl, rfl, x.1, by simp⟩
    . obtain ⟨j, hj, hplace, hpath, b, hb⟩ := ih h
      exact ⟨j, by omega, hplace, hpath, b, List.mem_cons_of_mem _ hb⟩

end HashOffset

namespace HashTree

/-- All offsets below one that refers to the node, and itself. -/
def offsets : List Nat → Key → HashTree → List HashOffset
  | place, path, .leaf p b => [⟨place, path, .leaf p b⟩]
  | place, path, .node p c arr => ⟨place, path, .node p c arr⟩ :: go place (path ++ c) 0 arr
where
  go : List Nat → Key → Nat → List (Branch × HashTree) → List HashOffset
    | _, _, _, [] => []
    | place, path, i, (_, t) :: arr => offsets (place ++ [i]) path t ++ go place path (i + 1) arr

end HashTree

namespace HashOffset

def offsets (s : HashOffset) : List HashOffset := s.tree.offsets s.place s.path

theorem offsets_go_eq (place : List Nat) (path : Key) (i : Nat) (arr : List (Branch × HashTree)) :
    HashTree.offsets.go place path i arr = (ofArray place path i arr).flatMap offsets := by
  induction arr generalizing i with
  | nil => rfl
  | cons x arr ih => rw [HashTree.offsets.go, ofArray, List.flatMap_cons, ih]; rfl

/-- An offset, then all that is below it. -/
theorem offsets_eq (s : HashOffset) : s.offsets = s :: s.children.flatMap offsets := by
  obtain ⟨place, path, t⟩ := s
  cases t with
  | leaf p b => rfl
  | node p c arr =>
    rw [offsets, HashTree.offsets, offsets_go_eq]
    rfl

/-- Induction over the offsets of a hash trie. -/
theorem induct {P : HashOffset → Prop} (h : ∀ s : HashOffset, (∀ x ∈ s.children, P x) → P s)
    (s : HashOffset) : P s := by
  obtain ⟨place, path, t⟩ := s
  induction t using HashTree.induct generalizing place path with
  | leaf p b =>
    apply h
    simp [children, HashTree.array, ofArray]
  | node p c arr ih =>
    apply h
    intro x hx
    obtain ⟨j, -, -, -, b, hb⟩ := mem_ofArray hx
    exact ih (b, x.tree) hb x.place x.path

theorem self_mem_offsets (s : HashOffset) : s ∈ s.offsets := by
  rw [offsets_eq]
  exact List.mem_cons_self

theorem mem_offsets_of_child {s x y : HashOffset} (hx : x ∈ s.children) (hy : y ∈ x.offsets) :
    y ∈ s.offsets := by
  rw [offsets_eq]
  exact List.mem_cons_of_mem _ (List.mem_flatMap.mpr ⟨x, hx, hy⟩)

theorem mem_offsets_cases {s y : HashOffset} (h : y ∈ s.offsets) :
    y = s ∨ ∃ x ∈ s.children, y ∈ x.offsets := by
  rw [offsets_eq] at h
  rcases List.mem_cons.mp h with h | h
  . exact Or.inl h
  . exact Or.inr (List.mem_flatMap.mp h)

theorem place_of_mem_children {s x : HashOffset} (h : x ∈ s.children) :
    ∃ j, x.place = s.place ++ [j] ∧ x.path = s.key := by
  obtain ⟨j, -, hplace, hpath, -⟩ := mem_ofArray h
  exact ⟨j, hplace, hpath⟩

/-- An offset is below another one only if its place is. -/
theorem place_of_mem_offsets {s y : HashOffset} (h : y ∈ s.offsets) : s.place <+: y.place := by
  induction s using induct with
  | h s ih =>
    rcases mem_offsets_cases h with rfl | ⟨c, hc, hy⟩
    . exact List.prefix_rfl
    . obtain ⟨j, hj, -⟩ := place_of_mem_children hc
      have hpre := ih c hc hy
      rw [hj] at hpre
      exact (List.prefix_append _ _).trans hpre

theorem path_of_mem_offsets {s y : HashOffset} (h : y ∈ s.offsets) : s.path <+: y.path := by
  induction s using induct with
  | h s ih =>
    rcases mem_offsets_cases h with rfl | ⟨c, hc, hy⟩
    . exact List.prefix_rfl
    . obtain ⟨j, -, hp⟩ := place_of_mem_children hc
      have hpre := ih c hc hy
      rw [hp] at hpre
      exact (List.prefix_append _ _).trans hpre

/-- What is below an offset is not at it. -/
theorem place_below {s y : HashOffset} (h : y ∈ s.children.flatMap offsets) :
    s.place <+: y.place ∧ ¬ y.place <+: s.place := by
  obtain ⟨c, hc, hy⟩ := List.mem_flatMap.mp h
  obtain ⟨j, hj, -⟩ := place_of_mem_children hc
  have hpre := place_of_mem_offsets hy
  rw [hj] at hpre
  refine ⟨(List.prefix_append _ _).trans hpre, ?_⟩
  intro hys
  have := (hpre.trans hys).length_le
  rw [List.length_append, List.length_singleton] at this
  omega

/-- Two places with different last indices have nothing below both. -/
theorem index_eq {place q : List Nat} {i j : Nat} (hi : place ++ [i] <+: q)
    (hj : place ++ [j] <+: q) : i = j := by
  have h := List.prefix_of_prefix_length_le hi hj (by simp)
  simpa using h

theorem ofArray_pairwise (place : List Nat) (path : Key) (i : Nat)
    (arr : List (Branch × HashTree)) :
    (ofArray place path i arr).Pairwise fun x y => ∀ q, x.place <+: q → ¬ y.place <+: q := by
  induction arr generalizing i with
  | nil => simp [ofArray]
  | cons x arr ih =>
    rw [ofArray, List.pairwise_cons]
    refine ⟨?_, ih (i + 1)⟩
    intro y hy q hx hq
    obtain ⟨j, hj, hplace, -⟩ := mem_ofArray hy
    rw [hplace] at hq
    have := index_eq hx hq
    omega

theorem nodup_offsets (s : HashOffset) : s.offsets.Nodup := by
  induction s using induct with
  | h s ih =>
    rw [offsets_eq, List.nodup_cons]
    constructor
    . intro hs
      exact (place_below hs).2 List.prefix_rfl
    . rw [List.nodup_flatMap]
      refine ⟨ih, ?_⟩
      apply (ofArray_pairwise s.place s.key 0 s.tree.array).imp
      intro x y hxy z hx hy
      exact hxy z.place (place_of_mem_offsets hx) (place_of_mem_offsets hy)

/-- In a hash trie what lies below the place of an offset lies below the offset. -/
theorem mem_offsets_of_place {s x y : HashOffset} (hx : x ∈ s.offsets) (hy : y ∈ s.offsets)
    (h : x.place <+: y.place) : y ∈ x.offsets := by
  induction s using induct with
  | h s ih =>
    rcases mem_offsets_cases hx with rfl | ⟨c, hc, hx⟩
    . exact hy
    . obtain ⟨i, hi, -⟩ := place_of_mem_children hc
      have hcy : c.place <+: y.place := (place_of_mem_offsets hx).trans h
      rcases mem_offsets_cases hy with rfl | ⟨d, hd, hy⟩
      . have := hcy.length_le
        rw [hi, List.length_append, List.length_singleton] at this
        omega
      . obtain ⟨k, hk, hck⟩ := List.mem_iff_getElem.mp hc
        obtain ⟨l, hl, hdl⟩ := List.mem_iff_getElem.mp hd
        have hpair := List.pairwise_iff_getElem.mp
          (ofArray_pairwise s.place s.key 0 s.tree.array)
        have hdy := place_of_mem_offsets hy
        rcases Nat.lt_trichotomy k l with hkl | rfl | hkl
        . subst hck hdl
          exact absurd hdy (hpair k l hk hl hkl _ hcy)
        . rw [hck] at hdl
          subst hdl
          exact ih c hc hx hy
        . subst hck hdl
          exact absurd hcy (hpair l k hl hk hkl _ hdy)

section Keys

theorem getElem?_ofArray (place : List Nat) (path : Key) (i k : Nat)
    (arr : List (Branch × HashTree)) :
    (ofArray place path i arr)[k]? = arr[k]?.map fun x => ⟨place ++ [i + k], path, x.2⟩ := by
  induction arr generalizing i k with
  | nil => simp [ofArray]
  | cons x arr ih =>
    cases k with
    | zero => simp [ofArray]
    | succ k =>
      rw [ofArray, List.getElem?_cons_succ, List.getElem?_cons_succ, ih]
      rw [Nat.add_assoc, Nat.add_comm 1 k]

theorem mem_children {s c : HashOffset} (h : c ∈ s.children) :
    ∃ k x, s.tree.array[k]? = some x ∧ c = ⟨s.place ++ [k], s.key, x.2⟩ := by
  obtain ⟨k, hk⟩ := List.mem_iff_getElem?.mp h
  rw [children, getElem?_ofArray] at hk
  obtain ⟨x, hx, hc⟩ := Option.map_eq_some_iff.mp hk
  rw [Nat.zero_add] at hc
  exact ⟨k, x, hx, hc.symm⟩

variable {s x y c d : HashOffset}

theorem wf_array (hwf : s.tree.WF) :
    Branches.Sorted s.tree.array ∧ ∀ x ∈ s.tree.array, HashTree.Hangs x ∧ x.2.WF := by
  obtain ⟨place, path, t⟩ := s
  cases t with
  | leaf p b => exact ⟨List.Pairwise.nil, by simp [HashTree.array]⟩
  | node p c arr =>
    obtain ⟨-, hsort, hhang, hsub⟩ := HashTree.wf_node.mp hwf
    exact ⟨hsort, fun x hx => ⟨hhang x hx, hsub x hx⟩⟩

theorem wf_child (hwf : s.tree.WF) (hc : c ∈ s.children) : c.tree.WF := by
  obtain ⟨k, x, hx, rfl⟩ := mem_children hc
  exact ((wf_array hwf).2 x (List.mem_of_getElem? hx)).2

theorem wf_of_mem_offsets (hwf : s.tree.WF) (h : y ∈ s.offsets) : y.tree.WF := by
  induction s using induct with
  | h s ih =>
    rcases mem_offsets_cases h with rfl | ⟨c, hc, hy⟩
    . exact hwf
    . exact ih c hc (wf_child hwf hc) hy

/-- Offsets of one array whose nodes start with the same byte are the same. -/
theorem child_eq_of_head (hwf : s.tree.WF) (hc : c ∈ s.children) (hd : d ∈ s.children)
    (h : c.tree.label.head? = d.tree.label.head?) : c = d := by
  obtain ⟨hsort, hall⟩ := wf_array hwf
  obtain ⟨k, x, hx, rfl⟩ := mem_children hc
  obtain ⟨l, y, hy, rfl⟩ := mem_children hd
  dsimp only at h
  rw [(hall x (List.mem_of_getElem? hx)).1.1, (hall y (List.mem_of_getElem? hy)).1.1] at h
  obtain ⟨hk, hxk⟩ := List.getElem?_eq_some_iff.mp hx
  obtain ⟨hl, hyl⟩ := List.getElem?_eq_some_iff.mp hy
  have hpair := List.pairwise_iff_getElem.mp hsort
  rcases Nat.lt_trichotomy k l with hkl | rfl | hkl
  . have hlt := hpair k l hk hl hkl
    rw [hxk, hyl, h] at hlt
    omega
  . rw [hxk] at hyl
    rw [hyl]
  . have hlt := hpair l k hl hk hkl
    rw [hxk, hyl, h] at hlt
    omega

theorem key_of_mem_offsets (h : y ∈ s.offsets) : s.key <+: y.key := by
  rcases mem_offsets_cases h with rfl | ⟨c, hc, hy⟩
  . exact List.prefix_rfl
  . obtain ⟨j, -, hp⟩ := place_of_mem_children hc
    have hpre := path_of_mem_offsets hy
    rw [hp] at hpre
    exact hpre.trans (List.prefix_append _ _)

/-- The key of a trie node below a child goes on with the first byte of the child. -/
theorem key_of_child (hwf : s.tree.WF) (hc : c ∈ s.children) (hy : y ∈ c.offsets)
    (htrie : y.tree.type = .trie) :
    ∃ b r, y.key = s.key ++ b :: r ∧ c.tree.label.head? = some b := by
  obtain ⟨-, hall⟩ := wf_array hwf
  obtain ⟨k, x, hx, rfl⟩ := mem_children hc
  obtain ⟨hhead, hnone⟩ := (hall x (List.mem_of_getElem? hx)).1
  obtain ⟨r, hr⟩ := key_of_mem_offsets hy
  have hleaf : x.2.type ≠ .leaf := by
    intro h
    obtain ⟨b, t⟩ := x
    cases t with
    | leaf p b' =>
      rw [offsets_eq] at hy
      rw [List.mem_singleton.mp hy] at htrie
      exact NodeTypes.noConfusion htrie
    | node p c arr => exact NodeTypes.noConfusion h
  cases hlab : x.2.label with
  | nil =>
    rw [hlab] at hhead
    exact absurd (hnone hhead.symm) hleaf
  | cons b l =>
    refine ⟨b, l ++ r, ?_, rfl⟩
    rw [← hr, key, hlab, List.append_assoc]
    rfl

/-- The key of a trie node starts with the key of another one only if it lies below it. -/
theorem place_of_key (hwf : s.tree.WF) (hx : x ∈ s.offsets) (hy : y ∈ s.offsets)
    (hxt : x.tree.type = .trie) (hyt : y.tree.type = .trie) (h : x.key <+: y.key) :
    x.place <+: y.place := by
  induction s using induct with
  | h s ih =>
    rcases mem_offsets_cases hx with rfl | ⟨c, hc, hx⟩
    . exact place_of_mem_offsets hy
    . obtain ⟨b, r, hxk, hb⟩ := key_of_child hwf hc hx hxt
      rcases mem_offsets_cases hy with rfl | ⟨d, hd, hy⟩
      . have hlen := h.length_le
        rw [hxk, List.length_append, List.length_cons] at hlen
        omega
      . obtain ⟨b', r', hyk, hb'⟩ := key_of_child hwf hd hy hyt
        rw [hxk, hyk, List.prefix_append_right_inj, List.cons_prefix_cons] at h
        have hcd : c = d := by
          apply child_eq_of_head hwf hc hd
          rw [hb, hb', h.1]
        subst hcd
        exact ih c hc (wf_child hwf hc) hx hy

/-- Every offset but the first is in the array of another one. -/
theorem exists_parent (hy : y ∈ s.offsets) (hne : y ≠ s) : ∃ p ∈ s.offsets, y ∈ p.children := by
  induction s using induct with
  | h s ih =>
    rcases mem_offsets_cases hy with h | ⟨c, hc, hyc⟩
    . exact absurd h hne
    . by_cases hcy : y = c
      . subst hcy
        exact ⟨s, self_mem_offsets s, hc⟩
      . obtain ⟨p, hp, hyp⟩ := ih c hc hyc hcy
        exact ⟨p, mem_offsets_of_child hc hp, hyp⟩

theorem type_of_child (hc : c ∈ s.children) : s.tree.type = .trie := by
  obtain ⟨place, path, t⟩ := s
  cases t with
  | leaf p b => simp [children, HashTree.array, ofArray] at hc
  | node p c arr => rfl

/-- Whatever lies below a path that is the key of a trie node lies below the node. -/
theorem mem_offsets_of_path (hwf : s.tree.WF) (hx : x ∈ s.offsets) (hxt : x.tree.type = .trie)
    (hy : y ∈ s.offsets) (hne : y ≠ s) (h : x.key <+: y.path) : y ∈ x.offsets := by
  obtain ⟨p, hp, hyp⟩ := exists_parent hy hne
  obtain ⟨j, hj, hpath⟩ := place_of_mem_children hyp
  apply mem_offsets_of_place hx hy
  rw [hj]
  apply List.IsPrefix.trans _ (List.prefix_append _ _)
  exact place_of_key hwf hx hp hxt (type_of_child hyp) (hpath ▸ h)

end Keys

end HashOffset
end Leaves
