import Leaves.Trie.Pages

/-!
What a removal makes of the nodes on its way: a node without one of its branches, and a child that
takes the place of its node.
-/

namespace Leaves
namespace Tree

/-- The tree with a string in front of its root, which moves to `a`. -/
def extend (a : Addr) (c : Key) : Tree → Tree
  | .leaf _ k v => .leaf a (c ++ k) v
  | .node _ k arr => .node a (c ++ k) arr

/-- The size of the root of the tree with a string of another length. -/
def sizeWith (len : Nat) : Tree → Nat
  | .leaf _ _ v => LeafNode.sizeOf len v.bytes.length
  | .node _ k arr => TrieNode.changedLen ⟨k, Branches.mapSnd addr arr⟩ len

/-- The addresses below the root. -/
def inner : Tree → List Addr
  | .leaf _ _ _ => []
  | .node _ _ arr => branchAddrs arr

section Extend

variable (a : Addr) (c : Key) (t : Tree)

theorem addrs_eq : t.addrs = t.addr :: t.inner := by
  cases t <;> simp [addr, inner]

@[simp]
theorem addr_extend : (t.extend a c).addr = a := by
  cases t <;> rfl

@[simp]
theorem label_extend : (t.extend a c).label = c ++ t.label := by
  cases t <;> rfl

@[simp]
theorem isLeaf_extend : (t.extend a c).isLeaf = t.isLeaf := by
  cases t <;> rfl

@[simp]
theorem inner_extend : (t.extend a c).inner = t.inner := by
  cases t <;> rfl

theorem root_extend (b : Addr) : (t.extend a c).root = (t.extend b c).root := by
  cases t <;> rfl

theorem entries_extend : (t.extend a c).entries = behind c t.entries := by
  cases t with
  | leaf b k v => simp [extend, behind]
  | node b k arr => simp [extend, behind_behind]

end Extend

theorem wf_extend {t : Tree} {a : Addr} {c : Key} (hwf : t.WF)
    (hlen : c.length + t.label.length ≤ 255)
    (hfits : fitsPage (t.sizeWith (c.length + t.label.length)) = true) : (t.extend a c).WF := by
  cases t with
  | leaf b k v =>
    refine wf_leaf.mpr ⟨?_, ?_⟩
    . rw [List.length_append]
      exact hlen
    . rw [List.length_append]
      exact hfits
  | node b k arr =>
    obtain ⟨-, h2, h3, h4, h5⟩ := wf_node.mp hwf
    refine wf_node.mpr ⟨?_, h2, h3, h4, h5⟩
    rw [List.length_append]
    exact hlen

/-- A trie node never gets too big. -/
theorem fitsPage_sizeWith {t : Tree} {len : Nat} (hwf : t.WF) (hleaf : t.isLeaf = false)
    (hlen : len ≤ 255) : fitsPage (t.sizeWith len) = true := by
  cases t with
  | leaf b k v => simp [isLeaf] at hleaf
  | node b k arr =>
    obtain ⟨-, -, hsort, -, -⟩ := wf_node.mp hwf
    refine fitsPage_iff.mpr ((TrieNode.changedLen_le _ hlen ?_).trans (by decide))
    rw [TrieNode.count, Branches.length_mapSnd]
    exact Branches.length_le hsort

/-- The root is written anew, the nodes below it stay where they are. -/
theorem Stored.extend {rd rd' : Addr → Node} {t : Tree} {a : Addr} {c : Key} (h : Stored rd t)
    (hroot : rd' a = (t.extend a c).root) (hinner : ∀ x ∈ t.inner, rd' x = rd x) :
    Stored rd' (t.extend a c) := by
  cases t with
  | leaf b k v => exact stored_leaf.mpr hroot
  | node b k arr =>
    exact stored_node.mpr ⟨hroot, stored_congr_branches (stored_node.mp h).2 hinner⟩

section Deepest

variable {a : Addr} {c : Key} {arr : List (Branch × Tree)} {n : Nat}

theorem deepest_le_iff :
    (node a c arr).deepest ≤ n ↔ ∀ x ∈ arr, c.length + x.2.deepest ≤ n := by
  rw [deepest]
  induction arr with
  | nil => simp [deepest.go]
  | cons x arr ih => simp [deepest.go, ih]

/-- No node starts behind the keys. -/
theorem deepest_le {t : Tree} (hwf : t.WF) (h : ∀ e ∈ t.entries, e.1.length ≤ n) :
    t.deepest ≤ n := by
  induction t using Tree.induct generalizing n with
  | leaf a k v => exact Nat.zero_le n
  | node a k arr ih =>
    obtain ⟨-, -, -, -, hw⟩ := wf_node.mp hwf
    refine deepest_le_iff.mpr fun x hx => ?_
    have hle : ∀ e ∈ x.2.entries, k.length + e.1.length ≤ n := by
      intro e he
      have := h (k ++ e.1, e.2) (by
        rw [entries_node]
        exact mem_behind.mpr ⟨e.1, rfl, List.mem_flatMap.mpr ⟨x, hx, he⟩⟩)
      rwa [List.length_append] at this
    have hdeep := ih x hx (n := n - k.length) (hw x hx) fun e he => by
      have := hle e he
      omega
    obtain ⟨e, he⟩ := List.exists_mem_of_ne_nil _ (entries_ne_nil (hw x hx))
    have := hle e he
    omega

theorem deepest_extend_le {x : Branch × Tree} (hx : x ∈ arr) (b : Addr) :
    (x.2.extend b c).deepest ≤ (node a c arr).deepest := by
  have hle := deepest_le_of_mem (a := a) (c := c) hx
  match hx2 : x.2 with
  | .leaf a' k v => exact Nat.zero_le _
  | .node a' k arr' =>
    rw [hx2] at hle
    refine deepest_le_iff.mpr fun y hy => ?_
    have := deepest_le_of_mem (a := a') (c := k) hy
    rw [List.length_append]
    omega

end Deepest

end Tree

/-- The node of a step without its branch, which moves to `a`. -/
def Step.reduced (s : Step) (a : Addr) : Tree := .node a s.compressed (s.left ++ s.right)

namespace Path

variable {s : Step} {p : Path}

/-- A tree that starts with the string of the node may take its place. -/
theorem fits_of_wf (hwf : WF (s :: p)) {t : Tree} (hlabel : s.compressed <+: t.label) : Fits p t := by
  have hfits : Fits p (s.tree default) := hwf.2.2.2.2.1 default
  cases p with
  | nil => trivial
  | cons s' p =>
    have hne : s.compressed ≠ [] := hfits.label_ne_nil rfl
    obtain ⟨w, hw⟩ := hlabel
    have hhead : t.head = (s.tree default).head := by
      rw [Tree.head, Tree.head, Step.label_tree, ← hw, List.head?_append_of_ne_nil _ hne]
    refine ⟨hhead.trans hfits.1, fun hnone => ?_⟩
    have := hfits.2 hnone
    simp [Step.tree, Tree.isLeaf] at this

theorem wf_reduced (hwf : WF (s :: p)) (hne : s.left ++ s.right ≠ []) (a : Addr) :
    (s.reduced a).WF := by
  obtain ⟨hlen, hsort, hleft, hright, -, -⟩ := hwf
  refine Tree.wf_node.mpr ⟨hlen, hne, Branches.sorted_remove hsort, ?_, ?_⟩
  . intro x hx
    rcases List.mem_append.mp hx with hx | hx
    . exact (hleft x hx).1
    . exact (hright x hx).1
  . intro x hx
    rcases List.mem_append.mp hx with hx | hx
    . exact (hleft x hx).2
    . exact (hright x hx).2

/-- The entries around a path without what is at its end. -/
theorem entries_around (s : Step) (p : Path) :
    before (s :: p) ++ after (s :: p) =
      before p ++ Tree.behind (str p) (Tree.behind s.compressed (Tree.branchEntries (s.left ++ s.right)))
        ++ after p := by
  simp [before, after, Tree.behind_behind, Tree.behind_append, List.append_assoc]

theorem deepest_reduced_le (s : Step) (b : Addr) (u : Tree) :
    (s.reduced b).deepest ≤ (s.tree u).deepest := by
  refine Tree.deepest_le_iff.mpr fun x hx => ?_
  refine Tree.deepest_le_of_mem (x := x) ?_
  rcases List.mem_append.mp hx with hx | hx
  . exact List.mem_append_left _ hx
  . exact List.mem_append_right _ (List.mem_cons_of_mem _ hx)

/-- A tree that is less deep takes the place at the end of the path. -/
theorem deepest_plug_mono {p : Path} {u u' : Tree} (h : u.deepest ≤ u'.deepest) :
    (p.plug u).deepest ≤ (p.plug u').deepest := by
  induction p generalizing u u' with
  | nil => exact h
  | cons s p ih =>
    refine ih (Tree.deepest_le_iff.mpr fun x hx => ?_)
    rcases List.mem_append.mp hx with hx | hx
    . exact Tree.deepest_le_of_mem (x := x) (List.mem_append_left _ hx)
    . rcases List.mem_cons.mp hx with rfl | hx
      . have hmem : (s.branch, u') ∈ s.left ++ (s.branch, u') :: s.right :=
          List.mem_append_right _ List.mem_cons_self
        have := Tree.deepest_le_of_mem (a := s.addr) (c := s.compressed) hmem
        exact Nat.le_trans (Nat.add_le_add_left h _) this
      . exact Tree.deepest_le_of_mem (x := x)
          (List.mem_append_right _ (List.mem_cons_of_mem _ hx))

theorem Twin.deepest_plug {p p' : Path} (h : Twin p p') (u : Tree) :
    (p'.plug u).deepest = (p.plug u).deepest := by
  have hstep : ∀ {u u' : Tree} {p : Path}, u.deepest = u'.deepest →
      (p.plug u).deepest = (p.plug u').deepest := fun heq =>
    Nat.le_antisymm (deepest_plug_mono (Nat.le_of_eq heq)) (deepest_plug_mono (Nat.le_of_eq heq.symm))
  induction h generalizing u with
  | nil => rfl
  | @cons s s' p p' hs h ih =>
    rw [plug_cons, plug_cons, ih]
    apply hstep
    rw [hs]
    rfl

/--
The node that a removal at the end of the path leaves of a node with two branches fits into a page.
-/
def combineFits : Path → Bool
  | [] => true
  | s :: p =>
    match s.left ++ s.right with
    | [] => combineFits p
    | [x] =>
      let len := s.compressed.length + x.2.label.length
      255 < len || fitsPage (x.2.sizeWith len)
    | _ => true

end Path
end Leaves
