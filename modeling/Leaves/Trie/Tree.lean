import Leaves.Core.Node
import Leaves.Lib.OrdMap

/-!
Tries as trees: every node with the address it is stored at. A tree is what a walk over the links
from a root finds; the storage represents it if every node of it is where the tree says.
-/

namespace Leaves

/-- What a leaf stores for its key: the bytes of the value, or with the flag a reference to it. -/
structure Value where
  big : Bool
  bytes : List UInt8
  deriving DecidableEq, Repr, Inhabited

inductive Tree where
  | leaf (addr : Addr) (key : Key) (val : Value)
  | node (addr : Addr) (compressed : Key) (array : List (Branch × Tree))
  deriving Inhabited

namespace Tree

open OrdMap (Ascending)

/-- Induction over trees with the hypothesis for every child at once. -/
theorem induct {P : Tree → Prop} (leaf : ∀ a k v, P (.leaf a k v))
    (node : ∀ a c arr, (∀ x ∈ arr, P x.2) → P (.node a c arr)) (t : Tree) : P t :=
  @Tree.rec P (fun arr => ∀ x ∈ arr, P x.2) (fun x => P x.2)
    leaf node (by simp)
    (by
      intro x arr hx harr y hy
      rcases List.mem_cons.mp hy with rfl | hy
      . exact hx
      . exact harr y hy)
    (fun _ _ h => h) t

def addr : Tree → Addr
  | .leaf a _ _ => a
  | .node a _ _ => a

/-- The string of the node at the root of the tree. -/
def label : Tree → Key
  | .leaf _ k _ => k
  | .node _ c _ => c

/-- The branch a tree hangs under is the first byte of its root. -/
def head (t : Tree) : Branch := t.label.head?

def isLeaf : Tree → Bool
  | .leaf _ _ _ => true
  | .node _ _ _ => false

/-- The node at the root of the tree as it is stored. -/
def root : Tree → Node
  | .leaf _ k v => .leaf ⟨k, v.big, v.bytes⟩
  | .node _ c arr => .trie ⟨c, Branches.mapSnd addr arr⟩

/-- Every node of the tree with its address. -/
def cells : Tree → List (Addr × Node)
  | .leaf a k v => [(a, .leaf ⟨k, v.big, v.bytes⟩)]
  | .node a c arr => (a, .trie ⟨c, Branches.mapSnd addr arr⟩) :: go arr
where
  go : List (Branch × Tree) → List (Addr × Node)
    | [] => []
    | (_, t) :: arr => t.cells ++ go arr

/-- The keys below the root of the tree with their values, in the order of the branches. -/
def entries : Tree → List (Key × Value)
  | .leaf _ k v => [(k, v)]
  | .node _ c arr => (go arr).map (fun e => (c ++ e.1, e.2))
where
  go : List (Branch × Tree) → List (Key × Value)
    | [] => []
    | (_, t) :: arr => t.entries ++ go arr

/-- The number of nodes on the longest way down. -/
def height : Tree → Nat
  | .leaf _ _ _ => 1
  | .node _ _ arr => go arr + 1
where
  go : List (Branch × Tree) → Nat
    | [] => 0
    | (_, t) :: arr => max t.height (go arr)

/-- What hangs under a branch starts with its byte, and under `NONE` is a leaf without a suffix. -/
def Hangs (x : Branch × Tree) : Prop := x.2.head = x.1 ∧ (x.1 = none → x.2.isLeaf = true)

/-- The shape of a trie. A leaf has to fit into its page, a node always does. -/
def WF : Tree → Prop
  | .leaf _ k v =>
    k.length ≤ 255 ∧ fitsPage (LeafNode.sizeOf k.length v.bytes.length) = true
  | .node _ c arr =>
    c.length ≤ 255 ∧ arr ≠ [] ∧ Branches.Sorted arr ∧ (∀ x ∈ arr, Hangs x) ∧ go arr
where
  go : List (Branch × Tree) → Prop
    | [] => True
    | (_, t) :: arr => t.WF ∧ go arr

theorem wf_go_iff (arr : List (Branch × Tree)) : WF.go arr ↔ ∀ x ∈ arr, x.2.WF := by
  induction arr with
  | nil => simp [WF.go]
  | cons x arr ih => simp [WF.go, ih]

@[simp]
theorem wf_leaf {a : Addr} {k : Key} {v : Value} :
    (leaf a k v).WF ↔
      k.length ≤ 255 ∧ fitsPage (LeafNode.sizeOf k.length v.bytes.length) = true := by
  simp [WF]

@[simp]
theorem wf_node {a : Addr} {c : Key} {arr : List (Branch × Tree)} :
    (node a c arr).WF ↔ c.length ≤ 255 ∧ arr ≠ [] ∧ Branches.Sorted arr ∧
      (∀ x ∈ arr, Hangs x) ∧ ∀ x ∈ arr, x.2.WF := by
  simp [WF, wf_go_iff]

theorem length_label_le {t : Tree} (hwf : t.WF) : t.label.length ≤ 255 := by
  cases t with
  | leaf a k v => exact (wf_leaf.mp hwf).1
  | node a c arr => exact (wf_node.mp hwf).1

theorem entries_go_eq (arr : List (Branch × Tree)) :
    entries.go arr = arr.flatMap (fun x => x.2.entries) := by
  induction arr with
  | nil => simp [entries.go]
  | cons x arr ih => simp [entries.go, ih]

/-- The entries below the branches of a node. -/
def branchEntries (arr : List (Branch × Tree)) : List (Key × Value) :=
  arr.flatMap (fun x => x.2.entries)

/-- Entries with `p` in front of their keys. -/
def behind (p : Key) (es : List (Key × Value)) : List (Key × Value) :=
  es.map (fun e => (p ++ e.1, e.2))

@[simp]
theorem behind_nil (p : Key) : behind p [] = [] := rfl

@[simp]
theorem behind_append (p : Key) (es es' : List (Key × Value)) :
    behind p (es ++ es') = behind p es ++ behind p es' := by
  simp [behind]

@[simp]
theorem behind_nil_left (es : List (Key × Value)) : behind [] es = es := by
  simp [behind]

@[simp]
theorem behind_behind (p q : Key) (es : List (Key × Value)) :
    behind p (behind q es) = behind (p ++ q) es := by
  simp [behind, Function.comp_def]

theorem mem_behind {p k : Key} {v : Value} {es : List (Key × Value)} :
    (k, v) ∈ behind p es ↔ ∃ s, k = p ++ s ∧ (s, v) ∈ es := by
  simp only [behind, List.mem_map, Prod.mk.injEq, Prod.exists]
  constructor
  . rintro ⟨s, v', h, rfl, rfl⟩
    exact ⟨s, rfl, h⟩
  . rintro ⟨s, rfl, h⟩
    exact ⟨s, v, h, rfl, rfl⟩

@[simp]
theorem entries_leaf (a : Addr) (k : Key) (v : Value) : (leaf a k v).entries = [(k, v)] := rfl

@[simp]
theorem entries_node (a : Addr) (c : Key) (arr : List (Branch × Tree)) :
    (node a c arr).entries = behind c (branchEntries arr) := by
  simp [entries, entries_go_eq, behind, branchEntries]

@[simp]
theorem branchEntries_nil : branchEntries [] = [] := rfl

@[simp]
theorem branchEntries_cons (x : Branch × Tree) (arr : List (Branch × Tree)) :
    branchEntries (x :: arr) = x.2.entries ++ branchEntries arr := by
  simp [branchEntries]

@[simp]
theorem branchEntries_append (arr arr' : List (Branch × Tree)) :
    branchEntries (arr ++ arr') = branchEntries arr ++ branchEntries arr' := by
  simp [branchEntries]

theorem mem_branchEntries {arr : List (Branch × Tree)} {e : Key × Value} :
    e ∈ branchEntries arr ↔ ∃ x ∈ arr, e ∈ x.2.entries := by
  simp [branchEntries]

/-- The keys of a tree start with the string of its root. -/
theorem prefix_of_mem_entries {t : Tree} {k : Key} {v : Value} (h : (k, v) ∈ t.entries) :
    t.label <+: k := by
  match t with
  | .leaf a k' v' =>
    simp only [entries_leaf, List.mem_singleton, Prod.mk.injEq] at h
    simp [label, h.1]
  | .node a c arr =>
    simp only [entries_node, mem_behind] at h
    obtain ⟨s, rfl, -⟩ := h
    simp [label]

theorem head_of_mem_entries {t : Tree} {k : Key} {v : Value} {b : UInt8} (hb : t.head = some b)
    (h : (k, v) ∈ t.entries) : k.head? = some b := by
  obtain ⟨s, rfl⟩ := prefix_of_mem_entries h
  rw [head] at hb
  simp [List.head?_append, hb]

/-- Below `NONE` is the key that ends at the node. -/
theorem entries_of_hangs_none {t : Tree} (h : Hangs (none, t)) :
    ∃ a v, t = .leaf a [] v := by
  obtain ⟨h1, h2⟩ := h
  match t with
  | .leaf a k v =>
    simp only [head, label, List.head?_eq_none_iff] at h1
    exact ⟨a, v, by rw [h1]⟩
  | .node a c arr => simp [isLeaf] at h2

/-- The keys under a smaller branch are smaller. -/
theorem entries_lt_of_branch_lt {x y : Branch × Tree} (hx : Hangs x) (hy : Hangs y)
    (hlt : x.1.toInt < y.1.toInt) {e f : Key × Value} (he : e ∈ x.2.entries)
    (hf : f ∈ y.2.entries) : e.1 < f.1 := by
  obtain ⟨b, t⟩ := x
  obtain ⟨b', t'⟩ := y
  match b' with
  | none =>
    match b with
    | none => simp at hlt
    | some b => simp only [Branch.toInt_some, Branch.toInt_none] at hlt; omega
  | some b' =>
    have h' : f.1.head? = some b' := head_of_mem_entries hy.1 hf
    match b with
    | none =>
      obtain ⟨a, v, rfl⟩ := entries_of_hangs_none hx
      simp only [entries_leaf, List.mem_singleton] at he
      subst he
      exact Lex.nil_lt_of_head h'
    | some b =>
      have h : e.1.head? = some b := head_of_mem_entries hx.1 he
      exact Lex.lt_append_of_lt_head h h' (Branch.toInt_some_lt.mp hlt)

theorem ascending_behind {p : Key} {es : List (Key × Value)} :
    Ascending (behind p es) ↔ Ascending es := by
  simp [Ascending, behind, List.pairwise_map]

theorem ascending_branchEntries {arr : List (Branch × Tree)} (hs : Branches.Sorted arr)
    (hh : ∀ x ∈ arr, Hangs x) (ha : ∀ x ∈ arr, Ascending x.2.entries) :
    Ascending (branchEntries arr) := by
  induction arr with
  | nil => simp [Ascending]
  | cons x arr ih =>
    simp only [List.mem_cons, forall_eq_or_imp] at hh ha
    have hx := (List.pairwise_cons.mp hs).1
    rw [branchEntries_cons, Ascending, List.pairwise_append]
    refine ⟨ha.1, ih hs.of_cons hh.2 ha.2, ?_⟩
    intro e he e' he'
    obtain ⟨y, hy, hey⟩ := mem_branchEntries.mp he'
    exact entries_lt_of_branch_lt hh.1 (hh.2 y hy) (hx y hy) he hey

/-- A walk over a trie finds the keys in ascending order, each once. -/
theorem ascending_entries {t : Tree} (h : t.WF) : Ascending t.entries := by
  induction t using Tree.induct with
  | leaf a k v => simp [Ascending]
  | node a c arr ih =>
    rw [wf_node] at h
    obtain ⟨-, -, hs, hh, hwf⟩ := h
    rw [entries_node, ascending_behind]
    exact ascending_branchEntries hs hh (fun x hx => ih x hx (hwf x hx))

theorem entries_ne_nil {t : Tree} (h : t.WF) : t.entries ≠ [] := by
  induction t using Tree.induct with
  | leaf a k v => simp
  | node a c arr ih =>
    rw [wf_node] at h
    obtain ⟨-, hne, -, -, hwf⟩ := h
    obtain ⟨x, arr', rfl⟩ := List.exists_cons_of_ne_nil hne
    have hx := ih x (by simp) (hwf x (by simp))
    simp [behind, hx]

theorem behind_branchEntries_eq_nil {p : Key} {arr : List (Branch × Tree)}
    (h : ∀ x ∈ arr, x.2.WF) : behind p (branchEntries arr) = [] ↔ arr = [] := by
  rw [behind, List.map_eq_nil_iff]
  constructor
  . intro hnil
    cases arr with
    | nil => rfl
    | cons x arr =>
      rw [branchEntries_cons, List.append_eq_nil_iff] at hnil
      exact absurd hnil.1 (entries_ne_nil (h x List.mem_cons_self))
  . rintro rfl
    rfl

/-- The storage `rd` holds every node of the tree where the tree says. -/
def Stored (rd : Addr → Node) (t : Tree) : Prop := ∀ x ∈ t.cells, rd x.1 = x.2

theorem cells_go_eq (arr : List (Branch × Tree)) :
    cells.go arr = arr.flatMap (fun x => x.2.cells) := by
  induction arr with
  | nil => simp [cells.go]
  | cons x arr ih => simp [cells.go, ih]

/-- The nodes below the branches of a node. -/
def branchCells (arr : List (Branch × Tree)) : List (Addr × Node) :=
  arr.flatMap (fun x => x.2.cells)

@[simp]
theorem cells_leaf (a : Addr) (k : Key) (v : Value) :
    (leaf a k v).cells = [(a, .leaf ⟨k, v.big, v.bytes⟩)] := rfl

@[simp]
theorem cells_node (a : Addr) (c : Key) (arr : List (Branch × Tree)) :
    (node a c arr).cells = (a, .trie ⟨c, Branches.mapSnd addr arr⟩) :: branchCells arr := by
  simp [cells, cells_go_eq, branchCells]

@[simp]
theorem branchCells_nil : branchCells [] = [] := rfl

@[simp]
theorem branchCells_cons (x : Branch × Tree) (arr : List (Branch × Tree)) :
    branchCells (x :: arr) = x.2.cells ++ branchCells arr := by
  simp [branchCells]

@[simp]
theorem branchCells_append (arr arr' : List (Branch × Tree)) :
    branchCells (arr ++ arr') = branchCells arr ++ branchCells arr' := by
  simp [branchCells]

theorem Stored.root {rd : Addr → Node} {t : Tree} (h : Stored rd t) : rd t.addr = t.root := by
  match t with
  | .leaf a k v => exact h (a, _) (by simp)
  | .node a c arr => exact h (a, _) (by simp)

theorem Stored.child {rd : Addr → Node} {a : Addr} {c : Key} {arr : List (Branch × Tree)}
    (h : Stored rd (.node a c arr)) {x : Branch × Tree} (hx : x ∈ arr) : Stored rd x.2 := by
  intro y hy
  refine h y ?_
  rw [cells_node, List.mem_cons, branchCells, List.mem_flatMap]
  exact Or.inr ⟨x, hx, hy⟩

end Tree
end Leaves
