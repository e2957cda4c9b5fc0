import Leaves.Trie.Pages

/-!
The nodes that are reached from an address are one tree at most: what the pages say about a root is
one map, or none if a link leads to the null offset.
-/

namespace Leaves
namespace Tree

section Unique

variable {rd : Addr → Node}

theorem eq_of_mapSnd {arr arr' : List (Branch × Tree)}
    (heq : Branches.mapSnd addr arr = Branches.mapSnd addr arr')
    (h : ∀ x ∈ arr, ∀ t', Stored rd t' → x.2.addr = t'.addr → x.2 = t')
    (h' : ∀ x ∈ arr', Stored rd x.2) : arr = arr' := by
  induction arr generalizing arr' with
  | nil =>
    cases arr' with
    | nil => rfl
    | cons y arr' => simp at heq
  | cons x arr ih =>
    cases arr' with
    | nil => simp at heq
    | cons y arr' =>
      rw [Branches.mapSnd_cons, Branches.mapSnd_cons, List.cons.injEq, Prod.mk.injEq] at heq
      obtain ⟨⟨hbranch, haddr⟩, harr⟩ := heq
      rw [List.forall_mem_cons] at h h'
      have hxy : x = y := Prod.ext hbranch (h.1 y.2 h'.1 haddr)
      rw [hxy, ih harr h.2 h'.2]

/-- There is one tree under an address. -/
theorem stored_unique {t t' : Tree} (h : Stored rd t) (h' : Stored rd t')
    (haddr : t.addr = t'.addr) : t = t' := by
  induction t using Tree.induct generalizing t' with
  | leaf a k v =>
    have hroot := h'.root
    rw [← haddr, h.root] at hroot
    cases t' with
    | leaf a' k' v' =>
      simp only [root, Node.leaf.injEq, LeafNode.mk.injEq] at hroot
      obtain ⟨hkey, hbig, hbytes⟩ := hroot
      cases v
      cases v'
      simp only [addr] at haddr
      simp_all
    | node a' c' arr' => simp [root] at hroot
  | node a c arr ih =>
    have hroot := h'.root
    rw [← haddr, h.root] at hroot
    cases t' with
    | leaf a' k' v' => simp [root] at hroot
    | node a' c' arr' =>
      simp only [root, Node.trie.injEq, TrieNode.mk.injEq] at hroot
      have harr := eq_of_mapSnd hroot.2
        (fun x hx t' ht' heq => ih x hx (h.child hx) ht' heq) (fun x hx => h'.child hx)
      simp only [addr] at haddr
      rw [haddr, hroot.1, harr]

/-- A link of a node leads to a node of the tree. -/
theorem link_mem_addrs {t : Tree} (h : Stored rd t) {a : Addr} (ha : a ∈ t.addrs) {n : TrieNode}
    (hrd : rd a = .trie n) {x : Branch × Addr} (hx : x ∈ n.array) : x.2 ∈ t.addrs := by
  induction t using Tree.induct with
  | leaf b k v =>
    rw [addrs_leaf, List.mem_singleton] at ha
    rw [ha, stored_leaf.mp h] at hrd
    cases hrd
  | node b c arr ih =>
    rw [addrs_node, List.mem_cons] at ha ⊢
    rcases ha with rfl | ha
    . rw [(stored_node.mp h).1, Node.trie.injEq] at hrd
      rw [← hrd, Branches.mapSnd, List.mem_map] at hx
      obtain ⟨y, hy, rfl⟩ := hx
      exact Or.inr (addrs_subset hy _ (addr_mem_addrs _))
    . obtain ⟨y, hy, hay⟩ := List.mem_flatMap.mp ha
      exact Or.inr (addrs_subset hy _ (ih y hy (h.child hy) hay))

end Unique

end Tree

namespace Path

/-- A tree under the root of a path has a node where the path ends. -/
theorem mem_addrs_of_stored {rd : Addr → Node} {p : Path} {x : Addr} {t : Tree}
    (hp : p.Stored rd x) (ht : Tree.Stored rd t) (haddr : t.addr = p.top x) : x ∈ t.addrs := by
  induction p generalizing x with
  | nil =>
    rw [top] at haddr
    rw [← haddr]
    exact Tree.addr_mem_addrs t
  | cons s p ih =>
    have hmem := ih hp.2.2.2 haddr
    exact Tree.link_mem_addrs ht hmem hp.1 (x := (s.branch, x)) (by simp)

end Path

/-- What is read under a root: a trie of the proper shape without a null offset. -/
structure Trie.Read (rd : Addr → Node) (root : Addr) (m : Trie) : Prop where
  valid : m.Valid rd
  root : root = m.root
  ne_zero : ∀ a ∈ m.addrs, a ≠ 0

/-- The map that is read under a root. -/
def ReadsAs (rd : Addr → Node) (root : Addr) (es : List (Key × Value)) : Prop :=
  ∃ m : Trie, m.Read rd root ∧ m.entries = es

namespace Trie

variable {rd : Addr → Node} {root : Addr} {m m' : Trie}

theorem Read.unique (h : m.Read rd root) (h' : m'.Read rd root) : m = m' := by
  have hroot := h.root.symm.trans h'.root
  cases m with
  | none =>
    cases m' with
    | none => rfl
    | some t' => exact absurd hroot.symm (h'.valid.addr_ne t' rfl)
  | some t =>
    cases m' with
    | none => exact absurd hroot (h.valid.addr_ne t rfl)
    | some t' =>
      rw [Tree.stored_unique (h.valid.stored t rfl) (h'.valid.stored t' rfl) hroot]

/-- Pages that are not read may change. -/
theorem Read.congr {rd' : Addr → Node} (h : m.Read rd root) (heq : ∀ a ∈ m.addrs, rd' a = rd a) :
    m.Read rd' root := by
  refine ⟨⟨h.valid.addr_ne, h.valid.wf, ?_⟩, h.root, h.ne_zero⟩
  rintro t rfl
  exact (h.valid.stored t rfl).congr heq

theorem Read.readsAs_iff (h : m.Read rd root) (es : List (Key × Value)) :
    ReadsAs rd root es ↔ m.entries = es := by
  constructor
  . rintro ⟨m', h', rfl⟩
    rw [h.unique h']
  . exact fun heq => ⟨m, h, heq⟩

/-- Nothing is read where a path ends at the null offset. -/
theorem not_readsAs_of_null {s : Step} {p : Path} (hp : Path.Stored rd (s :: p) 0)
    (hroot : root = Path.top (s :: p) 0) (hne : root ≠ 0) (es : List (Key × Value)) :
    ¬ReadsAs rd root es := by
  rintro ⟨m, h, -⟩
  cases m with
  | none => exact hne h.root
  | some t =>
    have hmem := Path.mem_addrs_of_stored hp (h.valid.stored t rfl) (h.root.symm.trans hroot)
    exact h.ne_zero 0 hmem rfl

end Trie
end Leaves
