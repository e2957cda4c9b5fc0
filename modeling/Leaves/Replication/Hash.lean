import Leaves.Trie.Search

/-!
The hash trie of `replication/_hash.hpp`: it mirrors a data trie and holds the hash of every node
instead of the values.
-/

namespace Leaves

/-- A page of the hash trie, without an address if the running update has allocated it. -/
structure HashPage where
  addr : Option Addr
  txnId : Nat
  hash : List UInt8
  deriving DecidableEq, Repr, Inhabited

inductive HashTree where
  /-- a leaf keeps its branch only -/
  | leaf (page : HashPage) (key : Branch)
  | node (page : HashPage) (compressed : Key) (array : List (Branch × HashTree))
  deriving Inhabited

/-- What the hash trie takes from the database of a data trie. -/
structure HashSource where
  /-- the transaction in the header of the page of a node -/
  txnId : Addr → Nat
  /-- the bytes of a value, from the big memory if they are there -/
  content : Value → List UInt8

inductive NodeTypes where
  | trie
  | leaf
  deriving DecidableEq, Repr

def HASH_SIZE : Nat := 32

namespace HashTree

def page : HashTree → HashPage
  | .leaf p _ => p
  | .node p _ _ => p

def type : HashTree → NodeTypes
  | .leaf _ _ => .leaf
  | .node _ _ _ => .trie

variable (blake3 : List UInt8 → List UInt8) (db : HashSource)

/-- `create_leaf_hash` for the leaf with the suffix `key` at `addr`. -/
def createLeafHash (keyPath : Key) (addr : Addr) (key : Key) (val : Value) : HashTree :=
  .leaf ⟨none, db.txnId addr, blake3 (keyPath ++ db.content val)⟩ key.head?

/-- A new node of the hash trie, with the hash of `compute_trie_hash`. -/
def createTrieHash (addr : Addr) (compressed : Key) (array : List (Branch × HashTree)) : HashTree :=
  .node ⟨none, db.txnId addr, blake3 (compressed ++ array.flatMap fun x => x.2.page.hash)⟩
    compressed array

/-- `deep_copy_data_to_hash` -/
def deepCopy : Key → Tree → HashTree
  | keyPath, .leaf a k v => createLeafHash blake3 db (keyPath ++ k) a k v
  | keyPath, .node a c arr => createTrieHash blake3 db a c (go (keyPath ++ c) arr)
where
  go : Key → List (Branch × Tree) → List (Branch × HashTree)
    | _, [] => []
    | keyPath, (b, t) :: arr => (b, deepCopy keyPath t) :: go keyPath arr

/-- The nodes `_cursor.find` pushes, the innermost first, and those that are there already. -/
def descend : HashTree → List HashTree → Key → List HashTree
  | .leaf p k, above, _ => .leaf p k :: above
  | .node p c arr, above, key =>
    let pre := (getPrefix key c).1
    let above := .node p c arr :: above
    if pre < c.length then above else (go arr above (key.drop pre)).getD above
where
  go : List (Branch × HashTree) → List HashTree → Key → Option (List HashTree)
    | [], _, _ => none
    | (b, t) :: arr, above, rest =>
      if b = rest.head? then some (t.descend above rest) else go arr above rest

/-- `_HashLookup::find` with a new cursor. -/
def lookup (root : Option HashTree) (path : Key) (expected : NodeTypes) : Option (List UInt8) :=
  match root with
  | none => none
  | some h =>
    match expected, h.descend [] path with
    | .leaf, back :: _ => if back.type = .leaf then some back.page.hash else none
    | .trie, back :: above =>
      if back.type = .trie then some back.page.hash
      else
        match above with
        | parent :: _ => if parent.type = .trie then some parent.page.hash else none
        | [] => none
    | _, [] => none

theorem deepCopy_go_eq (keyPath : Key) (arr : List (Branch × Tree)) :
    deepCopy.go blake3 db keyPath arr = Branches.mapSnd (deepCopy blake3 db keyPath) arr := by
  induction arr with
  | nil => simp [deepCopy.go]
  | cons x arr ih => simp [deepCopy.go, ih]

@[simp]
theorem deepCopy_leaf (p : Key) (a : Addr) (k : Key) (v : Value) :
    deepCopy blake3 db p (.leaf a k v) = createLeafHash blake3 db (p ++ k) a k v := by
  simp [deepCopy]

@[simp]
theorem deepCopy_node (p : Key) (a : Addr) (c : Key) (arr : List (Branch × Tree)) :
    deepCopy blake3 db p (.node a c arr) =
      createTrieHash blake3 db a c (Branches.mapSnd (deepCopy blake3 db (p ++ c)) arr) := by
  rw [deepCopy, deepCopy_go_eq]

end HashTree

namespace Tree

variable (blake3 : List UInt8 → List UInt8) (db : HashSource)

/-- The string that is hashed for a node below `p`. -/
def hashed (p : Key) : Tree → List UInt8
  | .leaf _ k v => p ++ k ++ db.content v
  | .node _ c arr => c ++ arr.flatMap fun x => (HashTree.deepCopy blake3 db (p ++ c) x.2).page.hash

/-- All strings that are hashed for a trie below `p`. -/
def strings : Key → Tree → List (List UInt8)
  | p, .leaf a k v => [hashed blake3 db p (.leaf a k v)]
  | p, .node a c arr => hashed blake3 db p (.node a c arr) :: go (p ++ c) arr
where
  go : Key → List (Branch × Tree) → List (List UInt8)
    | _, [] => []
    | p, (_, t) :: arr => strings p t ++ go p arr

theorem strings_go_eq (p : Key) (arr : List (Branch × Tree)) :
    strings.go blake3 db p arr = arr.flatMap fun x => strings blake3 db p x.2 := by
  induction arr with
  | nil => simp [strings.go]
  | cons x arr ih => simp [strings.go, ih]

theorem hashed_mem_strings (p : Key) (t : Tree) : hashed blake3 db p t ∈ strings blake3 db p t := by
  cases t <;> simp [strings]

theorem strings_child {p : Key} {a : Addr} {c : Key} {arr : List (Branch × Tree)}
    {x : Branch × Tree} (hx : x ∈ arr) :
    strings blake3 db (p ++ c) x.2 ⊆ strings blake3 db p (.node a c arr) := by
  intro s hs
  rw [strings, strings_go_eq]
  exact List.mem_cons_of_mem _ (List.mem_flatMap.mpr ⟨x, hx, hs⟩)

theorem hash_deepCopy (p : Key) (t : Tree) :
    (HashTree.deepCopy blake3 db p t).page.hash = blake3 (hashed blake3 db p t) := by
  cases t with
  | leaf a k v => simp [HashTree.createLeafHash, HashTree.page, hashed]
  | node a c arr =>
    simp [HashTree.createTrieHash, HashTree.page, hashed, Branches.mapSnd, List.flatMap_map]

/-- The keys of a trie below `p` with the contents of their values. -/
def contents (p : Key) (t : Tree) : List (Key × List UInt8) :=
  (behind p t.entries).map fun e => (e.1, db.content e.2)

@[simp]
theorem contents_leaf (p : Key) (a : Addr) (k : Key) (v : Value) :
    contents db p (.leaf a k v) = [(p ++ k, db.content v)] := rfl

theorem contents_node (p : Key) (a : Addr) (c : Key) (arr : List (Branch × Tree)) :
    contents db p (.node a c arr) = arr.flatMap fun x => contents db (p ++ c) x.2 := by
  rw [contents, entries_node, behind_behind]
  simp [contents, behind, branchEntries, List.map_flatMap, Function.comp_def]

theorem mem_contents {p : Key} {t : Tree} {k : Key} {d : List UInt8} :
    (k, d) ∈ contents db p t ↔ ∃ v, (k, v) ∈ behind p t.entries ∧ db.content v = d := by
  simp only [contents, List.mem_map, Prod.mk.injEq, Prod.exists]
  constructor
  . rintro ⟨k', v, h, rfl, rfl⟩
    exact ⟨v, h, rfl⟩
  . rintro ⟨v, h, rfl⟩
    exact ⟨k, v, h, rfl, rfl⟩

end Tree

namespace Stop

/-- The node whose hash `_HashLookup::find` returns where a search has ended, and its place. -/
def landed (s : Stop) : NodeTypes → Option (Path × Tree)
  | .leaf => if s.tree.isLeaf then some (s.path, s.tree) else none
  | .trie =>
    if s.tree.isLeaf then s.path.head?.map fun st => (s.path.tail, st.tree s.tree)
    else some (s.path, s.tree)

end Stop

namespace HashTree

variable (blake3 : List UInt8 → List UInt8) (db : HashSource)

/-- The copies of the nodes on a path. -/
def above : Path → Tree → List HashTree
  | [], _ => []
  | s :: p, t => deepCopy blake3 db (Path.str p) (s.tree t) :: above p (s.tree t)

theorem descend_go_mapSnd {arr : List (Branch × Tree)} {p : Key} {st : List HashTree} {rest : Key} :
    descend.go (Branches.mapSnd (deepCopy blake3 db p) arr) st rest =
      (arr.find? (fun x => x.1 = rest.head?)).map fun x => (deepCopy blake3 db p x.2).descend st rest := by
  induction arr with
  | nil => simp [descend.go]
  | cons x arr ih =>
    rw [Branches.mapSnd_cons, descend.go]
    by_cases hx : x.1 = rest.head?
    . simp [hx]
    . simp [hx, ih]

theorem descend_short {c key : Key} (p : Key) (a : Addr) (arr : List (Branch × Tree))
    (st : List HashTree) (h : (getPrefix key c).1 < c.length) :
    (deepCopy blake3 db p (.node a c arr)).descend st key = deepCopy blake3 db p (.node a c arr) :: st := by
  rw [deepCopy_node, createTrieHash, descend, if_pos h]

theorem descend_node (p : Key) (a : Addr) (c : Key) (arr : List (Branch × Tree))
    (st : List HashTree) (rest : Key) :
    (deepCopy blake3 db p (.node a c arr)).descend st (c ++ rest) =
      ((arr.find? (fun x => x.1 = rest.head?)).map fun x =>
        (deepCopy blake3 db (p ++ c) x.2).descend (deepCopy blake3 db p (.node a c arr) :: st) rest).getD
          (deepCopy blake3 db p (.node a c arr) :: st) := by
  rw [← descend_go_mapSnd, deepCopy_node, createTrieHash, descend, Tree.getPrefix_self_append,
    if_neg (Nat.lt_irrefl _), List.drop_left]

theorem find?_split {l r : List (Branch × Tree)} {b : Branch} {t : Tree}
    (hs : Branches.Sorted (l ++ (b, t) :: r)) :
    (l ++ (b, t) :: r).find? (fun x => x.1 = b) = some (b, t) := by
  have hl : l.find? (fun x => x.1 = b) = none := by
    rw [List.find?_eq_none]
    intro x hx hb
    have hlt := (Branches.sorted_append_cons.mp hs).2.2.1 x hx
    rw [of_decide_eq_true hb] at hlt
    omega
  rw [List.find?_append, hl]
  simp

/-- The search in the hash trie ends at the copy of the node where the search in the data ends. -/
theorem descend_deepCopy {p : Path} {t : Tree} (key : Key) (hwf : t.WF) :
    (deepCopy blake3 db p.str t).descend (above blake3 db p t) key =
      deepCopy blake3 db (t.search p key).path.str (t.search p key).tree ::
        above blake3 db (t.search p key).path (t.search p key).tree := by
  induction t using Tree.induct generalizing p key with
  | leaf a k v =>
    rw [Tree.search_leaf, deepCopy_leaf]
    rfl
  | node a c arr ih =>
    rcases getPrefix_cases key c with ⟨r, rfl, -⟩ | ⟨h1, -, -⟩ | ⟨h1, -, -⟩
    . rw [descend_node]
      cases hset : Branches.isset arr r.head? with
      | false =>
        have hnone : arr.find? (fun x => x.1 = r.head?) = none := by
          simpa [Branches.isset] using hset
        rw [hnone, Tree.search_missing hset]
        rfl
      | true =>
        obtain ⟨l, x, r', rfl⟩ := Branches.exists_split hset
        let s : Step := ⟨a, c, l, r.head?, r'⟩
        have hsort := (Tree.wf_node.mp hwf).2.2.1
        have hsearch : (Tree.node a c (l ++ (r.head?, x) :: r')).search p (c ++ r) =
            x.search (s :: p) r := Tree.search_branch (s := s) hsort rfl
        rw [find?_split hsort, hsearch]
        exact ih (r.head?, x) (by simp) (p := s :: p) r ((Tree.wf_node.mp hwf).2.2.2.2 _ (by simp))
    . rw [descend_short blake3 db _ a arr _ h1, Tree.search_short a arr p h1]
    . rw [descend_short blake3 db _ a arr _ h1, Tree.search_short a arr p h1]

theorem type_deepCopy (p : Key) (t : Tree) :
    (deepCopy blake3 db p t).type = if t.isLeaf then .leaf else .trie := by
  cases t with
  | leaf a k v => simp [createLeafHash, type, Tree.isLeaf]
  | node a c arr => simp [createTrieHash, type, Tree.isLeaf]

/-- `_HashLookup::find` returns the hash of the node `landed` says. -/
theorem lookup_deepCopy {t : Tree} (hwf : t.WF) (path : Key) (expected : NodeTypes) :
    lookup (some (deepCopy blake3 db [] t)) path expected =
      ((t.search [] path).landed expected).map fun x =>
        blake3 (Tree.hashed blake3 db x.1.str x.2) := by
  have h := descend_deepCopy blake3 db (p := []) path hwf
  rw [Path.str_nil, above] at h
  obtain ⟨s, hs⟩ : ∃ s, s = t.search [] path := ⟨_, rfl⟩
  rw [← hs] at h ⊢
  obtain ⟨p, u, _, _, _⟩ := s
  cases expected with
  | leaf =>
    simp only [lookup, h, type_deepCopy, Stop.landed]
    cases hu : u.isLeaf <;> simp [Tree.hash_deepCopy]
  | trie =>
    simp only [lookup, h, type_deepCopy, Stop.landed]
    cases hu : u.isLeaf with
    | false => simp [Tree.hash_deepCopy]
    | true =>
      cases p with
      | nil => simp [above]
      | cons st p =>
        have htype : (deepCopy blake3 db (Path.str p) (st.tree u)).type = .trie := type_deepCopy blake3 db _ _
        simp only [above, htype, List.head?_cons, List.tail_cons, Option.map_some, Tree.hash_deepCopy,
          ↓reduceIte, reduceCtorEq]

end HashTree
end Leaves
