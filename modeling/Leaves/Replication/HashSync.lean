import Leaves.Replication.HashUpdate
import Leaves.Trie.Lookup
import Leaves.Trie.Shape
import Mathlib.Algebra.BigOperators.Group.List.Basic

/-!
An update makes of the hash trie what a rebuild would make: as long as the pages tell what has
changed, and no string of the data has grown over the end of an old one.
-/

namespace Leaves

section Common

variable {k k' : Key}

theorem take_commonLength (k k' : Key) :
    k.take (commonLength k k') = k'.take (commonLength k k') := by
  fun_induction commonLength k k' with
  | case1 k b k' ih => rw [List.take_succ_cons, List.take_succ_cons, ih]
  | case2 b k b' k' hne => rfl
  | case3 k k' => rfl

/-- What is left of one string where the other one ends. -/
theorem eq_append_of_drop_eq_nil (h : k.drop (commonLength k k') = []) :
    k' = k ++ k'.drop (commonLength k k') := by
  have hk : k = k'.take (commonLength k k') := by
    rw [← take_commonLength, List.take_of_length_le (List.drop_eq_nil_iff.mp h)]
  calc k' = k'.take (commonLength k k') ++ k'.drop (commonLength k k') :=
        (List.take_append_drop _ _).symm
    _ = k ++ k'.drop (commonLength k k') := by rw [← hk]

theorem eq_append_of_drop_eq_nil' (h : k'.drop (commonLength k k') = []) :
    k = k' ++ k.drop (commonLength k k') := by
  have hk : k' = k.take (commonLength k k') := by
    rw [take_commonLength, List.take_of_length_le (List.drop_eq_nil_iff.mp h)]
  calc k = k.take (commonLength k k') ++ k.drop (commonLength k k') :=
        (List.take_append_drop _ _).symm
    _ = k' ++ k.drop (commonLength k k') := by rw [← hk]

end Common

namespace HashTree

/-- The hash trie without the pages it is stored in. -/
def bare : HashTree → HashTree
  | .leaf p k => .leaf ⟨none, p.txnId, p.hash⟩ k
  | .node p c arr => .node ⟨none, p.txnId, p.hash⟩ c (go arr)
where
  go : List (Branch × HashTree) → List (Branch × HashTree)
    | [] => []
    | (b, h) :: arr => (b, h.bare) :: go arr

theorem bare_go_eq (arr : List (Branch × HashTree)) : bare.go arr = Branches.mapSnd bare arr := by
  induction arr with
  | nil => rfl
  | cons x arr ih => rw [bare.go, ih, Branches.mapSnd_cons]

theorem bare_leaf (p : HashPage) (k : Branch) :
    (HashTree.leaf p k).bare = .leaf ⟨none, p.txnId, p.hash⟩ k := by
  rw [bare]

theorem bare_node (p : HashPage) (c : Key) (arr : List (Branch × HashTree)) :
    (HashTree.node p c arr).bare = .node ⟨none, p.txnId, p.hash⟩ c (Branches.mapSnd bare arr) := by
  rw [bare, bare_go_eq]

theorem hash_bare (h : HashTree) : h.bare.page.hash = h.page.hash := by
  cases h <;> rfl

theorem txnId_bare (h : HashTree) : h.bare.page.txnId = h.page.txnId := by
  cases h <;> rfl

theorem freeSubtree_go_eq (arr : List (Branch × HashTree)) :
    freeSubtree.go arr = arr.flatMap fun x => x.2.freeSubtree := by
  induction arr with
  | nil => rfl
  | cons x arr ih => rw [freeSubtree.go, ih, List.flatMap_cons]

theorem freeSubtree_node (p : HashPage) (c : Key) (arr : List (Branch × HashTree)) :
    (HashTree.node p c arr).freeSubtree = (arr.flatMap fun x => x.2.freeSubtree) ++ [p.addr] := by
  rw [freeSubtree, freeSubtree_go_eq]

theorem height_lt_of_mem {x : Branch × HashTree} {p : HashPage} {c : Key}
    {arr : List (Branch × HashTree)} (hx : x ∈ arr) :
    x.2.height < (HashTree.node p c arr).height := by
  rw [height]
  induction arr with
  | nil => cases hx
  | cons y arr ih =>
    rw [height.go]
    rcases List.mem_cons.mp hx with rfl | hx
    . omega
    . have := ih hx
      omega

variable (blake3 : List UInt8 → List UInt8) (db : HashSource)

theorem bare_createTrieHash (a : Addr) (c : Key) (arr : List (Branch × HashTree)) :
    (createTrieHash blake3 db a c arr).bare =
      createTrieHash blake3 db a c (Branches.mapSnd bare arr) := by
  have hhash : (Branches.mapSnd bare arr).flatMap (fun x => x.2.page.hash) =
      arr.flatMap fun x => x.2.page.hash := by
    rw [Branches.mapSnd, List.flatMap_map]
    simp only [hash_bare]
  rw [createTrieHash, bare_node, createTrieHash, hhash]

/-- A copy has no pages yet. -/
theorem bare_deepCopy (p : Key) (t : Tree) :
    (deepCopy blake3 db p t).bare = deepCopy blake3 db p t := by
  induction t using Tree.induct generalizing p with
  | leaf a k v => rw [deepCopy_leaf, createLeafHash, bare]
  | node a c arr ih =>
    rw [deepCopy_node, bare_createTrieHash]
    congr 1
    rw [Branches.mapSnd, Branches.mapSnd, List.map_map]
    exact List.map_congr_left fun x hx => Prod.ext rfl (ih x hx (p ++ c))

theorem count_deepCopy (p : Key) (t : Tree) (a : Addr) :
    (deepCopy blake3 db p t).freeSubtree.count (some a) = 0 := by
  induction t using Tree.induct generalizing p with
  | leaf b k v => rfl
  | node b c arr ih =>
    rw [deepCopy_node, createTrieHash, freeSubtree_node, List.count_append, Branches.mapSnd,
      List.flatMap_map, List.count_flatMap]
    have hsum : (arr.map (List.count (some a) ∘ fun x =>
        (deepCopy blake3 db (p ++ c) x.2).freeSubtree)).sum = 0 := by
      refine List.sum_eq_zero_iff_forall_eq_nat.mpr fun n hn => ?_
      obtain ⟨x, hx, rfl⟩ := List.mem_map.mp hn
      exact ih x hx (p ++ c)
    rw [hsum]
    rfl

/-- What `hash` has become is what a rebuild makes of `t`, the other pages of it have been freed. -/
structure Rebuilds (r : Synced) (hash : HashTree) (p : Key) (t : Tree) : Prop where
  tree : r.1.bare = deepCopy blake3 db p t
  pages : ∀ a, r.2.count (some a) + r.1.freeSubtree.count (some a) = hash.freeSubtree.count (some a)

variable {blake3 db}

theorem replaceHash_rebuilds (p : Key) (t : Tree) (hash : HashTree) :
    Rebuilds blake3 db (replaceHash blake3 db p t hash) hash p t := by
  refine ⟨bare_deepCopy blake3 db p t, fun a => ?_⟩
  rw [replaceHash, count_deepCopy, Nat.add_zero]

theorem syncDataLeaf_rebuilds (p : Key) (a : Addr) (k : Key) (v : Value) (hash : HashTree) :
    Rebuilds blake3 db (syncDataLeaf blake3 db p a k v hash 0) hash p (.leaf a k v) := by
  refine ⟨?_, fun b => ?_⟩
  . rw [deepCopy_leaf]
    rfl
  . rw [syncDataLeaf, createLeafHash, freeSubtree]
    simp

section Branches

variable {a : Addr} {c p : Key} {arr : List (Branch × Tree)} {sync : Branch → Tree → Synced}

theorem syncBranches_bare
    (h : ∀ x ∈ arr, (sync x.1 x.2).1.bare = deepCopy blake3 db (p ++ c) x.2) :
    (syncBranches blake3 db a c arr sync).1.bare = deepCopy blake3 db p (.node a c arr) := by
  rw [syncBranches, bare_createTrieHash, deepCopy_node]
  congr 1
  rw [Branches.mapSnd, Branches.mapSnd, List.map_map]
  exact List.map_congr_left fun x hx => Prod.ext rfl (h x hx)

/-- The pages of the branches, one after the other. -/
theorem syncBranches_count (blake3 : List UInt8 → List UInt8) (db : HashSource) (a : Addr) (c : Key)
    (arr : List (Branch × Tree)) (sync : Branch → Tree → Synced) (b : Addr) :
    (syncBranches blake3 db a c arr sync).2.count (some b) +
        (syncBranches blake3 db a c arr sync).1.freeSubtree.count (some b) =
      (arr.map fun x => (sync x.1 x.2).2.count (some b) +
        (sync x.1 x.2).1.freeSubtree.count (some b)).sum := by
  have hnew : (syncBranches blake3 db a c arr sync).1.freeSubtree.count (some b) =
      (arr.map fun x => (sync x.1 x.2).1.freeSubtree.count (some b)).sum := by
    rw [syncBranches, createTrieHash, freeSubtree_node, List.count_append, List.flatMap_map,
      List.count_flatMap]
    rfl
  rw [hnew, syncBranches, List.count_flatMap, ← List.sum_map_add]
  rfl

end Branches

/-- Only one of the branches has pages of the old hash trie. -/
theorem sum_map_single {β : Type} {l r : List β} {x : β} {f : β → Nat} (hl : ∀ y ∈ l, f y = 0)
    (hr : ∀ y ∈ r, f y = 0) : ((l ++ x :: r).map f).sum = f x := by
  have hleft : (l.map f).sum = 0 := by
    refine List.sum_eq_zero_iff_forall_eq_nat.mpr fun n hn => ?_
    obtain ⟨y, hy, rfl⟩ := List.mem_map.mp hn
    exact hl y hy
  have hright : (r.map f).sum = 0 := by
    refine List.sum_eq_zero_iff_forall_eq_nat.mpr fun n hn => ?_
    obtain ⟨y, hy, rfl⟩ := List.mem_map.mp hn
    exact hr y hy
  rw [List.map_append, List.map_cons, List.sum_append, List.sum_cons, hleft, hright]
  omega

/-- The branches of the hash node are those the data asks for and those that are pruned. -/
theorem sum_find {β γ : Type} {arr : List (Branch × β)} {hashArr : List (Branch × γ)} {f : γ → Nat}
    (hs : Branches.Sorted arr) (hs' : Branches.Sorted hashArr) :
    (arr.map fun x => ((hashArr.find? fun y => y.1 == x.1).map fun y => f y.2).getD 0).sum +
        ((hashArr.filter fun y => !Branches.isset arr y.1).map fun y => f y.2).sum =
      (hashArr.map fun y => f y.2).sum := by
  induction arr with
  | nil => simp [Branches.isset]
  | cons x arr ih =>
    have hx : Branches.isset arr x.1 = false := by
      rw [Bool.eq_false_iff, ne_eq, Branches.isset_iff]
      rintro ⟨z, hz⟩
      have hlt : x.1.toInt < x.1.toInt := (List.pairwise_cons.mp hs).1 (x.1, z) hz
      exact lt_irrefl _ hlt
    rw [← ih hs.of_cons, List.map_cons, List.sum_cons]
    cases hfind : hashArr.find? fun y => y.1 == x.1 with
    | none =>
      have hsame : hashArr.filter (fun y => !Branches.isset (x :: arr) y.1) =
          hashArr.filter fun y => !Branches.isset arr y.1 := by
        refine List.filter_congr fun y hy => ?_
        have hne : x.1 ≠ y.1 := fun heq =>
          List.find?_eq_none.mp hfind y hy (beq_iff_eq.mpr heq.symm)
        simp [Branches.isset, hne]
      rw [hsame]
      simp
    | some y =>
      obtain ⟨hy, l, r, rfl, hl⟩ := List.find?_eq_some_iff_append.mp hfind
      have hkey : y.1 = x.1 := eq_of_beq hy
      obtain ⟨-, -, h1, h2, -⟩ := Branches.sorted_append_cons.mp hs'
      have hside : ∀ z, z ∈ l ∨ z ∈ r → (!Branches.isset (x :: arr) z.1) =
          !Branches.isset arr z.1 := by
        intro z hz
        have hne : x.1 ≠ z.1 := by
          intro heq
          rw [← hkey] at heq
          rcases hz with hz | hz
          . have := h1 z hz
            rw [heq] at this
            omega
          . have := h2 z hz
            rw [heq] at this
            omega
        simp [Branches.isset, hne]
      have hmid : (!Branches.isset (x :: arr) y.1) = false := by simp [Branches.isset, hkey]
      have hmid' : (!Branches.isset arr y.1) = true := by rw [hkey, hx]; rfl
      rw [List.filter_append, List.filter_append, List.filter_cons, List.filter_cons, hmid, hmid',
        List.filter_congr fun z hz => hside z (Or.inl hz),
        List.filter_congr fun z hz => hside z (Or.inr hz)]
      simp only [Bool.false_eq_true, ↓reduceIte, List.map_append, List.map_cons, List.sum_append,
        List.sum_cons, Option.map_some, Option.getD_some]
      omega

/-- The same for a single branch. -/
theorem sum_find_one {γ : Type} {hashArr : List (Branch × γ)} {f : γ → Nat} (k : Branch)
    (hs' : Branches.Sorted hashArr) :
    ((hashArr.find? fun y => y.1 == k).map fun y => f y.2).getD 0 +
        ((hashArr.filter fun y => y.1 != k).map fun y => f y.2).sum =
      (hashArr.map fun y => f y.2).sum := by
  have hone : Branches.Sorted [(k, ())] := List.pairwise_singleton _ _
  have hsame : hashArr.filter (fun y => !Branches.isset [(k, ())] y.1) =
      hashArr.filter fun y => y.1 != k := by
    refine List.filter_congr fun y _ => ?_
    rw [Branches.isset, List.any_cons, List.any_nil, Bool.or_false, BEq.comm]
    rfl
  rw [← sum_find hone hs', hsame]
  simp

/-- A copy has the transactions and the contents of its source. -/
theorem deepCopy_congr {db' : HashSource} {t : Tree} (p : Key)
    (htxn : ∀ a ∈ t.addrs, db'.txnId a = db.txnId a)
    (hcontent : ∀ e ∈ t.entries, db'.content e.2 = db.content e.2) :
    deepCopy blake3 db' p t = deepCopy blake3 db p t := by
  induction t using Tree.induct generalizing p with
  | leaf a k v =>
    have hv := hcontent (k, v) (by simp)
    rw [deepCopy_leaf, deepCopy_leaf, createLeafHash, createLeafHash, htxn a (by simp), hv]
  | node a c arr ih =>
    rw [deepCopy_node, deepCopy_node]
    have harr : Branches.mapSnd (deepCopy blake3 db' (p ++ c)) arr =
        Branches.mapSnd (deepCopy blake3 db (p ++ c)) arr := by
      refine List.map_congr_left fun x hx => Prod.ext rfl (ih x hx (p ++ c) ?_ ?_)
      . intro b hb
        refine htxn b ?_
        rw [Tree.addrs_node]
        exact List.mem_cons_of_mem a (Tree.addrs_subset hx b hb)
      . intro e he
        refine hcontent (c ++ e.1, e.2) ?_
        rw [Tree.entries_node, Tree.mem_behind]
        exact ⟨e.1, rfl, Tree.mem_branchEntries.mpr ⟨x, hx, he⟩⟩
    rw [harr, createTrieHash, createTrieHash, htxn a (by simp)]

/-- The hash node under a branch is a copy of the data under this branch. -/
theorem mirrors_child {q : Key} {k : Branch} {y : Branch × HashTree}
    {hashArr : List (Branch × HashTree)} {arr : List (Branch × Tree)}
    (h : Branches.mapSnd bare hashArr = Branches.mapSnd (deepCopy blake3 db q) arr)
    (hfind : hashArr.find? (fun y => y.1 == k) = some y) :
    ∃ l x r, arr = l ++ (k, x) :: r ∧ y.2.bare = deepCopy blake3 db q x := by
  have hkey : y.1 = k :=
    eq_of_beq (List.find?_some (p := fun y : Branch × HashTree => y.1 == k) hfind)
  have hmem : (y.1, y.2.bare) ∈ Branches.mapSnd (deepCopy blake3 db q) arr := by
    rw [← h]
    exact List.mem_map.mpr ⟨y, List.mem_of_find?_eq_some hfind, rfl⟩
  obtain ⟨x, hx, heq⟩ := List.mem_map.mp hmem
  obtain ⟨l, r, rfl⟩ := List.append_of_mem hx
  rw [Prod.mk.injEq] at heq
  refine ⟨l, x.2, r, ?_, heq.2.symm⟩
  rw [← hkey, ← heq.1]

end HashTree

namespace Tree

/-- Both are roots, or they start with the same byte where they are. -/
def SamePlace (p : Path) (u : Tree) (p' : Path) (u' : Tree) : Prop :=
  p.str = p'.str ∧ (u.head = u'.head ∨ p = [] ∧ p' = [])

/--
What the update relies on: a node at the same place whose page is of the same transaction is the
node it was, with everything below it.
-/
def CopyOnWrite (db db' : HashSource) (t t' : Tree) : Prop :=
  ∀ (p p' : Path) (u u' : Tree), p.plug u = t → p'.plug u' = t' → SamePlace p u p' u' →
    db.txnId u.addr = db'.txnId u'.addr →
    u' = u ∧ (∀ a ∈ u.addrs, db'.txnId a = db.txnId a) ∧
      ∀ e ∈ u.entries, db'.content e.2 = db.content e.2

/-- No string of a new node goes on behind the place where an old one has ended. -/
def NoneGrown (t t' : Tree) : Prop :=
  ∀ (p p' : Path) (a a' : Addr) (c c' : Key) (arr arr' : List (Branch × Tree)),
    p.plug (.node a c arr) = t → p'.plug (.node a' c' arr') = t' →
    ∀ w r, c' = w ++ r → w ≠ [] → r ≠ [] → p.str ++ c ≠ p'.str ++ w

end Tree

namespace HashTree

section Sync

variable {blake3 : List UInt8 → List UInt8} {db db' : HashSource} {t t' : Tree}

/--
The hash node is a copy of the old data at its place. It has come to the place of the new data with
as many bytes of its string as are skipped.
-/
structure Faces (blake3 : List UInt8 → List UInt8) (db : HashSource) (t t' : Tree) (p : Path)
    (u : Tree) (p' : Path) (u' : Tree) (hash : HashTree) (skip : Nat) : Prop where
  old : p.plug u = t
  new : p'.plug u' = t'
  mirrors : hash.bare = deepCopy blake3 db p.str u
  leaf : u.isLeaf = true → skip = 0
  place : p.str ++ u.label.take skip = p'.str
  head : skip = 0 → u.head = u'.head ∨ p = [] ∧ p' = []

variable {p p' : Path} {u u' : Tree} {hash : HashTree} {skip : Nat}

theorem Faces.str (hf : Faces blake3 db t t' p u p' u' hash 0) : p.str = p'.str := by
  have hplace := hf.place
  rwa [List.take_zero, List.append_nil] at hplace

/-- A node of the same transaction is kept. -/
theorem Faces.kept (hf : Faces blake3 db t t' p u p' u' hash 0) (hcow : t.CopyOnWrite db db' t')
    (htxn : db'.txnId u'.addr = hash.page.txnId) :
    Rebuilds blake3 db' (hash, []) hash p'.str u' := by
  have hold : hash.page.txnId = db.txnId u.addr := by
    rw [← txnId_bare, hf.mirrors]
    cases u with
    | leaf a k v => rw [deepCopy_leaf]; rfl
    | node a c arr => rw [deepCopy_node]; rfl
  obtain ⟨rfl, hpages, hcontent⟩ := hcow p p' u u' hf.old hf.new ⟨hf.str, hf.head rfl⟩
    (hold.symm.trans htxn.symm)
  refine ⟨?_, fun a => ?_⟩
  . rw [hf.mirrors, hf.str, deepCopy_congr _ hpages hcontent]
  . rw [List.count_nil, Nat.zero_add]

section Node

variable {page : HashPage} {hc c : Key} {hashArr : List (Branch × HashTree)} {a : Addr}
  {arr : List (Branch × Tree)} {sync : Sync}

theorem Faces.node (hf : Faces blake3 db t t' p u p' u' (.node page hc hashArr) skip) :
    ∃ ua uarr, u = .node ua hc uarr ∧
      Branches.mapSnd bare hashArr = Branches.mapSnd (deepCopy blake3 db (p.str ++ hc)) uarr := by
  have hm := hf.mirrors
  rw [bare_node] at hm
  cases u with
  | leaf ua k v =>
    rw [deepCopy_leaf] at hm
    cases hm
  | node ua uc uarr =>
    rw [deepCopy_node, createTrieHash, HashTree.node.injEq] at hm
    obtain ⟨-, rfl, harr⟩ := hm
    exact ⟨ua, uarr, rfl, harr⟩

/-- The child of the hash node under a branch is a copy of the old data under it. -/
theorem Faces.child (hwf : t.WF)
    (hf : Faces blake3 db t t' p u p' u' (.node page hc hashArr) skip) {q' : Path} {x' : Tree}
    {k : Branch} {y : Branch × HashTree} (hnew : q'.plug x' = t') (hstr : p.str ++ hc = q'.str)
    (hhead : x'.head = k) (hfind : hashArr.find? (fun y => y.1 == k) = some y) :
    ∃ q x, Faces blake3 db t t' q x q' x' y.2 0 := by
  obtain ⟨ua, uarr, rfl, harr⟩ := hf.node
  obtain ⟨l, x, r, rfl, hy⟩ := mirrors_child harr hfind
  have hh := (Tree.wf_node.mp (Path.wf_plug.mp (hf.old ▸ hwf)).2.2).2.2.2.1 (k, x) (by simp)
  refine ⟨⟨ua, hc, l, k, r⟩ :: p, x, ⟨hf.old, hnew, hy, fun _ => rfl, ?_, fun _ => ?_⟩⟩
  . rw [List.take_zero, List.append_nil, Path.str_cons]
    exact hstr
  . exact Or.inl (hh.1.trans hhead.symm)

/-- Where the part of the hash node that is left ends is the end of the old node. -/
theorem Faces.end_eq (hf : Faces blake3 db t t' p u p' u' (.node page hc hashArr) skip) :
    p.str ++ hc = p'.str ++ hc.drop skip := by
  obtain ⟨ua, uarr, rfl, -⟩ := hf.node
  rw [← hf.place, Tree.label, List.append_assoc, List.take_append_drop]

theorem sorted_hashArr (hwf : t.WF)
    (hf : Faces blake3 db t t' p u p' u' (.node page hc hashArr) skip) :
    Branches.Sorted hashArr := by
  obtain ⟨ua, uarr, rfl, harr⟩ := hf.node
  have hsort : Branches.Sorted uarr :=
    (Tree.wf_node.mp (Path.wf_plug.mp (hf.old ▸ hwf)).2.2).2.2.1
  rw [← Branches.sorted_mapSnd (deepCopy blake3 db (p.str ++ hc)), ← harr,
    Branches.sorted_mapSnd] at hsort
  exact hsort

/-- The branches of two nodes of the same string. -/
theorem syncMatchingTries_rebuilds (hs : Branches.Sorted arr) (hs' : Branches.Sorted hashArr)
    (ih : ∀ x ∈ arr, ∀ y, hashArr.find? (fun y => y.1 == x.1) = some y →
      Rebuilds blake3 db' (sync (p'.str ++ c) x.2 y.2 0 0) y.2 (p'.str ++ c) x.2) :
    Rebuilds blake3 db' (syncMatchingTries blake3 db' sync (p'.str ++ c) a c arr page hashArr)
      (.node page hc hashArr) p'.str (.node a c arr) := by
  have hbranch : ∀ x ∈ arr, ∀ b,
      (doBranch blake3 db' sync (p'.str ++ c) hashArr x.1 x.2).1.bare =
          deepCopy blake3 db' (p'.str ++ c) x.2 ∧
        (doBranch blake3 db' sync (p'.str ++ c) hashArr x.1 x.2).2.count (some b) +
            (doBranch blake3 db' sync (p'.str ++ c) hashArr x.1 x.2).1.freeSubtree.count (some b) =
          ((hashArr.find? fun y => y.1 == x.1).map
            fun y => y.2.freeSubtree.count (some b)).getD 0 := by
    intro x hx b
    rw [doBranch]
    cases hfind : hashArr.find? fun y => y.1 == x.1 with
    | none => exact ⟨bare_deepCopy blake3 db' _ _, by simp [count_deepCopy]⟩
    | some y => exact ⟨(ih x hx y hfind).tree, (ih x hx y hfind).pages b⟩
  rw [syncMatchingTries]
  refine ⟨syncBranches_bare fun x hx => (hbranch x hx 0).1, fun b => ?_⟩
  have hcount := syncBranches_count blake3 db' a c arr
    (doBranch blake3 db' sync (p'.str ++ c) hashArr) b
  have hfound := sum_find (f := fun h => h.freeSubtree.count (some b)) hs hs'
  rw [List.map_congr_left fun x hx => (hbranch x hx b).2] at hcount
  simp only [List.count_append, freeSubtree_node, freeSubtree_go_eq, List.count_flatMap,
    Function.comp_def]
  omega

/-- The hash node goes below the branch of the data with its next byte. -/
theorem syncBelow_rebuilds {b : UInt8} {common : Nat} (hs : Branches.Sorted arr)
    (hset : Branches.isset arr (some b) = true)
    (ih : ∀ x ∈ arr, x.1 = some b →
      Rebuilds blake3 db' (sync (p'.str ++ c) x.2 hash (skip + common) 0) hash (p'.str ++ c) x.2) :
    Rebuilds blake3 db' (syncBranches blake3 db' a c arr fun k child =>
        if k = some b then sync (p'.str ++ c) child hash (skip + common) 0
        else (deepCopy blake3 db' (p'.str ++ c) child, [])) hash p'.str (.node a c arr) := by
  refine ⟨syncBranches_bare fun x hx => ?_, fun a' => ?_⟩
  . split
    next hb => exact (ih x hx hb).tree
    next => exact bare_deepCopy blake3 db' _ _
  . rw [syncBranches_count]
    obtain ⟨l, x, r, rfl⟩ := Branches.exists_split hset
    obtain ⟨-, -, hl, hr, -⟩ := Branches.sorted_append_cons.mp hs
    have hside : ∀ y, y ∈ l ∨ y ∈ r → y.1 ≠ some b := by
      rintro y (hy | hy) heq
      . have hlt := hl y hy
        rw [heq] at hlt
        exact lt_irrefl _ hlt
      . have hlt := hr y hy
        rw [heq] at hlt
        exact lt_irrefl _ hlt
    rw [sum_map_single]
    . rw [if_pos rfl]
      exact (ih (some b, x) (by simp) rfl).pages a'
    . intro y hy
      rw [if_neg (hside y (Or.inl hy)), count_deepCopy]
      rfl
    . intro y hy
      rw [if_neg (hside y (Or.inr hy)), count_deepCopy]
      rfl

theorem syncDataTrie_rebuilds (hwf : t.WF) (hwf' : t'.WF) (hgrown : t.NoneGrown t')
    (hf : Faces blake3 db t t' p u p' (.node a c arr) hash skip)
    (ih : ∀ {q x q' x' y s}, Faces blake3 db t t' q x q' x' y s →
      x'.height + y.height < (Tree.node a c arr).height + hash.height →
      Rebuilds blake3 db' (sync q'.str x' y s 0) y q'.str x') :
    Rebuilds blake3 db' (syncDataTrie blake3 db' sync p'.str a c arr hash skip 0) hash p'.str
      (.node a c arr) := by
  obtain ⟨-, -, hsort, hh, -⟩ := Tree.wf_node.mp (Path.wf_plug.mp (hf.new ▸ hwf')).2.2
  -- the place of a child of the data
  have hchild : ∀ x ∈ arr, ∃ q' : Path, q'.plug x.2 = t' ∧ q'.str = p'.str ++ c := by
    intro x hx
    obtain ⟨l, r, rfl⟩ := List.append_of_mem hx
    exact ⟨⟨a, c, l, x.1, r⟩ :: p', hf.new, rfl⟩
  cases hash with
  | leaf page k => exact replaceHash_rebuilds _ _ _
  | node page hc hashArr =>
    have hend := hf.end_eq
    unfold syncDataTrie
    simp only [List.drop_zero, Nat.zero_add]
    split
    next => exact replaceHash_rebuilds _ _ _
    next b rest hdata hhash =>
      split
      next hset =>
        -- the hash node is longer
        refine syncBelow_rebuilds hsort hset fun x hx hb => ?_
        obtain ⟨q', hnew, hstr⟩ := hchild x hx
        rw [← hstr]
        obtain ⟨ua, uarr, rfl, harr⟩ := hf.node
        refine ih (q := p) (x := .node ua hc uarr) ⟨hf.old, hnew, hf.mirrors, ?_, ?_, ?_⟩ ?_
        . intro hleaf
          cases hleaf
        . have happend := eq_append_of_drop_eq_nil hdata
          have htake : (hc.drop skip).take (commonLength c (hc.drop skip)) = c := by
            rw [← take_commonLength, List.take_of_length_le (List.drop_eq_nil_iff.mp hdata)]
          rw [Tree.label, List.take_add, htake, ← List.append_assoc, hstr]
          exact congrArg (· ++ c) hf.place
        . intro hzero
          obtain ⟨hskip, hcommon⟩ := Nat.add_eq_zero_iff.mp hzero
          rw [hcommon, hskip] at hhash
          have hfirst : hc = b :: rest := hhash
          refine Or.inl ?_
          rw [(hh x hx).1, hb, Tree.head, Tree.label, hfirst]
          rfl
        . have := Tree.height_lt_of_mem (a := a) (c := c) hx
          omega
      next => exact replaceHash_rebuilds _ _ _
    next b rest hdata hhash =>
      -- the data is longer, the hash node ends where its string begins
      have happend := eq_append_of_drop_eq_nil' hhash
      have hnil : hc.drop skip = [] := by
        by_contra hne
        obtain ⟨ua, uarr, rfl, -⟩ := hf.node
        refine hgrown p p' ua a hc c uarr arr hf.old hf.new _ _ happend hne ?_ hend
        rw [hdata]
        exact List.cons_ne_nil _ _
      have hcommon : commonLength c (hc.drop skip) = 0 := by
        rw [hnil]
        cases c <;> rfl
      have hplace : p.str ++ hc = p'.str := by rw [hend, hnil, List.append_nil]
      have hs' := sorted_hashArr hwf hf
      rw [hcommon] at hdata ⊢
      have hhead : (Tree.node a c arr).head = some b := by
        rw [List.drop_zero] at hdata
        rw [Tree.head, Tree.label, hdata]
        rfl
      rw [List.take_zero, List.append_nil]
      split
      next y hfind =>
        obtain ⟨q, x, hy⟩ := hf.child hwf hf.new hplace hhead hfind
        have hlt : y.2.height < (HashTree.node page hc hashArr).height :=
          height_lt_of_mem (List.mem_of_find?_eq_some hfind)
        have hr := ih hy (Nat.add_lt_add_left hlt _)
        refine ⟨hr.tree, fun a' => ?_⟩
        have hpages := hr.pages a'
        have hsum := sum_find_one (f := fun h => h.freeSubtree.count (some a')) (some b) hs'
        rw [hfind, Option.map_some, Option.getD_some] at hsum
        simp only [List.count_append, freeSubtree_node, freeSubtree_go_eq, List.count_flatMap,
          Function.comp_def] at hpages hsum ⊢
        omega
      next hfind =>
        refine ⟨bare_deepCopy blake3 db' _ _, fun a' => ?_⟩
        have hsum := sum_find_one (f := fun h => h.freeSubtree.count (some a')) (some b) hs'
        rw [hfind, Option.map_none, Option.getD_none] at hsum
        simp only [count_deepCopy, List.count_append, freeSubtree_node, freeSubtree_go_eq,
          List.count_flatMap, Function.comp_def] at hsum ⊢
        omega
    next hdata hhash =>
      have hc' : hc.drop skip = c := by
        have h1 := eq_append_of_drop_eq_nil hdata
        rw [hhash, List.append_nil] at h1
        exact h1
      rw [hc'] at hend
      refine syncMatchingTries_rebuilds hsort (sorted_hashArr hwf hf) fun x hx y hfind => ?_
      obtain ⟨q', hnew, hstr⟩ := hchild x hx
      obtain ⟨q, x', hy⟩ := hf.child hwf hnew (hend.trans hstr.symm) (hh x hx).1 hfind
      rw [← hstr]
      refine ih hy ?_
      have h1 := Tree.height_lt_of_mem (a := a) (c := c) hx
      have h2 : y.2.height < (HashTree.node page hc hashArr).height :=
        height_lt_of_mem (List.mem_of_find?_eq_some hfind)
      omega

end Node

theorem syncNodes_rebuilds (hwf : t.WF) (hwf' : t'.WF) (hcow : t.CopyOnWrite db db' t')
    (hgrown : t.NoneGrown t') {n : Nat} (hf : Faces blake3 db t t' p u p' u' hash skip)
    (hfuel : u'.height + hash.height ≤ n) :
    Rebuilds blake3 db' (syncNodes blake3 db' n p'.str u' hash skip 0) hash p'.str u' := by
  induction n generalizing p u p' u' hash skip with
  | zero =>
    have hpos : 0 < u'.height := by
      cases u' with
      | leaf a k v => exact Nat.one_pos
      | node a c arr => exact Nat.succ_pos _
    omega
  | succ n ih =>
    unfold syncNodes
    split
    next hsame =>
      obtain ⟨rfl, -, htxn⟩ := hsame
      exact hf.kept hcow htxn
    next =>
      cases u' with
      | leaf a k v => exact syncDataLeaf_rebuilds _ a k v hash
      | node a c arr =>
        refine syncDataTrie_rebuilds hwf hwf' hgrown hf fun hchild hlt => ?_
        exact ih hchild (by omega)

end Sync

section Update

variable (blake3 : List UInt8 → List UInt8)

/-- What a rebuild makes of a trie. -/
def rebuild (db : HashSource) (t : Trie) : Option HashTree := t.map (deepCopy blake3 db [])

/-- The pages of a hash trie. -/
def pages (hash : Option HashTree) : List (Option Addr) := (hash.map freeSubtree).getD []

variable {blake3} {db db' : HashSource} {t t' : Trie} {hash : Option HashTree}

theorem syncRoots_rebuilds {u u' : Tree} {h : HashTree} (hwf : u.WF) (hwf' : u'.WF)
    (hmirrors : h.bare = deepCopy blake3 db [] u) (hcow : u.CopyOnWrite db db' u')
    (hgrown : u.NoneGrown u') :
    Rebuilds blake3 db' (syncNodes blake3 db' (u'.height + h.height) [] u' h 0 0) h [] u' := by
  have hf : Faces blake3 db u u' [] u [] u' h 0 :=
    ⟨rfl, rfl, hmirrors, fun _ => rfl, by simp, fun _ => Or.inr ⟨rfl, rfl⟩⟩
  exact syncNodes_rebuilds hwf hwf' hcow hgrown hf (Nat.le_refl _)

theorem updateHashTrie_bare (hwf : ∀ u ∈ t, u.WF) (hwf' : ∀ u' ∈ t', u'.WF)
    (hmirrors : hash.map bare = rebuild blake3 db t)
    (hcow : ∀ u ∈ t, ∀ u' ∈ t', u.CopyOnWrite db db' u')
    (hgrown : ∀ u ∈ t, ∀ u' ∈ t', u.NoneGrown u') :
    (updateHashTrie blake3 db' t' hash).1.map bare = rebuild blake3 db' t' := by
  cases t' with
  | none => cases hash <;> rfl
  | some u' =>
    cases hash with
    | none => exact congrArg some (bare_deepCopy blake3 db' [] u')
    | some h =>
      cases t with
      | none => cases hmirrors
      | some u =>
        have hr := syncRoots_rebuilds (hwf u rfl) (hwf' u' rfl) (Option.some.inj hmirrors)
          (hcow u rfl u' rfl) (hgrown u rfl u' rfl)
        exact congrArg some hr.tree

theorem count_updateHashTrie (hwf : ∀ u ∈ t, u.WF) (hwf' : ∀ u' ∈ t', u'.WF)
    (hmirrors : hash.map bare = rebuild blake3 db t)
    (hcow : ∀ u ∈ t, ∀ u' ∈ t', u.CopyOnWrite db db' u')
    (hgrown : ∀ u ∈ t, ∀ u' ∈ t', u.NoneGrown u') (a : Addr) :
    (updateHashTrie blake3 db' t' hash).2.count (some a) +
        (pages (updateHashTrie blake3 db' t' hash).1).count (some a) =
      (pages hash).count (some a) := by
  cases t' with
  | none => cases hash <;> rfl
  | some u' =>
    cases hash with
    | none => exact (Nat.zero_add _).trans (count_deepCopy blake3 db' [] u' a)
    | some h =>
      cases t with
      | none => cases hmirrors
      | some u =>
        have hr := syncRoots_rebuilds (hwf u rfl) (hwf' u' rfl) (Option.some.inj hmirrors)
          (hcow u rfl u' rfl) (hgrown u rfl u' rfl)
        exact hr.pages a

/-- The update makes what a rebuild makes, and frees every page it does not keep, once. -/
theorem updateHashTrie_rebuilds (hwf : ∀ u ∈ t, u.WF) (hwf' : ∀ u' ∈ t', u'.WF)
    (hmirrors : hash.map bare = rebuild blake3 db t)
    (hcow : ∀ u ∈ t, ∀ u' ∈ t', u.CopyOnWrite db db' u')
    (hgrown : ∀ u ∈ t, ∀ u' ∈ t', u.NoneGrown u') :
    (updateHashTrie blake3 db' t' hash).1.map bare = rebuild blake3 db' t' ∧
      ∀ a, (updateHashTrie blake3 db' t' hash).2.count (some a) +
          (pages (updateHashTrie blake3 db' t' hash).1).count (some a) =
        (pages hash).count (some a) := by
  apply And.intro
  . exact updateHashTrie_bare hwf hwf' hmirrors hcow hgrown
  . intro a
    exact count_updateHashTrie hwf hwf' hmirrors hcow hgrown a

end Update

end HashTree

namespace Tree

variable {t t' : Tree}

/-- The keys below a branch go on with its byte. -/
theorem exists_key_below {p : Path} {a : Addr} {c : Key} {arr : List (Branch × Tree)}
    (hplug : p.plug (.node a c arr) = t) (hwf : t.WF) {x : Branch × Tree} (hx : x ∈ arr) :
    ∃ s v, s.head? = x.1 ∧ (p.str ++ (c ++ s), v) ∈ t.entries := by
  obtain ⟨-, hfits, hnode⟩ := Path.wf_plug.mp (hplug ▸ hwf)
  obtain ⟨-, -, -, hh, hw⟩ := wf_node.mp hnode
  obtain ⟨e, he⟩ := List.exists_mem_of_ne_nil _ (entries_ne_nil (hw x hx))
  refine ⟨e.1, e.2, ?_, ?_⟩
  . obtain ⟨b, u⟩ := x
    cases b with
    | some b => exact head_of_mem_entries (hh _ hx).1 he
    | none =>
      obtain ⟨l, v, rfl⟩ := entries_of_hangs_none (hh _ hx)
      rw [entries_leaf, List.mem_singleton] at he
      rw [he]
      rfl
  . rw [← hplug, Path.entries_plug, List.mem_append, List.mem_append]
    refine Or.inl (Or.inr (mem_behind.mpr ⟨c ++ e.1, rfl, ?_⟩))
    rw [entries_node, mem_behind]
    exact ⟨e.1, rfl, mem_branchEntries.mpr ⟨x, hx, he⟩⟩

/-- Where no key has been removed, no string has grown over the end of a branching node. -/
theorem noneGrown_of_keys (hwf : t.WF) (hwf' : t'.WF) (hb : t.Branching)
    (hkeys : t.keys ⊆ t'.keys) : t.NoneGrown t' := by
  intro p p' a a' c c' arr arr' hplug hplug' w r hc' hw hr hend
  have hbranching : 2 ≤ arr.length := by
    have hnode : (Tree.node a c arr).Branching := (Path.branching_plug.mp (hplug ▸ hb)).2
    exact (branching_node.mp hnode).1
  have hsort := (wf_node.mp (Path.wf_plug.mp (hplug ▸ hwf)).2.2).2.2.1
  have hfits := (Path.wf_plug.mp (hplug' ▸ hwf')).2.1
  -- the part of the string behind the old end is the same for all keys below the old node
  have hnext : ∀ x ∈ arr, x.1 = r.head? := by
    intro x hx
    obtain ⟨s, v, hs, hmem⟩ := exists_key_below hplug hwf hx
    obtain ⟨e, he, hkey⟩ := List.mem_map.mp (hkeys (List.mem_map.mpr ⟨_, hmem, rfl⟩))
    have hleads : p'.Leads (w ++ s) := by
      refine (hfits.leads [] (Or.inl ?_)).congr ?_
      . rw [label, hc']
        simp [hw]
      . rw [label, hc', List.append_nil, List.head?_append, List.head?_append]
        obtain ⟨b, w', rfl⟩ := List.exists_cons_of_ne_nil hw
        rfl
    have hbelow : (w ++ s, e.2) ∈ (Tree.node a' c' arr').entries := by
      refine (Path.mem_entries_plug (hplug'.symm ▸ hwf') hleads).mp ?_
      have heq : p'.str ++ (w ++ s) = e.1 := by
        rw [hkey, ← List.append_assoc, ← hend, List.append_assoc]
      rw [heq, hplug']
      exact he
    have hprefix := prefix_of_mem_entries hbelow
    rw [label, hc', List.prefix_append_right_inj] at hprefix
    obtain ⟨b, r', rfl⟩ := List.exists_cons_of_ne_nil hr
    obtain ⟨q, rfl⟩ := hprefix
    rw [← hs]
    rfl
  cases arr with
  | nil => cases hbranching
  | cons x arr =>
    cases arr with
    | nil => exact absurd hbranching (by simp)
    | cons y arr =>
      have hlt := (List.pairwise_cons.mp hsort).1 y (by simp)
      rw [hnext x (by simp), hnext y (by simp)] at hlt
      exact lt_irrefl _ hlt

end Tree

section Example

/-- The nodes of a trie are its root and the nodes below its branches. -/
theorem Path.cases_of_plug {p : Path} {u : Tree} {a : Addr} {c : Key} {arr : List (Branch × Tree)}
    (h : p.plug u = .node a c arr) :
    (p = [] ∧ u = .node a c arr) ∨
      ∃ q s x, p = q ++ [s] ∧ s.compressed = c ∧ x ∈ arr ∧ Path.plug q u = x.2 := by
  rcases List.eq_nil_or_concat p with rfl | ⟨q, s, rfl⟩
  . exact Or.inl ⟨rfl, h⟩
  . rw [List.concat_eq_append] at h ⊢
    rw [Path.plug_append, Path.plug_cons, Path.plug_nil, Step.tree, Tree.node.injEq] at h
    obtain ⟨-, hc, rfl⟩ := h
    exact Or.inr ⟨q, s, (s.branch, Path.plug q u), rfl, hc, by simp, rfl⟩

theorem Path.eq_of_plug_leaf {p : Path} {u : Tree} {a : Addr} {k : Key} {v : Value}
    (h : p.plug u = .leaf a k v) : p = [] ∧ u = .leaf a k v := by
  rcases List.eq_nil_or_concat p with rfl | ⟨q, s, rfl⟩
  . exact ⟨rfl, h⟩
  . rw [List.concat_eq_append, Path.plug_append, Path.plug_cons, Path.plug_nil, Step.tree] at h
    cases h

/-- The keys `ab` and `ac`, then `abd` is added. -/
def abac : Tree :=
  .node 8 [0x61] [(some 0x62, .leaf 16 [0x62] ⟨false, [1]⟩),
    (some 0x63, .leaf 24 [0x63] ⟨false, [2]⟩)]

def abdac : Tree :=
  .node 32 [0x61] [(some 0x62, .node 40 [0x62] [(none, .leaf 48 [] ⟨false, [1]⟩),
    (some 0x64, .leaf 56 [0x64] ⟨false, [3]⟩)]), (some 0x63, .leaf 24 [0x63] ⟨false, [2]⟩)]

theorem abac_wf : abac.WF ∧ abac.Branching := by
  simp [abac, Branches.Sorted, Tree.Hangs, Tree.head, Tree.label, fitsPage_iff, LeafNode.sizeOf,
    LeafNode.HEADER_SIZE]

theorem abdac_wf : abdac.WF ∧ abdac.Branching := by
  simp [abdac, Branches.Sorted, Tree.Hangs, Tree.head, Tree.label, Tree.isLeaf, fitsPage_iff,
    LeafNode.sizeOf, LeafNode.HEADER_SIZE]

/-- The leaf of `ac` stays where it is, the other nodes are of the second transaction. -/
theorem abac_cow : abac.CopyOnWrite ⟨fun _ => 1, Value.bytes⟩
    ⟨fun a => if a < 30 then 1 else 2, Value.bytes⟩ abdac := by
  intro p p' u u' hplug hplug' hplace htxn
  have hold : u'.addr < 30 := by
    by_contra hlt
    have hsame : 1 = if u'.addr < 30 then 1 else 2 := htxn
    rw [if_neg hlt] at hsame
    cases hsame
  have hkept : u' = .leaf 24 [0x63] ⟨false, [2]⟩ ∧ p'.str = [0x61] ∧ p' ≠ [] := by
    rcases Path.cases_of_plug hplug' with ⟨rfl, rfl⟩ | ⟨q, s, x, rfl, hc, hx, hq⟩
    . exact absurd hold (by decide)
    . rw [List.mem_cons, List.mem_singleton] at hx
      rcases hx with rfl | rfl
      . rcases Path.cases_of_plug hq with ⟨rfl, rfl⟩ | ⟨q', s', x', rfl, hc', hx', hq'⟩
        . exact absurd hold (by decide)
        . rw [List.mem_cons, List.mem_singleton] at hx'
          rcases hx' with rfl | rfl
          . obtain ⟨rfl, rfl⟩ := Path.eq_of_plug_leaf hq'
            exact absurd hold (by decide)
          . obtain ⟨rfl, rfl⟩ := Path.eq_of_plug_leaf hq'
            exact absurd hold (by decide)
      . obtain ⟨rfl, rfl⟩ := Path.eq_of_plug_leaf hq
        exact ⟨rfl, by rw [List.nil_append, Path.str_cons, Path.str_nil, hc]; rfl, by simp⟩
  obtain ⟨rfl, hstr, hne⟩ := hkept
  have hhead := hplace.2.resolve_right fun hnil => hne hnil.2
  rcases Path.cases_of_plug hplug with ⟨rfl, rfl⟩ | ⟨q, s, x, rfl, hc, hx, hq⟩
  . exact absurd (hplace.1.trans hstr) (by decide)
  . rw [List.mem_cons, List.mem_singleton] at hx
    rcases hx with rfl | rfl
    . obtain ⟨rfl, rfl⟩ := Path.eq_of_plug_leaf hq
      exact absurd hhead (by decide)
    . obtain ⟨rfl, rfl⟩ := Path.eq_of_plug_leaf hq
      refine ⟨rfl, ?_, fun _ _ => rfl⟩
      simp

theorem abac_keys : abac.keys ⊆ abdac.keys := by decide

/-- The hash of the leaf of `ac` is kept, the pages of the other two nodes are freed. -/
theorem updateHashTrie_rebuilds_abd :
    let hash : HashTree := .node ⟨some 64, 1, [0x61, 0x61, 0x62, 1, 0x61, 0x63, 2]⟩ [0x61]
      [(some 0x62, .leaf ⟨some 72, 1, [0x61, 0x62, 1]⟩ (some 0x62)),
        (some 0x63, .leaf ⟨some 80, 1, [0x61, 0x63, 2]⟩ (some 0x63))]
    let db : HashSource := ⟨fun a => if a < 30 then 1 else 2, Value.bytes⟩
    (HashTree.updateHashTrie id db (some abdac) (some hash)).1.map HashTree.bare =
        HashTree.rebuild id db (some abdac) ∧
      (HashTree.updateHashTrie id db (some abdac) (some hash)).2 = [some 72, some 64] ∧
      ∀ a, (HashTree.updateHashTrie id db (some abdac) (some hash)).2.count (some a) +
          (HashTree.pages (HashTree.updateHashTrie id db (some abdac) (some hash)).1).count
            (some a) =
        (HashTree.pages (some hash)).count (some a) := by
  intro hash db
  have hmirrors : (some hash).map HashTree.bare =
      HashTree.rebuild id ⟨fun _ => 1, Value.bytes⟩ (some abac) := by
    rw [HashTree.rebuild, Option.map_some, Option.map_some, abac]
    simp [hash, HashTree.bare_node, HashTree.bare_leaf, HashTree.createTrieHash,
      HashTree.createLeafHash, HashTree.page]
  have hwf : ∀ u ∈ some abac, u.WF := by
    rintro u ⟨rfl⟩
    exact abac_wf.1
  have hwf' : ∀ u ∈ some abdac, u.WF := by
    rintro u ⟨rfl⟩
    exact abdac_wf.1
  have hcow : ∀ u ∈ some abac, ∀ u' ∈ some abdac,
      u.CopyOnWrite ⟨fun _ => 1, Value.bytes⟩ db u' := by
    rintro u ⟨rfl⟩ u' ⟨rfl⟩
    exact abac_cow
  have hgrown : ∀ u ∈ some abac, ∀ u' ∈ some abdac, u.NoneGrown u' := by
    rintro u ⟨rfl⟩ u' ⟨rfl⟩
    exact Tree.noneGrown_of_keys abac_wf.1 abdac_wf.1 abac_wf.2 abac_keys
  have hr := HashTree.updateHashTrie_rebuilds hwf hwf' hmirrors hcow hgrown
  exact ⟨hr.1, by decide, hr.2⟩

end Example

end Leaves
