import Leaves.Db.Inserter

/-!
Merging one trie into another, `util/_merger.hpp`. The source is only read, so it is a tree; a
branch of it without an offset has a child with the address 0. The destination is written through
the cursor as the inserter does it.
-/

namespace Leaves

/-- `MergePolicy`: what the merger asks about the keys it comes to. -/
structure MergePolicy where
  mayOverwrite : Key → Value → Value → Bool
  mayAddLeaf : Key → Value → Bool
  mayAddTrie : Key → Bool
  migrateBigValue : Value → Value

namespace MergePolicy

/-- `StandardMergePolicy`, `migrate` copies a big value into the memory of the destination. -/
def standard (migrate : Value → Value) : MergePolicy :=
  { mayOverwrite := fun _ _ _ => true, mayAddLeaf := fun _ _ => true, mayAddTrie := fun _ => true,
    migrateBigValue := migrate }

/-- The value `fill_leaf` stores. -/
def migrated (pol : MergePolicy) (v : Value) : Value := if v.big then pol.migrateBigValue v else v

end MergePolicy

/-- The array with the branches of another one, which are not in it. -/
def Branches.union {β : Type} (arr more : List (Branch × β)) : List (Branch × β) :=
  more.foldl (fun arr x => insert arr x.1 x.2) arr

/-- `stack.clear(size)` and `current_key.resize(keypos)` -/
def Cursor.trim (c : Cursor) (size keypos : Nat) : Cursor :=
  { c.resizeKey keypos with stack := c.stack.drop (c.stack.length - size) }

namespace Merger

/-- What `merge_node` does with a child of the source. -/
abbrev Merge := Heap → Cursor → Key → Tree → Except Fault (Heap × Cursor)

variable (pol : MergePolicy)

/-- `fill_leaf` -/
def fillLeaf (h : Heap) (key : Key) (v : Value) : Except Fault (Addr × Heap) :=
  Cursor.fillLeaf h key (pol.migrated v)

/--
`selective_deep_copy_subtree` below the key `key`, `none` if nothing has survived. A policy that
asks nothing accepts everything.
-/
def selectiveDeepCopySubtree : Tree → Heap → Key → Except Fault (Option Addr × Heap)
  | .leaf a k v, h, key =>
    if a ≠ 0 ∧ pol.mayAddLeaf (key ++ k) v = true then do
      let (leaf, h) ← fillLeaf pol h k v
      .ok (some leaf, h)
    else .ok (none, h)
  | .node a c arr, h, key =>
    if a ≠ 0 ∧ pol.mayAddTrie (key ++ c) = true then do
      let (survivors, h) ← go arr h (key ++ c)
      if survivors = [] then .ok (none, h)
      else do
        let (trie, h) ← h.allocNode (TrieNode.sizeMax c.length survivors.length)
          (.trie ⟨c, survivors⟩)
        .ok (some trie, h)
    else .ok (none, h)
where
  /-- The branches that survive, in the order of `for_each_branch`. -/
  go : List (Branch × Tree) → Heap → Key → Except Fault (List (Branch × Addr) × Heap)
    | [], h, _ => .ok ([], h)
    | (b, t) :: arr, h, key => do
      let (copy, h) ← selectiveDeepCopySubtree t h key
      let (survivors, h) ← go arr h key
      .ok ((copy.map fun a => (b, a)).toList ++ survivors, h)

/-- The surviving copies of the branches `arr` of a source node with the key `key`. -/
def copyBranches (h : Heap) (key : Key) (arr : List (Branch × Tree)) :
    Except Fault (List (Branch × Addr) × Heap) :=
  selectiveDeepCopySubtree.go pol arr h key

/--
The trie node for the branches of both sides: those of the destination, and copies of the branches
that only the source has.
-/
def joinBranches (h : Heap) (key compressed : Key) (dst : List (Branch × Addr))
    (arr : List (Branch × Tree)) : Except Fault (Addr × Heap) := do
  let (survivors, h) ← copyBranches pol h key (arr.filter fun x => !Branches.isset dst x.1)
  h.allocNode (TrieNode.sizeMax compressed.length (dst.length + survivors.length))
    (.trie ⟨compressed, Branches.union dst survivors⟩)

/-- The branches both sides have, without those that are incomplete in the source. -/
def sharedBranches (dst : List (Branch × Addr)) (arr : List (Branch × Tree)) :
    List (Branch × Tree) :=
  arr.filter fun x => Branches.isset dst x.1 && x.2.addr != 0

/--
A new node with the branch `key1` to `child1` and the branch of the next byte of `key` takes the
place of the node at the top of the stack. The link of the second branch is still unset.
-/
def splitNode (h : Heap) (c : Cursor) (f : Transition) (fs : List Transition) (srcSplitPos : Nat)
    (key1 : Branch) (child1 : Addr) (key : Key) (key2 : Branch) :
    Except Fault (Addr × Heap × Cursor) := do
  let compressed := (key.drop f.keypos).take f.prefixLen
  let (trie, h) ← h.allocNode (TrieNode.size2 srcSplitPos key1 key2)
    (.trie (TrieNode.create2 compressed key1 child1 key2))
  let (h, c) ← c.updateOffset h { f with linkIdx := TrieNode.index2 key1 key2 } fs trie
  .ok (trie, h, c)

/--
`resolve_divergence` for the transition `f` above `fs`: what is left of its node is `child1` and
starts with `key1`.
-/
def resolveDivergence (merge : Merge) (h : Heap) (c : Cursor) (f : Transition)
    (fs : List Transition) (src : Tree) (srcKeypos : Nat) (key1 : Branch) (child1 : Addr)
    (key : Key) : Except Fault (Heap × Cursor) :=
  let splitPos := u16 (f.keypos + f.prefixLen)
  let srcSplitPos := u16 (splitPos - srcKeypos)
  let key2 := (key.drop splitPos).head?
  match src with
  | .leaf _ k v =>
    if pol.mayAddLeaf key v then do
      let (trie, h, c) ← splitNode h c f fs srcSplitPos key1 child1 key key2
      let (leaf, h) ← fillLeaf pol h (k.drop srcSplitPos) v
      .ok (h.setLink trie (TrieNode.index2 key1 key2) leaf, c)
    else .ok (h, c)
  | .node _ compressed arr =>
    if splitPos < key.length then
      if pol.mayAddTrie key then do
        let (survivors, h) ← copyBranches pol h key arr
        if survivors = [] then .ok (h, c)
        else do
          let (suffix, h) ← h.allocNode
            (TrieNode.sizeMax (compressed.drop srcSplitPos).length survivors.length)
            (.trie ⟨compressed.drop srcSplitPos, survivors⟩)
          let (trie, h, c) ← splitNode h c f fs srcSplitPos key1 child1 key key2
          .ok (h.setLink trie (TrieNode.index2 key1 key2) suffix, c)
      else .ok (h, c)
    else do
      -- the key of the source ends here: its branches come into the new node
      let dst := [(key1, child1)]
      let (trie, h) ← joinBranches pol h key ((key.drop f.keypos).take f.prefixLen) dst arr
      let (h, c) ← c.updateOffset h f fs trie
      match sharedBranches dst arr with
      | [] => .ok (h, c)
      | x :: _ => merge h (c.trim fs.length f.keypos) key x.2

/-- `*dst.offset = addr` above the transitions `fs`: the link is written where it is. -/
def writeOffset (h : Heap) (c : Cursor) (fs : List Transition) (addr : Addr) : Heap × Cursor :=
  match fs with
  | [] => (h, { c with root := addr })
  | g :: _ => (h.setLink g.node g.linkIdx addr, c)

/-- A leaf with another key: it is cut behind the bytes that are equal. -/
def splitLeaf (merge : Merge) (h : Heap) (c : Cursor) (f : Transition) (fs : List Transition)
    (l : LeafNode) (src : Tree) (srcKeypos : Nat) (key : Key) : Except Fault (Heap × Cursor) :=
  if f.prefixLen = 0 then
    resolveDivergence pol merge h c f fs src srcKeypos l.key.head? f.node key
  else do
    let (copy, h) ← Cursor.copyReducedLeaf h f.node l f.prefixLen
    resolveDivergence pol merge (h.free f.node) c f fs src srcKeypos
      (l.key.drop f.prefixLen).head? copy key

/-- `merge_leaf_node` -/
def mergeLeafNode (merge : Merge) (h : Heap) (c : Cursor) (f : Transition) (fs : List Transition)
    (l : LeafNode) (src : Tree) (srcKeypos : Nat) (key : Key) : Except Fault (Heap × Cursor) :=
  match src with
  | .leaf _ _ v =>
    if f.cmp = 0 then
      if pol.mayOverwrite key ⟨l.big, l.vdata⟩ v then do
        let (leaf, h) ← fillLeaf pol h l.key v
        let (h, c) := writeOffset h c fs leaf
        .ok (h.free f.node, c)
      else .ok (h, c)
    else splitLeaf pol merge h c f fs l src srcKeypos key
  | .node _ _ _ => splitLeaf pol merge h c f fs l src srcKeypos key

/-- `expand_trie_with_branch`: a copy of the node with room for the next byte of the key. -/
def expandTrieWithBranch (h : Heap) (c : Cursor) (a : Addr) (t : TrieNode) (suffixLen : Nat)
    (key : Key) : Except Fault (Addr × Nat × Heap) := do
  let branch := if suffixLen = 0 then none else (key.drop c.currentKey.length).head?
  let (trie, h) ← h.allocNode (t.incrementSize branch) (.trie (t.createAdd branch))
  .ok (trie, t.addIndex branch, h.free a)

/-- `merge_leaf_into_trie` for the leaf `k`, `v` of the source. -/
def mergeLeafIntoTrie (h : Heap) (c : Cursor) (f : Transition) (fs : List Transition) (t : TrieNode)
    (k : Key) (v : Value) (suffixLen : Nat) (key : Key) : Except Fault (Heap × Cursor) :=
  if pol.mayAddLeaf key v then do
    let (trie, idx, h) ← expandTrieWithBranch h c f.node t suffixLen key
    let (leaf, h) ← fillLeaf pol h (k.drop (k.length - suffixLen)) v
    c.updateOffset (h.setLink trie idx leaf) { f with linkIdx := idx } fs trie
  else .ok (h, c)

/-- Merging the shared branches one after the other below the new node `trie`. -/
def mergeShared (merge : Merge) (trie : Addr) (dst : List (Branch × Addr)) (size keypos : Nat)
    (key : Key) : List (Branch × Tree) → Heap → Cursor → Except Fault (Heap × Cursor)
  | [], h, c => .ok (h, c)
  | (b, t) :: shared, h, c => do
    let idx :=
      match h.rd trie with
      | .trie t => (t.arrayIndex b).getD 0
      | .leaf _ => 0
    let old := TrieNode.link ⟨[], dst⟩ ((Branches.arrayIndex dst b).getD 0)
    let (h, c) ← merge (h.setLink trie idx old) (c.trim size keypos) key t
    mergeShared merge trie dst size keypos key shared h c

/-- `merge_into_trie`: the key of the source goes past the string of the node. -/
def mergeIntoTrie (merge : Merge) (h : Heap) (c : Cursor) (f : Transition) (fs : List Transition)
    (t : TrieNode) (src : Tree) (key : Key) : Except Fault (Heap × Cursor) :=
  let suffixLen := (key.length - c.currentKey.length) % 256
  match src with
  | .leaf _ k v => mergeLeafIntoTrie pol h c f fs t k v suffixLen key
  | .node _ compressed arr =>
    if suffixLen ≠ 0 then do
      let (survivors, h) ← copyBranches pol h key arr
      if survivors = [] then .ok (h, c)
      else do
        let suffix := compressed.drop (compressed.length - suffixLen)
        let (child, h) ← h.allocNode (TrieNode.sizeMax suffix.length survivors.length)
          (.trie ⟨suffix, survivors⟩)
        let (trie, idx, h) ← expandTrieWithBranch h c f.node t suffixLen key
        c.updateOffset (h.setLink trie idx child) { f with linkIdx := idx } fs trie
    else do
      let (trie, h) ← joinBranches pol h key t.compressed t.array arr
      let (h, c) ← c.updateOffset h f fs trie
      let (h, c) ← mergeShared merge trie t.array fs.length f.keypos key
        (sharedBranches t.array arr) h c
      .ok (h.free f.node, c)

/-- `merge_trie_node` -/
def mergeTrieNode (merge : Merge) (h : Heap) (c : Cursor) (f : Transition) (fs : List Transition)
    (t : TrieNode) (src : Tree) (srcKeypos : Nat) (key : Key) : Except Fault (Heap × Cursor) :=
  if t.len - f.prefixLen = 0 then
    mergeIntoTrie pol merge h c f fs t src key
  else do
    let suffix := t.compressed.drop f.prefixLen
    let (child, h) ←
      h.allocNode (t.changedLen (t.len - f.prefixLen)) (.trie (t.createPrefix suffix))
    resolveDivergence pol merge (h.free f.node) c f fs src srcKeypos suffix.head? child key

/-- `merge_node` after `find` has come to the node at the top of the stack. -/
def mergeFound (merge : Merge) (h : Heap) (c : Cursor) (src : Tree) (srcKeypos : Nat) (key : Key) :
    Except Fault (Heap × Cursor) :=
  match c.stack with
  | [] => .ok (h, c)
  | f :: fs =>
    match h.rd f.node with
    | .trie t => mergeTrieNode pol merge h c f fs t src srcKeypos key
    | .leaf l =>
      if l.key = [] ∧ src.isLeaf = false ∧ fs ≠ [] then
        -- the leaf of `NONE`: the source goes on below the node the leaf hangs under
        match c.pop.stack with
        | [] => .ok (h, c.pop)
        | g :: gs =>
          match h.rd g.node with
          | .trie t => mergeTrieNode pol merge h c.pop g gs t src srcKeypos key
          | .leaf _ => .ok (h, c.pop)
      else mergeLeafNode pol merge h c f fs l src srcKeypos key

/-- `merge_node` for the child `src` of the source, the node above it has the key `key`. -/
def mergeNode : Nat → Merge
  | 0, h, c, _, _ => .ok (h, c)
  | fuel + 1, h, c, key, src =>
    match c.find h.rd (key ++ src.label) with
    | none => .error .keyTooBig
    | some c =>
      if c.stack = [] then do
        let (copy, h) ← selectiveDeepCopySubtree pol src h key
        .ok (h, { c with root := copy.getD 0 })
      else
        mergeFound pol (mergeNode fuel) h c src (u16 key.length) (key ++ src.label)

/-- `exec`: the merge goes down once for every level of the source. -/
def exec (h : Heap) (c : Cursor) : Trie → Except Fault (Heap × Cursor)
  | none => .ok (h, c)
  | some src => mergeNode pol src.height h c [] src

end Merger
end Leaves
