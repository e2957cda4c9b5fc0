import Leaves.Db.Update

/-!
Inserting a key and changing its value, `db/_inserter.hpp`, from the place a `find` has ended at.
The bytes of the value are copied into the leaf by the caller of `reserve`, here they are part of
the operation.
-/

namespace Leaves
namespace Cursor

/-- `fill_leaf` and the copy of the value into the new leaf. -/
def fillLeaf (h : Heap) (key : Key) (v : Value) : Except Fault (Addr × Heap) :=
  h.allocNode (LeafNode.sizeOf key.length v.bytes.length) (.leaf ⟨key, v.big, v.bytes⟩)

/-- The new place `node` of the node at the top of the stack, `update_offset`. -/
def updateOffset (h : Heap) (c : Cursor) (f : Transition) (fs : List Transition) (node : Addr) :
    Except Fault (Heap × Cursor) := do
  let (h, root, fs) ← relink h c.root fs node
  .ok (h, { c with root, stack := { f with node } :: fs })

/-- `*link() = addr` and `push()` at the top of the stack. -/
def pushLink (h : Heap) (c : Cursor) (addr : Addr) : Heap × Cursor :=
  match c.stack with
  | [] => (h, c)
  | f :: _ => (h.setLink f.node f.linkIdx addr, c.push addr)

/-- The node `fill_bigkey` fills: 255 bytes of the key and the branch of the byte behind them. -/
def bigkeyNode (key : Key) : Node :=
  .trie (TrieNode.create1 (key.take 255) (key.drop 255).head?)

/-- `fill_bigkey` for the transition at the top of the stack. -/
def fillBigkey (c : Cursor) : Cursor :=
  match c.stack with
  | [] => c
  | f :: fs =>
    (({ c with stack := { f with prefixLen := 255, cmp := 0, linkIdx := 0 } :: fs }).setBranchKey
      fs.length ((c.restKey.drop 255).head?.getD 0)).advanceKey 255

/-- `create_bigkey`: each round takes 255 bytes of the key. -/
def createBigkey : Nat → Heap → Cursor → Except Fault (Heap × Cursor)
  | 0, h, c => .ok (h, c)
  | n + 1, h, c =>
    if c.restKey.length ≤ 255 then
      .ok (h, c)
    else do
      let (trie, h) ← h.allocNode (TrieNode.sizeMax 255 1) (bigkeyNode c.restKey)
      let (h, c) := pushLink h c trie
      createBigkey n h c.fillBigkey

/-- The top of the stack is the leaf with the rest of the key. -/
def enterLeaf (c : Cursor) : Cursor :=
  match c.stack with
  | [] => c
  | f :: fs =>
    ({ c with stack := { f with prefixLen := c.restKey.length, cmp := 0 } :: fs }).advanceKey
      c.restKey.length

def createLeaf (h : Heap) (c : Cursor) (v : Value) : Except Fault (Heap × Cursor) := do
  let (h, c) ← createBigkey c.restKey.length h c
  let (leaf, h) ← fillLeaf h c.restKey v
  let (h, c) := pushLink h c leaf
  .ok (h, c.enterLeaf)

/--
The end of every insertion with a new trie node: the old node is freed, the new one linked, and the
leaf hung under its new branch.
-/
def replaceNode (h : Heap) (c : Cursor) (f : Transition) (fs : List Transition) (trie : Addr)
    (v : Value) : Except Fault (Heap × Cursor) := do
  let (h, c) ← updateOffset (h.free f.node) c f fs trie
  createLeaf h c v

/-- `*offset = node` for the transition at the root. -/
def enterRoot (c : Cursor) (f : Transition) (node : Addr) : Cursor :=
  { c with root := node, stack := [{ f with node }] }

/-- `first_exec`: the very first value, the top of the stack is the root without a node. -/
def firstExec (h : Heap) (c : Cursor) (f : Transition) (v : Value) : Except Fault (Heap × Cursor) :=
  if 255 < c.restKey.length then do
    let (trie, h) ← h.allocNode (TrieNode.sizeMax 255 1) (bigkeyNode c.restKey)
    createLeaf h (c.enterRoot f trie).fillBigkey v
  else do
    let (leaf, h) ← fillLeaf h c.restKey v
    .ok (h, (c.enterRoot f leaf).enterLeaf)

/--
`copy_reduced_leaf`: the big value belongs to the copy, so the flag of the original is cleared in
place.
-/
def copyReducedLeaf (h : Heap) (a : Addr) (l : LeafNode) (splitPos : Nat) :
    Except Fault (Addr × Heap) := do
  let (copy, h) ← h.allocNode (LeafNode.sizeOf (l.key.length - splitPos) l.vsize)
    (.leaf { l with key := l.key.drop splitPos })
  .ok (copy, if l.big then h.setNode a (.leaf { l with big := false }) else h)

/-- `change_leaf` -/
def changeLeaf (h : Heap) (c : Cursor) (f : Transition) (fs : List Transition) (l : LeafNode)
    (v : Value) : Except Fault (Heap × Cursor) :=
  if f.cmp = 0 then do
    let (leaf, h) ← fillLeaf h l.key v
    updateOffset (h.free f.node) c f fs leaf
  else do
    let okey := (l.key.drop f.prefixLen).head?
    let nkey := c.restKey.head?
    let (copy, h) ← copyReducedLeaf h f.node l f.prefixLen
    let c := c.setBranchKey fs.length (nkey.getD 255)
    let (trie, h) ← h.allocNode (TrieNode.size2 f.prefixLen okey nkey)
      (.trie (TrieNode.create2 (l.key.take f.prefixLen) okey copy nkey))
    replaceNode h c { f with cmp := 0, linkIdx := TrieNode.index2 okey nkey } fs trie v

/-- `branch_key` is only written if the key goes on. -/
def noteBranch (c : Cursor) (depth : Nat) : Branch → Cursor
  | none => c
  | some b => c.setBranchKey depth b

/-- `split_compressed` for a search that has ended inside the string of the node. -/
def splitCompressed (h : Heap) (c : Cursor) (f : Transition) (fs : List Transition) (t : TrieNode)
    (v : Value) : Except Fault (Heap × Cursor) := do
  let okey := (t.compressed.drop f.prefixLen).head?
  let key := c.restKey.head?
  let (child, h) ← h.allocNode (t.changedLen (t.len - f.prefixLen))
    (.trie (t.createPrefix (t.compressed.drop f.prefixLen)))
  let c := c.noteBranch fs.length key
  let (trie, h) ← h.allocNode (TrieNode.size2 f.prefixLen okey key)
    (.trie (TrieNode.create2 (t.compressed.take f.prefixLen) okey child key))
  replaceNode h c { f with linkIdx := TrieNode.index2 okey key } fs trie v

/-- `add_to_array`: in place if the node belongs to this transaction and its page has enough room.
-/
def addToArray (h : Heap) (c : Cursor) (f : Transition) (fs : List Transition) (t : TrieNode)
    (v : Value) : Except Fault (Heap × Cursor) :=
  let key := if c.restKey = [] then none else some (c.branchKey fs.length)
  let needed := t.incrementSize key
  let f := { f with cmp := 0, linkIdx := t.addIndex key }
  if h.needsCow f.node = false ∧
      needed ≤ pageSize (h.page f.node).slotId - PAGE_HEADER_SIZE then
    let page := { h.page f.node with used := needed, node := .trie (t.createAdd key) }
    createLeaf (h.setPage f.node page) { c with stack := f :: fs } v
  else do
    let (trie, h) ← h.allocNode needed (.trie (t.createAdd key))
    replaceNode h c f fs trie v

/-- `exec` at the top of the stack. -/
def insertExec (h : Heap) (c : Cursor) (f : Transition) (fs : List Transition) (v : Value) :
    Except Fault (Heap × Cursor) :=
  match h.rd f.node with
  | .leaf l => changeLeaf h c f fs l v
  | .trie t =>
    if f.prefixLen = t.len then addToArray h c f fs t v else splitCompressed h c f fs t v

/-- `value(v)` -/
def value (h : Heap) (c : Cursor) (v : Value) : Except Fault (Heap × Cursor) :=
  match c.stack with
  | [] =>
    if c.root = 0 then
      firstExec h (c.push 0) ⟨0, 0, u16 c.currentKey.length, UNDEFINED, NO_LINK⟩ v
    else
      .error .noValidPosition
  | f :: fs => insertExec h c f fs v

end Cursor
end Leaves
