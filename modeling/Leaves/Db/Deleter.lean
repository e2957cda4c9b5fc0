import Leaves.Db.Inserter

/-!
Removing the key of a valid cursor, `db/_deleter.hpp`. A node that has lost its last branch is
removed too, a node with one branch left is combined with its child.
-/

namespace Leaves
namespace Cursor

/-- `reduce_array`: the branch of the removed child is taken out of a copy of its node `t`. -/
def reduceArray (h : Heap) (c : Cursor) (g : Transition) (gs : List Transition) (t : TrieNode)
    (prefixLen : Nat) : Except Fault (Heap × Cursor) := do
  let branch := if prefixLen = 0 then none else some (c.branchKey gs.length)
  let (trie, h) ← h.allocNode (t.decrementSize branch) (.trie (t.createRemove branch))
  -- the `NONE` key goes to the first child
  let g' := { g with cmp := -1, prefixLen := if prefixLen = 0 then 0 else g.prefixLen }
  let (h, c) ← updateOffset h c g' gs trie
  let h := h.free g.node
  .ok (h, c.next h.rd)

/-- The end of `combine`: `node` takes the place of the parent `g` and of its remaining child. -/
def takePlace (h : Heap) (c : Cursor) (g : Transition) (gs : List Transition) (node child : Addr) :
    Except Fault (Heap × Cursor) := do
  let (h, c) ← updateOffset h c { g with cmp := 1 } gs node
  let h := (h.free child).free g.node
  -- the remaining child is in front of the removed one
  if g.linkIdx ≠ 0 then
    .ok (h, c.next h.rd)
  else
    .ok (h, firstTop h.rd MAX_DEPTH (c.resizeKey g.keypos))

/-- `combine` the parent with the only child, unless the string gets too big. -/
def combine (h : Heap) (c : Cursor) (g : Transition) (gs : List Transition) (t : TrieNode)
    (prefixLen : Nat) : Except Fault (Heap × Cursor) :=
  let remaining := t.link (if g.linkIdx ≠ 0 then 0 else 1)
  match h.rd remaining with
  | .trie child =>
    let len := t.len + child.len
    if 255 < len then
      reduceArray h c g gs t prefixLen
    else do
      let (trie, h) ← h.allocNode (child.changedLen len)
        (.trie (child.createPrefix (t.compressed ++ child.compressed)))
      takePlace h c g gs trie remaining
  | .leaf child =>
    let len := t.len + child.key.length
    if 255 < len then
      reduceArray h c g gs t prefixLen
    else do
      let (leaf, h) ← h.allocNode (LeafNode.sizeOf len child.vsize)
        (.leaf { child with key := t.compressed ++ child.key })
      takePlace h c g gs leaf remaining

/-- `*offset = 0` for the transition at the root. -/
def leaveRoot (c : Cursor) : Cursor := { c with root := 0 }

/-- `remove_node` for the first of the transitions, the top of the stack. -/
def removeNode : List Transition → Heap → Cursor → Except Fault (Heap × Cursor)
  | [], h, c => .ok (h, c)
  | [f], h, c => .ok (h.free f.node, c.leaveRoot.pop)
  | f :: g :: gs, h, c =>
    let c := c.pop
    match h.rd g.node with
    | .leaf _ => .ok (h, c)
    | .trie t => do
      let (h, c) ←
        match t.count with
        | 0 => .ok (h, c)
        | 1 => removeNode (g :: gs) h c
        | 2 => combine h c g gs t f.prefixLen
        | _ => reduceArray h c g gs t f.prefixLen
      .ok (h.free f.node, c)

/-- `remove()` -/
def remove (h : Heap) (c : Cursor) : Except Fault (Heap × Cursor) :=
  if c.isValid h.rd then removeNode c.stack h c else .error .noValidPosition

end Cursor
end Leaves
