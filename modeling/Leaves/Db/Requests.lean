import Leaves.Db.Deleter

/-!
Where a change of a trie may end with an exception: in front of every page it asks for, and of every
page it frees, as the queue of the freed pages may need a page itself. A request that fails leaves
the pages as they are.
-/

namespace Leaves

/-- The pages and the root in front of a request. -/
abbrev Request := Heap × Addr

/-- The requests of what comes after `r`, there is nothing after a failure. -/
def requestsAfter {α β : Type} (r : Except Fault α) (requests : α → List β) : List β :=
  match r with
  | .ok x => requests x
  | .error _ => []

/-- The requests of `relink`: the nodes are copied and freed before a link is written. -/
def relinkRequests (h : Heap) (root : Addr) : List Transition → List Request
  | [] => []
  | f :: fs =>
    if h.needsCow f.node then
      (h, root) :: requestsAfter (h.copyPage f.node) fun (_, h) =>
        (h, root) :: relinkRequests (h.free f.node) root fs
    else []

namespace Cursor

def createBigkeyRequests : Nat → Heap → Cursor → List Request
  | 0, _, _ => []
  | n + 1, h, c =>
    if c.restKey.length ≤ 255 then []
    else
      (h, c.root) ::
        requestsAfter (h.allocNode (TrieNode.sizeMax 255 1) (bigkeyNode c.restKey)) fun (trie, h) =>
          let (h, c) := pushLink h c trie
          createBigkeyRequests n h c.fillBigkey

def createLeafRequests (h : Heap) (c : Cursor) : List Request :=
  createBigkeyRequests c.restKey.length h c ++
    requestsAfter (createBigkey c.restKey.length h c) fun (h, c) => [(h, c.root)]

def replaceNodeRequests (h : Heap) (c : Cursor) (f : Transition) (fs : List Transition)
    (trie : Addr) : List Request :=
  (h, c.root) :: (relinkRequests (h.free f.node) c.root fs ++
    requestsAfter (updateOffset (h.free f.node) c f fs trie) fun (h, c) => createLeafRequests h c)

def firstExecRequests (h : Heap) (c : Cursor) (f : Transition) : List Request :=
  (h, c.root) ::
    if 255 < c.restKey.length then
      requestsAfter (h.allocNode (TrieNode.sizeMax 255 1) (bigkeyNode c.restKey)) fun (trie, h) =>
        createLeafRequests h (c.enterRoot f trie).fillBigkey
    else []

def changeLeafRequests (h : Heap) (c : Cursor) (f : Transition) (fs : List Transition)
    (l : LeafNode) (v : Value) : List Request :=
  (h, c.root) ::
    if f.cmp = 0 then
      requestsAfter (fillLeaf h l.key v) fun (_, h) =>
        (h, c.root) :: relinkRequests (h.free f.node) c.root fs
    else
      let okey := (l.key.drop f.prefixLen).head?
      let nkey := c.restKey.head?
      requestsAfter (copyReducedLeaf h f.node l f.prefixLen) fun (copy, h) =>
        let c := c.setBranchKey fs.length (nkey.getD 255)
        (h, c.root) ::
          requestsAfter (h.allocNode (TrieNode.size2 f.prefixLen okey nkey)
              (.trie (TrieNode.create2 (l.key.take f.prefixLen) okey copy nkey))) fun (trie, h) =>
            replaceNodeRequests h c { f with cmp := 0, linkIdx := TrieNode.index2 okey nkey } fs trie

def splitCompressedRequests (h : Heap) (c : Cursor) (f : Transition) (fs : List Transition)
    (t : TrieNode) : List Request :=
  let okey := (t.compressed.drop f.prefixLen).head?
  let key := c.restKey.head?
  (h, c.root) ::
    requestsAfter (h.allocNode (t.changedLen (t.len - f.prefixLen))
        (.trie (t.createPrefix (t.compressed.drop f.prefixLen)))) fun (child, h) =>
      let c := c.noteBranch fs.length key
      (h, c.root) ::
        requestsAfter (h.allocNode (TrieNode.size2 f.prefixLen okey key)
            (.trie (TrieNode.create2 (t.compressed.take f.prefixLen) okey child key)))
          fun (trie, h) =>
            replaceNodeRequests h c { f with linkIdx := TrieNode.index2 okey key } fs trie

/-- `add_to_array` changes the node in place. -/
def AddsInPlace (h : Heap) (c : Cursor) (f : Transition) (fs : List Transition) (t : TrieNode) :
    Prop :=
  let key := if c.restKey = [] then none else some (c.branchKey fs.length)
  h.needsCow f.node = false ∧
    t.incrementSize key ≤ pageSize (h.page f.node).slotId - PAGE_HEADER_SIZE

instance (h : Heap) (c : Cursor) (f : Transition) (fs : List Transition) (t : TrieNode) :
    Decidable (AddsInPlace h c f fs t) :=
  inferInstanceAs (Decidable (_ ∧ _))

def addToArrayRequests (h : Heap) (c : Cursor) (f : Transition) (fs : List Transition)
    (t : TrieNode) : List Request :=
  let key := if c.restKey = [] then none else some (c.branchKey fs.length)
  let needed := t.incrementSize key
  let f' := { f with cmp := 0, linkIdx := t.addIndex key }
  if AddsInPlace h c f fs t then
    let page := { h.page f.node with used := needed, node := .trie (t.createAdd key) }
    createLeafRequests (h.setPage f.node page) { c with stack := f' :: fs }
  else
    (h, c.root) :: requestsAfter (h.allocNode needed (.trie (t.createAdd key))) fun (trie, h) =>
      replaceNodeRequests h c f' fs trie

/-- The requests of `value`. -/
def valueRequests (h : Heap) (c : Cursor) (v : Value) : List Request :=
  match c.stack with
  | [] =>
    if c.root = 0 then
      firstExecRequests h (c.push 0) ⟨0, 0, u16 c.currentKey.length, UNDEFINED, NO_LINK⟩
    else []
  | f :: fs =>
    match h.rd f.node with
    | .leaf l => changeLeafRequests h c f fs l v
    | .trie t =>
      if f.prefixLen = t.len then addToArrayRequests h c f fs t
      else splitCompressedRequests h c f fs t

def reduceArrayRequests (h : Heap) (c : Cursor) (g : Transition) (gs : List Transition)
    (t : TrieNode) (prefixLen : Nat) : List Request :=
  let branch := if prefixLen = 0 then none else some (c.branchKey gs.length)
  let g' := { g with cmp := -1, prefixLen := if prefixLen = 0 then 0 else g.prefixLen }
  (h, c.root) ::
    requestsAfter (h.allocNode (t.decrementSize branch) (.trie (t.createRemove branch)))
      fun (trie, h) =>
        relinkRequests h c.root gs ++
          requestsAfter (updateOffset h c g' gs trie) fun (h, c) => [(h, c.root)]

def takePlaceRequests (h : Heap) (c : Cursor) (g : Transition) (gs : List Transition)
    (node child : Addr) : List Request :=
  relinkRequests h c.root gs ++
    requestsAfter (updateOffset h c { g with cmp := 1 } gs node) fun (h, c) =>
      [(h, c.root), (h.free child, c.root)]

def combineRequests (h : Heap) (c : Cursor) (g : Transition) (gs : List Transition) (t : TrieNode)
    (prefixLen : Nat) : List Request :=
  let remaining := t.link (if g.linkIdx ≠ 0 then 0 else 1)
  match h.rd remaining with
  | .trie child =>
    let len := t.len + child.len
    if 255 < len then reduceArrayRequests h c g gs t prefixLen
    else
      (h, c.root) ::
        requestsAfter (h.allocNode (child.changedLen len)
            (.trie (child.createPrefix (t.compressed ++ child.compressed)))) fun (trie, h) =>
          takePlaceRequests h c g gs trie remaining
  | .leaf child =>
    let len := t.len + child.key.length
    if 255 < len then reduceArrayRequests h c g gs t prefixLen
    else
      (h, c.root) ::
        requestsAfter (h.allocNode (LeafNode.sizeOf len child.vsize)
            (.leaf { child with key := t.compressed ++ child.key })) fun (leaf, h) =>
          takePlaceRequests h c g gs leaf remaining

def removeNodeRequests : List Transition → Heap → Cursor → List Request
  | [], _, _ => []
  | [_], h, c => [(h, c.leaveRoot.root)]
  | f :: g :: gs, h, c =>
    let c := c.pop
    match h.rd g.node with
    | .leaf _ => []
    | .trie t =>
      match t.count with
      | 0 => [(h, c.root)]
      | 1 =>
        removeNodeRequests (g :: gs) h c ++
          requestsAfter (removeNode (g :: gs) h c) fun (h, c) => [(h, c.root)]
      | 2 =>
        combineRequests h c g gs t f.prefixLen ++
          requestsAfter (combine h c g gs t f.prefixLen) fun (h, c) => [(h, c.root)]
      | _ =>
        reduceArrayRequests h c g gs t f.prefixLen ++
          requestsAfter (reduceArray h c g gs t f.prefixLen) fun (h, c) => [(h, c.root)]

/-- The requests of `remove`. -/
def removeRequests (h : Heap) (c : Cursor) : List Request :=
  if c.isValid h.rd then removeNodeRequests c.stack h c else []

/-- The requests of `relink` are two for every node that is copied. -/
def relinkSafe (h : Heap) (fs : List Transition) : Nat :=
  2 * (fs.takeWhile fun f => h.needsCow f.node).length

/-- The number of requests of `value` before something is written that the root leads to. -/
def valueSafe (h : Heap) (c : Cursor) : Nat :=
  match c.stack with
  | [] => 1
  | f :: fs =>
    match h.rd f.node with
    | .leaf l =>
      if f.cmp = 0 then 2 + relinkSafe h fs
      -- the flag of the leaf is cleared as soon as it has been copied
      else if l.big then 1
      else 3 + relinkSafe h fs
    | .trie t =>
      if f.prefixLen = t.len then
        if AddsInPlace h c f fs t then 0 else 2 + relinkSafe h fs
      else 3 + relinkSafe h fs

/-- The number of requests of `remove` before something is written that the root leads to. -/
def removeSafe (h : Heap) : List Transition → Nat
  | _ :: g :: gs =>
    match h.rd g.node with
    | .leaf _ => 0
    | .trie t => if t.count = 1 then removeSafe h (g :: gs) else 1 + relinkSafe h gs
  | _ => 0

end Cursor
end Leaves
