import Leaves.Replication.Places

/-!
The transfer of a hash trie, `replication/_transfer.hpp` for the sender and
`replication/_replication_fsm.hpp` for the receiver. A message holds one subtrie: the sender writes
its nodes as deep as `_max_depth` says and as far as they fit and keeps for later where it stopped.
The receiver zeroes what it has itself, acknowledges it and counts the offsets that are still
outstanding. The values of big leaves and the temporary trie are not part of the transfer.
-/

namespace Leaves

/-- `sizeof(ReplicationTransferHeader)` -/
def TRANSFER_HEADER_SIZE : Nat := 45

/--
A node of a message at its offset in the buffer. Of the offsets in the array of a trie those that
are set come first, the others are 0.
-/
inductive Wire where
  | leaf (offset : Nat) (hash : List UInt8) (leaf : LeafNode)
  | trie (offset : Nat) (hash : List UInt8) (compressed : Key) (branches : List Branch)
    (array : List Wire)
  deriving Inhabited

namespace Wire

/-- `sizeof(TrieNode)`, with the hash and the first byte of the string. -/
def TRIE_NODE_SIZE : Nat := 6 + HASH_SIZE + 1

/-- `sizeof(LeafNode)`, with the hash and the first byte of the key. -/
def LEAF_NODE_SIZE : Nat := LeafNode.HEADER_SIZE + HASH_SIZE + 1

def trieSize (compressed : Key) (branches : List Branch) : Nat :=
  let lowerSize := 4 * (TrieNode.upper (branches.map fun b => (b, 0))).length
  align (padding (TRIE_NODE_SIZE + compressed.length) 4 + lowerSize + 8 * branches.length)

def leafSize (leaf : LeafNode) : Nat :=
  LeafNode.HEADER_SIZE + HASH_SIZE + leaf.key.length + leaf.vsize

end Wire

/-- `ReplicationTransferTrie`: the buffer of the sender, `nodes` are those that are in it. -/
structure Transfer where
  capacity : Nat
  size : Nat
  full : Bool
  nodes : List HashOffset
  deriving Inhabited

namespace Transfer

def begin (t : Transfer) (subtriePath : Key) : Transfer :=
  let headerSize := align (TRANSFER_HEADER_SIZE + subtriePath.length)
  { capacity := max t.capacity headerSize, size := headerSize, full := false, nodes := [] }

/-- `add_trie_node` and `add_leaf_node` with the offset `_alloc_node` finds for the node. -/
def add (t : Transfer) (destSize : Nat) (node : HashOffset) : Option Nat × Transfer :=
  let alignedPos := align t.size
  if alignedPos + destSize ≤ t.capacity then
    (some alignedPos, { t with size := alignedPos + destSize, nodes := t.nodes ++ [node] })
  else (none, { t with full := true })

end Transfer

structure PendingTrieNode where
  path : Key
  offset : HashOffset
  nextChild : Nat
  deriving Inhabited

structure TransferMessage where
  subtriePath : Key
  nodeCount : Nat
  root : Option Wire
  totalSize : Nat
  deriving Inhabited

structure TransferTrieSender where
  transfer : Transfer
  pending : List PendingTrieNode
  lastBatch : List PendingTrieNode
  deriving Inhabited

namespace TransferTrieSender

/-- `_is_pruned_by_ack`, an acknowledged path is that of a leaf or of a trie. -/
def isPrunedByAck (acks : List (Key × Bool)) (path : Key) (pruneLeafExact : Bool) : Bool :=
  acks.any fun a =>
    (!a.2 && a.1.isPrefixOf path) || (pruneLeafExact && a.2 && a.1 == path)

def processAck (s : TransferTrieSender) (acks : List (Key × Bool)) : TransferTrieSender :=
  { s with
    pending := s.pending ++ s.lastBatch.filter fun p => !isPrunedByAck acks p.path false
    lastBatch := [] }

def hasPending (s : TransferTrieSender) : Bool := !s.pending.isEmpty || !s.lastBatch.isEmpty

variable (find : Key → LeafNode) (maxDepth : Nat)

/--
`_write_subtree` for the offset at `place`, `find` is the leaf of the data trie where the search of
the cursor for a path ends.
-/
def writeSubtree : TransferTrieSender → Nat → List Nat → Key → HashTree →
    Option Wire × TransferTrieSender
  | s, _, place, path, .leaf page branch =>
    let dataLeaf := find (path ++ branch.toList)
    match s.transfer.add (Wire.leafSize dataLeaf) ⟨place, path, .leaf page branch⟩ with
    | (none, t) => (none, { s with transfer := t })
    | (some dest, t) => (some (.leaf dest page.hash dataLeaf), { s with transfer := t })
  | s, depth, place, path, .node page c arr =>
    let branches := arr.map (·.1)
    let hashOffset : HashOffset := ⟨place, path, .node page c arr⟩
    match s.transfer.add (Wire.trieSize c branches) hashOffset with
    | (none, t) => (none, { s with transfer := t })
    | (some dest, t) =>
      let s := { s with transfer := t }
      if maxDepth ≤ depth then
        (some (.trie dest page.hash c branches []),
          { s with lastBatch := s.lastBatch ++ [⟨path ++ c, hashOffset, 0⟩] })
      else
        let (array, s) := go s (depth + 1) place (path ++ c) 0 arr
        (some (.trie dest page.hash c branches array),
          if array.length < arr.length then
            { s with lastBatch := s.lastBatch ++ [⟨path ++ c, hashOffset, array.length⟩] }
          else s)
where
  go : TransferTrieSender → Nat → List Nat → Key → Nat → List (Branch × HashTree) →
      List Wire × TransferTrieSender
    | s, _, _, _, _, [] => ([], s)
    | s, depth, place, path, i, (_, t) :: arr =>
      if s.transfer.full then ([], s)
      else
        match writeSubtree s depth (place ++ [i]) path t with
        | (none, s) => ([], s)
        | (some w, s) =>
          let (array, s) := go s depth place path (i + 1) arr
          (w :: array, s)

/-- `fill_buffer` and `finalize` for the hash trie `root`. -/
def fillBuffer (root : Option HashTree) (s : TransferTrieSender) :
    TransferMessage × TransferTrieSender :=
  match s.pending.getLast? with
  | none =>
    let s := { s with transfer := s.transfer.begin [] }
    let (w, s) :=
      match root with
      | none => (none, s)
      | some t => writeSubtree find maxDepth s 0 [] [] t
    (⟨[], s.transfer.nodes.length, w, s.transfer.size⟩, s)
  | some p =>
    let s := { s with transfer := s.transfer.begin p.path }
    let (w, s) :=
      match p.offset.children[p.nextChild]? with
      | none => (none, s)
      | some child => writeSubtree find maxDepth s 0 child.place p.path child.tree
    let rest :=
      if p.offset.children.length ≤ p.nextChild + 1 then []
      else [{ p with nextChild := p.nextChild + 1 }]
    (⟨p.path, s.transfer.nodes.length, w, s.transfer.size⟩,
      { s with pending := s.pending.dropLast ++ rest })

end TransferTrieSender

/-- `_pending_children` and `_prune_paths` of the receiver. -/
structure ReplicationReceiver where
  pendingChildren : Int
  prunePaths : List (Key × Bool)
  deriving DecidableEq, Repr, Inhabited

namespace ReplicationReceiver

variable (hashLookup : Key → NodeTypes → Option (List UInt8)) (bufferEnd : Nat)

/-- `_compare_wire_with_local` for an offset that is set. -/
def compareWireWithLocal : ReplicationReceiver → Key → Wire → ReplicationReceiver
  | r, path, .leaf offset hash leaf =>
    let r := { r with pendingChildren := r.pendingChildren - 1 }
    let path := path ++ leaf.key
    -- a leaf of 35 bytes that is the last node of its message is taken to be out of bounds
    if bufferEnd < offset + Wire.LEAF_NODE_SIZE ∨ bufferEnd < offset + Wire.leafSize leaf then r
    else if hashLookup path .leaf = some hash ∧ leaf.big = true then
      { r with prunePaths := r.prunePaths ++ [(path, true)] }
    else r
  | r, path, .trie offset hash c branches array =>
    let r := { r with pendingChildren := r.pendingChildren - 1 }
    let path := path ++ c
    if bufferEnd < offset + Wire.TRIE_NODE_SIZE ∨ bufferEnd < offset + Wire.trieSize c branches then
      r
    else if hashLookup path .trie = some hash then
      { r with prunePaths := r.prunePaths ++ [(path, false)] }
    else go { r with pendingChildren := r.pendingChildren + branches.length } path array
where
  go : ReplicationReceiver → Key → List Wire → ReplicationReceiver
    | r, _, [] => r
    | r, path, w :: array => go (compareWireWithLocal r path w) path array

/-- `_process_received_nodes` -/
def processReceivedNodes (r : ReplicationReceiver) (msg : TransferMessage) : ReplicationReceiver :=
  if msg.nodeCount = 0 then r
  else
    let r :=
      if msg.subtriePath = [] then { r with pendingChildren := r.pendingChildren + 1 } else r
    match msg.root with
    | none => r
    | some w => compareWireWithLocal hashLookup msg.totalSize r msg.subtriePath w

/-- `_send_prune_ack` -/
def sendPruneAck (r : ReplicationReceiver) : List (Key × Bool) × ReplicationReceiver :=
  (r.prunePaths, { r with prunePaths := [] })

end ReplicationReceiver
end Leaves
