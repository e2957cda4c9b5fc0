import Leaves.Replication.Hash

/-!
The update of a hash trie, `_HashUpdater` of `replication/_hash.hpp`: what belongs to the same
transaction as the data is kept, the rest is made anew beside the old pages, which are freed.
-/

namespace Leaves

/-- The number of bytes at the front that are equal. -/
def commonLength : Key → Key → Nat
  | b :: k, b' :: k' => if b = b' then commonLength k k' + 1 else 0
  | _, _ => 0

namespace HashTree

/-- `free_hash_subtree`, the pages in the order they are freed. -/
def freeSubtree : HashTree → List (Option Addr)
  | .leaf p _ => [p.addr]
  | .node p _ arr => go arr ++ [p.addr]
where
  go : List (Branch × HashTree) → List (Option Addr)
    | [] => []
    | (_, h) :: arr => h.freeSubtree ++ go arr

/-- The number of nodes on the longest way down. -/
def height : HashTree → Nat
  | .leaf _ _ => 1
  | .node _ _ arr => go arr + 1
where
  go : List (Branch × HashTree) → Nat
    | [] => 0
    | (_, h) :: arr => max h.height (go arr)

/-- The node the offset is set to, and the pages that have been freed. -/
abbrev Synced := HashTree × List (Option Addr)

/--
`sync_nodes` with the key path, both nodes, and the bytes of the hash node and of the data node that
have been passed already.
-/
abbrev Sync := Key → Tree → HashTree → Nat → Nat → Synced

variable (blake3 : List UInt8 → List UInt8) (db : HashSource)

/-- The hash trie is replaced by a copy of the data. -/
def replaceHash (keyPath : Key) (data : Tree) (hash : HashTree) : Synced :=
  (deepCopy blake3 db keyPath data, hash.freeSubtree)

/-- `sync_data_leaf` -/
def syncDataLeaf (keyPath : Key) (a : Addr) (k : Key) (v : Value) (hash : HashTree)
    (dataSkip : Nat) : Synced :=
  (createLeafHash blake3 db (keyPath ++ k.drop dataSkip) a k v, hash.freeSubtree)

/-- A new node with the branches of the data, whatever has been made of each, and what is freed. -/
def syncBranches (a : Addr) (c : Key) (arr : List (Branch × Tree)) (sync : Branch → Tree → Synced) :
    Synced :=
  (createTrieHash blake3 db a c (arr.map fun x => (x.1, (sync x.1 x.2).1)),
    arr.flatMap fun x => (sync x.1 x.2).2)

/-- `do_branch` of `sync_matching_tries`: what becomes of the branch `k`. -/
def doBranch (sync : Sync) (keyPath : Key) (hashArr : List (Branch × HashTree)) (k : Branch)
    (child : Tree) : Synced :=
  match hashArr.find? fun y => y.1 == k with
  | some y => sync keyPath child y.2 0 0
  | none => (deepCopy blake3 db keyPath child, [])

/-- `sync_matching_tries`, the key path has the string of the node already. -/
def syncMatchingTries (sync : Sync) (keyPath : Key) (a : Addr) (c : Key)
    (arr : List (Branch × Tree)) (page : HashPage) (hashArr : List (Branch × HashTree)) : Synced :=
  let (trie, freed) := syncBranches blake3 db a c arr (doBranch blake3 db sync keyPath hashArr)
  let pruned := hashArr.filter fun y => !Branches.isset arr y.1
  (trie, freed ++ freeSubtree.go pruned ++ [page.addr])

/-- `sync_data_trie` -/
def syncDataTrie (sync : Sync) (keyPath : Key) (a : Addr) (c : Key) (arr : List (Branch × Tree))
    (hash : HashTree) (hashSkip dataSkip : Nat) : Synced :=
  match hash with
  | .leaf _ _ => replaceHash blake3 db keyPath (.node a c arr) hash
  | .node page hashPrefix hashArr =>
    let dataRest := c.drop dataSkip
    let hashRest := hashPrefix.drop hashSkip
    let common := commonLength dataRest hashRest
    match dataRest.drop common, hashRest.drop common with
    | _ :: _, _ :: _ => replaceHash blake3 db keyPath (.node a c arr) hash
    | [], divergeByte :: _ =>
      -- the hash node hangs below the branch of the data with its next byte
      if Branches.isset arr (some divergeByte) then
        syncBranches blake3 db a c arr fun k child =>
          if k = some divergeByte then
            sync (keyPath ++ dataRest) child hash (hashSkip + common) 0
          else (deepCopy blake3 db (keyPath ++ dataRest) child, [])
      else replaceHash blake3 db keyPath (.node a c arr) hash
    | nextByte :: _, [] =>
      -- only the branch with the next byte of the data is of use
      let pruned := hashArr.filter fun y => y.1 != some nextByte
      match hashArr.find? fun y => y.1 == some nextByte with
      | some y =>
        let (synced, freed) := sync (keyPath ++ dataRest.take common) (.node a c arr) y.2 0
          (dataSkip + common)
        (synced, freeSubtree.go pruned ++ freed ++ [page.addr])
      | none =>
        (deepCopy blake3 db keyPath (.node a c arr), freeSubtree.go pruned ++ [page.addr])
    | [], [] =>
      syncMatchingTries blake3 db sync (keyPath ++ dataRest) a c arr page hashArr

/-- `sync_nodes` where there are both nodes. -/
def syncNodes : Nat → Sync
  | 0, _, _, hash, _, _ => (hash, [])
  | fuel + 1, keyPath, data, hash, hashSkip, dataSkip =>
    if hashSkip = 0 ∧ dataSkip = 0 ∧ db.txnId data.addr = hash.page.txnId then (hash, [])
    else
      match data with
      | .leaf a k v => syncDataLeaf blake3 db keyPath a k v hash dataSkip
      | .node a c arr =>
        syncDataTrie blake3 db (syncNodes fuel) keyPath a c arr hash hashSkip dataSkip

/-- `update_hash_trie`: every call goes down a level of the data or of the hash trie. -/
def updateHashTrie : Trie → Option HashTree → Option HashTree × List (Option Addr)
  | none, none => (none, [])
  | none, some hash => (none, hash.freeSubtree)
  | some data, none => (some (deepCopy blake3 db [] data), [])
  | some data, some hash =>
    let (synced, freed) := syncNodes blake3 db (data.height + hash.height) [] data hash 0 0
    (some synced, freed)

end HashTree
end Leaves
