import Leaves.Merge.Hazards
import Leaves.Replication.HashSync
import Leaves.Replication.Pruning

/-!
Updates of a hash trie over runs of transactions. As long as keys are only added and values changed,
every update is a rebuild; where a string has grown over the end of an old node, the leaves below
are hashed with some bytes of their keys twice.
-/

namespace Leaves

/-- What a transaction has committed. -/
structure Snapshot where
  trie : Trie
  db : HashSource

/-- From one update to the next one keys are added and values changed, on new pages. -/
structure Snapshot.Adds (s s' : Snapshot) : Prop where
  keys : s.trie.entries.map (·.1) ⊆ s'.trie.entries.map (·.1)
  cow : ∀ u ∈ s.trie, ∀ u' ∈ s'.trie, u.CopyOnWrite s.db s'.db u'

namespace HashTree

section Runs

variable (blake3 : List UInt8 → List UInt8)

/-- The hash trie is updated for one snapshot after the other. -/
def updates (hash : Option HashTree) (snapshots : List Snapshot) : Option HashTree :=
  snapshots.foldl (fun hash s => (updateHashTrie blake3 s.db s.trie hash).1) hash

variable {blake3}

theorem update_adds {s s' : Snapshot} {hash : Option HashTree} (h : s.Adds s')
    (hwf : ∀ u ∈ s.trie, u.WF ∧ u.Branching) (hwf' : ∀ u ∈ s'.trie, u.WF)
    (hmirrors : hash.map bare = rebuild blake3 s.db s.trie) :
    (updateHashTrie blake3 s'.db s'.trie hash).1.map bare = rebuild blake3 s'.db s'.trie := by
  refine updateHashTrie_bare (fun u hu => (hwf u hu).1) hwf' hmirrors h.cow ?_
  intro u hu u' hu'
  have hkeys := h.keys
  rw [show s.trie = some u from hu, show s'.trie = some u' from hu'] at hkeys
  exact Tree.noneGrown_of_keys (hwf u hu).1 (hwf' u' hu') (hwf u hu).2 hkeys

end Runs

end HashTree

namespace Tree

variable {blake3 : List UInt8 → List UInt8} {db : HashSource}

/-- A node below another key has another hash, all leaves below it are hashed with their keys. -/
theorem hashed_ne {t : Tree} {p q : Key} (hwf : t.WF) (hlen : ∀ s, (blake3 s).length = HASH_SIZE)
    (hpq : p.length ≠ q.length)
    (hfree : CollisionFree blake3 (strings blake3 db p t ++ strings blake3 db q t)) :
    hashed blake3 db p t ≠ hashed blake3 db q t := by
  induction t using Tree.induct generalizing p q with
  | leaf a k v =>
    intro heq
    have hlength := congrArg List.length heq
    simp only [hashed, List.length_append] at hlength
    omega
  | node a c arr ih =>
    intro heq
    obtain ⟨-, hne, -, -, hw⟩ := wf_node.mp hwf
    obtain ⟨x, arr', rfl⟩ := List.exists_cons_of_ne_nil hne
    rw [hashed, hashed, List.append_cancel_left_eq] at heq
    have hmap := hashes_eq hlen heq
    rw [List.map_cons, List.map_cons, List.cons.injEq] at hmap
    have hsub : ∀ p : Key,
        strings blake3 db (p ++ c) x.2 ⊆ strings blake3 db p (node a c (x :: arr')) :=
      fun p => strings_child blake3 db (by simp)
    have hfree' : CollisionFree blake3
        (strings blake3 db (p ++ c) x.2 ++ strings blake3 db (q ++ c) x.2) :=
      hfree.mono (List.append_subset.mpr
        ⟨List.Subset.trans (hsub p) (List.subset_append_left _ _),
          List.Subset.trans (hsub q) (List.subset_append_right _ _)⟩)
    refine ih x (by simp) (hw x (by simp)) (p := p ++ c) (q := q ++ c) ?_ hfree'
      (hfree' _ ?_ _ ?_ hmap.1)
    . simp only [List.length_append]
      omega
    . exact List.mem_append_left _ (hashed_mem_strings blake3 db _ _)
    . exact List.mem_append_right _ (hashed_mem_strings blake3 db _ _)

end Tree

namespace HashTree

section Shifted

variable {blake3 : List UInt8 → List UInt8} {db db' : HashSource} {a a' la : Addr} {w r lk : Key}
  {b : UInt8} {lv : Value} {arr arr' : List (Branch × Tree)} {hash : HashTree}

theorem commonLength_append (k k' : Key) : commonLength (k ++ k') k = k.length := by
  induction k with
  | nil => cases k' <;> rfl
  | cons b k ih => rw [List.cons_append, commonLength, if_pos rfl, ih, List.length_cons]

/--
Where the string of the root has grown over the end of the old root along a branch that was a leaf,
all leaves are hashed with the old string in front of their keys.
-/
theorem updateHashTrie_shifted (hwf : (Tree.node a w arr).WF)
    (hwf' : (Tree.node a' (w ++ b :: r) arr').WF) (hw : w ≠ [])
    (hleaf : (some b, Tree.leaf la lk lv) ∈ arr) (htxn : db'.txnId a' ≠ db.txnId a)
    (hmirrors : hash.bare = deepCopy blake3 db [] (.node a w arr))
    (hlen : ∀ s, (blake3 s).length = HASH_SIZE)
    (hfree : CollisionFree blake3 ((Tree.node a' (w ++ b :: r) arr').strings blake3 db' w ++
      (Tree.node a' (w ++ b :: r) arr').strings blake3 db' [])) :
    ∃ synced freed, updateHashTrie blake3 db' (some (.node a' (w ++ b :: r) arr')) (some hash) =
        (some synced, freed) ∧
      synced = deepCopy blake3 db' w (.node a' (w ++ b :: r) arr') ∧
      synced.page.hash ≠ (deepCopy blake3 db' [] (.node a' (w ++ b :: r) arr')).page.hash := by
  have hne : (deepCopy blake3 db' w (.node a' (w ++ b :: r) arr')).page.hash ≠
      (deepCopy blake3 db' [] (.node a' (w ++ b :: r) arr')).page.hash := by
    rw [Tree.hash_deepCopy, Tree.hash_deepCopy]
    intro heq
    refine Tree.hashed_ne hwf' hlen ?_ hfree (hfree _ ?_ _ ?_ heq)
    . simpa using hw
    . exact List.mem_append_left _ (Tree.hashed_mem_strings blake3 db' _ _)
    . exact List.mem_append_right _ (Tree.hashed_mem_strings blake3 db' _ _)
  cases hash with
  | leaf page k =>
    rw [deepCopy_node] at hmirrors
    cases hmirrors
  | node page hc hashArr =>
    rw [bare_node, deepCopy_node, createTrieHash, HashTree.node.injEq] at hmirrors
    obtain ⟨hpage, rfl, harr⟩ := hmirrors
    have hsame : page.txnId = db.txnId a := congrArg HashPage.txnId hpage
    -- the only branch of the hash node that is of use is the leaf
    obtain ⟨y, hfind⟩ : ∃ y, hashArr.find? (fun y => y.1 == some b) = some y := by
      rw [← Option.isSome_iff_exists, List.find?_isSome]
      have hset : Branches.isset (Branches.mapSnd bare hashArr) (some b) = true := by
        rw [harr, Branches.isset_mapSnd]
        exact (Branches.isset_iff arr (some b)).mpr ⟨_, hleaf⟩
      rw [Branches.isset_mapSnd, Branches.isset, List.any_eq_true] at hset
      exact hset
    obtain ⟨l, x, r', rfl, hy⟩ := mirrors_child harr hfind
    have hx : x = .leaf la lk lv :=
      Branches.eq_of_mem (Tree.wf_node.mp hwf).2.2.1 (by simp) hleaf
    rw [hx, deepCopy_leaf] at hy
    obtain ⟨b', y⟩ := y
    cases y with
    | node page' c' arr'' => rw [bare_node] at hy; cases hy
    | leaf page' k' =>
      have hheight : 0 < (Tree.node a' (hc ++ b :: r) arr').height := Nat.succ_pos _
      have hheight' : 0 < (HashTree.node page hc hashArr).height := Nat.succ_pos _
      obtain ⟨n, hn⟩ : ∃ n, (Tree.node a' (hc ++ b :: r) arr').height +
          (HashTree.node page hc hashArr).height = n + 2 :=
        ⟨(Tree.node a' (hc ++ b :: r) arr').height + (HashTree.node page hc hashArr).height - 2,
          by omega⟩
      have hdiff : ¬ db'.txnId a' = page.txnId := by rwa [hsame]
      have hnil : hc.length ≠ 0 := by simpa using hw
      have hsync : ∃ freed, syncNodes blake3 db' (n + 2) [] (.node a' (hc ++ b :: r) arr')
          (.node page hc hashArr) 0 0 =
            (deepCopy blake3 db' hc (.node a' (hc ++ b :: r) arr'), freed) := by
        simp only [syncNodes, syncDataTrie, replaceHash, Tree.addr, HashTree.page, hdiff, hnil,
          hfind, commonLength_append, List.drop_zero, List.drop_left, List.take_left,
          List.drop_length, Nat.zero_add, and_false, false_and, ↓reduceIte, List.nil_append]
        exact ⟨_, rfl⟩
      obtain ⟨freed, hsync⟩ := hsync
      refine ⟨_, freed, ?_, rfl, hne⟩
      rw [updateHashTrie, hn, hsync]

/-- The key `ac` is removed and `abd` is added. -/
theorem updateHashTrie_shifted_abd :
    let blake3 : List UInt8 → List UInt8 :=
      fun x => (x ++ List.replicate HASH_SIZE 0).take HASH_SIZE
    let db : HashSource := ⟨fun _ => 2, Value.bytes⟩
    let t : Tree := .node 32 [0x61, 0x62] [(none, .leaf 40 [] ⟨false, [1]⟩),
      (some 0x64, .leaf 48 [0x64] ⟨false, [3]⟩)]
    ∃ synced freed, updateHashTrie blake3 db (some t)
        (some (deepCopy blake3 ⟨fun _ => 1, Value.bytes⟩ [] abac)) = (some synced, freed) ∧
      synced = deepCopy blake3 db [0x61] t ∧
      synced.page.hash ≠ (deepCopy blake3 db [] t).page.hash := by
  intro blake3 db t
  refine updateHashTrie_shifted (w := [0x61]) (b := 0x62) (r := []) abac_wf.1 ?_ (by decide)
    List.mem_cons_self (by decide) (bare_deepCopy blake3 _ [] abac) ?_ ?_
  . simp [Branches.Sorted, Tree.Hangs, Tree.head, Tree.label, Tree.isLeaf, fitsPage_iff,
      LeafNode.sizeOf, LeafNode.HEADER_SIZE]
  . intro x
    simp [blake3]
  . unfold CollisionFree
    decide

end Shifted

end HashTree

namespace Tree

/-- What is found below the branches is found below one of them. -/
theorem exists_of_branchGet {arr : List (Branch × Tree)} {k : Key} {v : Value}
    (hh : ∀ x ∈ arr, Hangs x) (h : branchGet arr k = some v) :
    ∃ x, (k.head?, x) ∈ arr ∧ x.get k = some v := by
  induction arr with
  | nil => cases h
  | cons x arr ih =>
    rw [List.forall_mem_cons] at hh
    rw [branchGet_cons] at h
    cases hx : x.2.get k with
    | some v' =>
      rw [hx, Option.some_or, Option.some.injEq] at h
      have hhead : k.head? = x.1 := by
        by_contra hne
        rw [get_of_head_ne hh.1 hne] at hx
        cases hx
      refine ⟨x.2, ?_, h ▸ hx⟩
      rw [hhead]
      exact List.mem_cons_self
    | none =>
      rw [hx, Option.none_or] at h
      obtain ⟨y, hy, hget⟩ := ih hh.2 h
      exact ⟨y, List.mem_cons_of_mem _ hy, hget⟩

/-- In the same hash trie a key has the same hash. -/
theorem hash_eq_of_deepCopy {blake3 : List UInt8 → List UInt8} {db db' : HashSource} {t t' : Tree}
    {p k : Key} {v v' : Value} (hwf : t.WF) (hwf' : t'.WF)
    (heq : HashTree.deepCopy blake3 db p t = HashTree.deepCopy blake3 db' p t')
    (hget : t.get k = some v) (hget' : t'.get k = some v') :
    blake3 (p ++ k ++ db.content v) = blake3 (p ++ k ++ db'.content v') := by
  induction t using Tree.induct generalizing p k t' with
  | leaf a c w =>
    cases t' with
    | node a' c' arr' =>
      rw [HashTree.deepCopy_leaf, HashTree.deepCopy_node] at heq
      cases heq
    | leaf a' c' w' =>
      have hhash := congrArg (fun h => h.page.hash) heq
      simp only [HashTree.deepCopy_leaf, HashTree.createLeafHash, HashTree.page] at hhash
      rw [get_leaf] at hget hget'
      split at hget
      next hc =>
        split at hget'
        next hc' =>
          rw [Option.some.injEq] at hget hget'
          rw [hc, hget, hc', hget'] at hhash
          exact hhash
        next => cases hget'
      next => cases hget
  | node a c arr ih =>
    cases t' with
    | leaf a' c' w' =>
      rw [HashTree.deepCopy_leaf, HashTree.deepCopy_node] at heq
      cases heq
    | node a' c' arr' =>
      rw [HashTree.deepCopy_node, HashTree.deepCopy_node, HashTree.createTrieHash,
        HashTree.createTrieHash, HashTree.node.injEq] at heq
      obtain ⟨-, rfl, harr⟩ := heq
      obtain ⟨-, -, hsort, hh, hw⟩ := wf_node.mp hwf
      obtain ⟨-, -, hsort', hh', hw'⟩ := wf_node.mp hwf'
      obtain ⟨r, rfl⟩ : c <+: k := by
        by_contra hpre
        rw [get_of_no_label (t := .node a c arr) hpre] at hget
        cases hget
      rw [get_node_append] at hget hget'
      obtain ⟨x, hx, hgetx⟩ := exists_of_branchGet hh hget
      obtain ⟨y, hy, hgety⟩ := exists_of_branchGet hh' hget'
      have hsame : HashTree.deepCopy blake3 db (p ++ c) x =
          HashTree.deepCopy blake3 db' (p ++ c) y := by
        have hmem : (r.head?, HashTree.deepCopy blake3 db (p ++ c) x) ∈
            Branches.mapSnd (HashTree.deepCopy blake3 db' (p ++ c)) arr' := by
          rw [← harr]
          exact List.mem_map.mpr ⟨_, hx, rfl⟩
        exact Branches.eq_of_mem ((Branches.sorted_mapSnd _ arr').mpr hsort') hmem
          (List.mem_map.mpr ⟨_, hy, rfl⟩)
      have hbelow := ih (r.head?, x) hx (hw _ hx) (hw' _ hy) hsame hgetx hgety
      rw [← List.append_assoc]
      exact hbelow

end Tree

/-- The transactions of the pages of a database, with the bytes its values stand for. -/
def Heap.hashSource (h : Heap) (content : Value → List UInt8) : HashSource :=
  ⟨fun a => (h.page a).txnId, content⟩

namespace Merger

open Cursor HashTree

variable {blake3 : List UInt8 → List UInt8} {content : Value → List UInt8} {pol : MergePolicy}
  {h : Heap} {c : Cursor} {t : Tree} {pos : Option Key} {o : List Addr} {sa : Addr} {sk : Key}
  {v d : Value} {hash : HashTree}

end Merger
end Leaves
