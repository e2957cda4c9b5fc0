import Leaves.Merge.Merger
import Leaves.Merge.Pages
import Leaves.Trie.Lookup

/-!
Copying a subtree of the source: the copy has the entries the policy lets through. A node of the
source that loses all its entries has no copy.
-/

namespace Leaves

namespace Tree

/-- The strings of the trie nodes on the way to a key. -/
def visits : Tree → Key → List Key
  | .leaf _ _ _, _ => []
  | .node _ c arr, k => c :: (go arr (k.drop c.length)).map (c ++ ·)
where
  go : List (Branch × Tree) → Key → List Key
    | [], _ => []
    | (b, t) :: arr, k => if b = k.head? then t.visits k else go arr k

theorem visits_go_of_mem {arr : List (Branch × Tree)} (hs : Branches.Sorted arr)
    {x : Branch × Tree} (hx : x ∈ arr) {k : Key} (hk : k.head? = x.1) :
    visits.go arr k = x.2.visits k := by
  induction arr with
  | nil => simp at hx
  | cons y arr ih =>
    obtain ⟨b, t⟩ := y
    rw [visits.go]
    rcases List.mem_cons.mp hx with rfl | hx
    . rw [if_pos hk.symm]
    . have hlt := (List.pairwise_cons.mp hs).1 x hx
      rw [if_neg, ih hs.of_cons hx]
      rintro rfl
      rw [hk] at hlt
      exact absurd hlt (lt_irrefl _)

end Tree

namespace MergePolicy

variable (pol : MergePolicy) (key : Key)

/-- The policy lets an entry below `t` through, where `t` hangs below `key`. -/
def admits (t : Tree) (e : Key × Value) : Bool :=
  pol.mayAddLeaf (key ++ e.1) e.2 && (t.visits e.1).all fun s => pol.mayAddTrie (key ++ s)

/-- The entries of a copy. -/
def copied (t : Tree) : List (Key × Value) :=
  (t.entries.filter (pol.admits key t)).map fun e => (e.1, pol.migrated e.2)

/-- The values of the source fit into a leaf, whatever is left of their keys. -/
def Fits (t : Tree) : Prop :=
  ∀ e ∈ t.entries, fitsPage (LeafNode.sizeOf 255 (pol.migrated e.2).bytes.length) = true

variable {pol key}

theorem copied_leaf (a : Addr) (k : Key) (v : Value) :
    pol.copied key (.leaf a k v) =
      if pol.mayAddLeaf (key ++ k) v = true then [(k, pol.migrated v)] else [] := by
  rw [copied, Tree.entries_leaf, List.filter_cons, List.filter_nil]
  simp only [admits, Tree.visits, List.all_nil, Bool.and_true]
  split <;> rfl

theorem copied_node {a : Addr} {c : Key} {arr : List (Branch × Tree)}
    (hs : Branches.Sorted arr) (hh : ∀ x ∈ arr, Tree.Hangs x) :
    pol.copied key (.node a c arr) =
      if pol.mayAddTrie (key ++ c) = true then
        Tree.behind c (arr.flatMap fun x => pol.copied (key ++ c) x.2)
      else [] := by
  have hadmits : ∀ x ∈ arr, ∀ e ∈ x.2.entries,
      pol.admits key (.node a c arr) (c ++ e.1, e.2) =
        (pol.mayAddTrie (key ++ c) && pol.admits (key ++ c) x.2 e) := by
    intro x hx e he
    have hk : e.1.head? = x.1 := by
      by_contra hne
      have hnone := Tree.get_of_head_ne (hh x hx) hne
      rw [Tree.get, OrdMap.lookup_eq_none_iff] at hnone
      exact hnone e he rfl
    rw [admits, admits, Tree.visits]
    simp only [List.drop_left, Tree.visits_go_of_mem hs hx hk, List.all_cons, List.all_map,
      Function.comp_def, List.append_assoc]
    exact Bool.and_left_comm _ _ _
  rw [copied, Tree.entries_node, Tree.behind, List.filter_map, List.map_map, Tree.branchEntries,
    List.filter_flatMap, List.map_flatMap]
  split
  next htrie =>
    rw [Tree.behind, List.map_flatMap]
    refine List.flatMap_congr fun x hx => ?_
    rw [copied, List.map_map]
    have hfilter : x.2.entries.filter (pol.admits key (.node a c arr) ∘ fun e => (c ++ e.1, e.2)) =
        x.2.entries.filter (pol.admits (key ++ c) x.2) := by
      refine List.filter_congr fun e he => ?_
      rw [Function.comp, hadmits x hx e he, htrie, Bool.true_and]
    rw [hfilter]
    rfl
  next htrie =>
    rw [List.flatMap_eq_nil_iff]
    intro x hx
    rw [List.map_eq_nil_iff, List.filter_eq_nil_iff]
    intro e he
    rw [Function.comp, hadmits x hx e he]
    simp [htrie]

theorem Fits.child {a : Addr} {c : Key} {arr : List (Branch × Tree)}
    (h : pol.Fits (.node a c arr)) {x : Branch × Tree} (hx : x ∈ arr) : pol.Fits x.2 := by
  intro e he
  refine h (c ++ e.1, e.2) ?_
  rw [Tree.entries_node, Tree.mem_behind]
  exact ⟨e.1, rfl, Tree.mem_branchEntries.mpr ⟨x, hx, he⟩⟩

end MergePolicy

theorem TrieNode.sizeMax_le {prefixLen branches : Nat} (hlen : prefixLen ≤ 255)
    (hcount : branches ≤ 257) : sizeMax prefixLen branches ≤ 2359 := by
  have h1 := padding_le prefixLen hlen
  have h2 := align_le (padding (HEADER_SIZE + prefixLen) 4 + 4 * min branches 8 + 8 * branches)
  rw [sizeMax]
  omega

namespace Merger

/-- What copying the subtree `t` of the source does, the pages `l` are used by others. -/
structure Copies (pol : MergePolicy) (key : Key) (t : Tree) (h : Heap) (l : List Addr) (h' : Heap)
    (copy : Trie) : Prop where
  adds : h.Adds l copy.addrs h'
  stored : ∀ t' ∈ copy, Tree.Stored h'.rd t'
  wf : ∀ t' ∈ copy, t'.WF
  label : ∀ t' ∈ copy, t'.label = t.label ∧ t'.isLeaf = t.isLeaf
  entries : copy.entries = pol.copied key t

/-- What copying the branches `arr` of a node of the source does. -/
structure CopiesBranches (pol : MergePolicy) (key : Key) (arr : List (Branch × Tree)) (h : Heap)
    (l : List Addr) (h' : Heap) (copies : List (Branch × Tree)) : Prop where
  adds : h.Adds l (Tree.branchAddrs copies) h'
  stored : ∀ x ∈ copies, Tree.Stored h'.rd x.2
  wf : ∀ x ∈ copies, x.2.WF
  hangs : ∀ x ∈ copies, Tree.Hangs x
  names : (copies.map (·.1)).Sublist (arr.map (·.1))
  entries : Tree.branchEntries copies = arr.flatMap fun x => pol.copied key x.2

theorem CopiesBranches.sorted {pol : MergePolicy} {key : Key} {arr copies : List (Branch × Tree)}
    {h h' : Heap} {l : List Addr} (hc : CopiesBranches pol key arr h l h' copies)
    (hs : Branches.Sorted arr) : Branches.Sorted copies := by
  have hmap : (arr.map (·.1)).Pairwise (fun b b' => b.toInt < b'.toInt) := List.pairwise_map.mpr hs
  have hcopies : (copies.map (·.1)).Pairwise (fun b b' => b.toInt < b'.toInt) :=
    hmap.sublist hc.names
  rw [List.pairwise_map] at hcopies
  exact hcopies

section Copy

variable {pol : MergePolicy} {key : Key} {h : Heap} {l : List Addr}

theorem copy_leaf {a : Addr} {k : Key} {v : Value} (hu : h.Uses l) (hwf : (Tree.leaf a k v).WF)
    (hne : a ≠ 0) (hfits : pol.Fits (.leaf a k v)) :
    ∃ copy h', selectiveDeepCopySubtree pol (.leaf a k v) h key = .ok (copy.map Tree.addr, h') ∧
      Copies pol key (.leaf a k v) h l h' copy := by
  have hlen := (Tree.wf_leaf.mp hwf).1
  rw [selectiveDeepCopySubtree]
  by_cases hadd : pol.mayAddLeaf (key ++ k) v = true
  . have hsize : fitsPage (LeafNode.sizeOf k.length (pol.migrated v).bytes.length) = true := by
      have hbig : fitsPage (LeafNode.sizeOf 255 (pol.migrated v).bytes.length) = true :=
        hfits (k, v) (by simp)
      refine fitsPage_mono hbig ?_
      rw [LeafNode.sizeOf, LeafNode.sizeOf]
      omega
    obtain ⟨leaf, h', heq, ha, hrd⟩ := Heap.allocNode_allocates hu hsize
      (.leaf ⟨k, (pol.migrated v).big, (pol.migrated v).bytes⟩)
    refine ⟨some (.leaf leaf k (pol.migrated v)), h', ?_, ⟨ha.adds, ?_, ?_, ?_, ?_⟩⟩
    . rw [if_pos ⟨hne, hadd⟩]
      simp only [fillLeaf, Cursor.fillLeaf, heq, bind, Except.bind]
      rfl
    . rintro t' ⟨rfl⟩
      exact Tree.stored_leaf.mpr hrd
    . rintro t' ⟨rfl⟩
      exact Tree.wf_leaf.mpr ⟨hlen, hsize⟩
    . rintro t' ⟨rfl⟩
      exact ⟨rfl, rfl⟩
    . rw [MergePolicy.copied_leaf, if_pos hadd]
      rfl
  . refine ⟨none, h, ?_, ⟨.refl hu, by simp, by simp, by simp, ?_⟩⟩
    . rw [if_neg fun hand => hadd hand.2]
      rfl
    . rw [MergePolicy.copied_leaf, if_neg hadd]
      rfl

/-- The copies of the branches, each child as `ih` says. -/
theorem copyBranches_copies (pol : MergePolicy) (key : Key) (arr : List (Branch × Tree))
    (hu : h.Uses l) (hh : ∀ x ∈ arr, Tree.Hangs x)
    (ih : ∀ x ∈ arr, ∀ (h : Heap) (l : List Addr), h.Uses l → ∃ copy h',
      selectiveDeepCopySubtree pol x.2 h key = .ok (copy.map Tree.addr, h') ∧
        Copies pol key x.2 h l h' copy) :
    ∃ copies h', copyBranches pol h key arr = .ok (Branches.mapSnd Tree.addr copies, h') ∧
      CopiesBranches pol key arr h l h' copies := by
  induction arr generalizing h l with
  | nil =>
    exact ⟨[], h, rfl, .refl hu, by simp, by simp, by simp, List.Sublist.refl _, rfl⟩
  | cons x arr iharr =>
    rw [List.forall_mem_cons] at hh ih
    obtain ⟨copy, h1, heq1, hc1⟩ := ih.1 h l hu
    obtain ⟨copies, h2, heq2, hc2⟩ := iharr hc1.adds.uses hh.2 ih.2
    obtain ⟨b, t⟩ := x
    rw [copyBranches] at heq2 ⊢
    rw [selectiveDeepCopySubtree.go]
    simp only [heq1, heq2, bind, Except.bind]
    cases copy with
    | none =>
      refine ⟨copies, h2, rfl, ?_, hc2.stored, hc2.wf, hc2.hangs, hc2.names.cons _, ?_⟩
      . have := hc1.adds.trans hc2.adds
        rwa [Trie.addrs, List.append_nil] at this
      . have hnil := hc1.entries
        rw [Trie.entries] at hnil
        rw [hc2.entries, List.flatMap_cons, ← hnil, List.nil_append]
    | some t' =>
      have hst := hc1.stored t' rfl
      have hlabel := hc1.label t' rfl
      refine ⟨(b, t') :: copies, h2, rfl, ?_, ?_, ?_, ?_, hc2.names.cons_cons _, ?_⟩
      . rw [Tree.branchAddrs_cons]
        exact (hc1.adds.trans hc2.adds).perm List.perm_append_comm
      . rw [List.forall_mem_cons]
        refine ⟨hc2.adds.stored hst fun a ha => List.mem_append_left _ ha, hc2.stored⟩
      . rw [List.forall_mem_cons]
        exact ⟨hc1.wf t' rfl, hc2.wf⟩
      . rw [List.forall_mem_cons]
        refine ⟨⟨?_, ?_⟩, hc2.hangs⟩
        . rw [Tree.head, hlabel.1]
          exact hh.1.1
        . intro hnone
          rw [hlabel.2]
          exact hh.1.2 hnone
      . rw [Tree.branchEntries_cons, hc2.entries, List.flatMap_cons, ← hc1.entries]
        rfl

/-- A copy has the entries the policy lets through. -/
theorem copy_copies {t : Tree} (hu : h.Uses l) (hwf : t.WF) (hne : ∀ a ∈ t.addrs, a ≠ 0)
    (hfits : pol.Fits t) :
    ∃ copy h', selectiveDeepCopySubtree pol t h key = .ok (copy.map Tree.addr, h') ∧
      Copies pol key t h l h' copy := by
  induction t using Tree.induct generalizing key h l with
  | leaf a k v => exact copy_leaf hu hwf (hne a (by simp)) hfits
  | node a c arr ih =>
    obtain ⟨hlen, -, hs, hh, hw⟩ := Tree.wf_node.mp hwf
    have ha : a ≠ 0 := hne a (by simp)
    rw [selectiveDeepCopySubtree]
    by_cases htrie : pol.mayAddTrie (key ++ c) = true
    . rw [if_pos ⟨ha, htrie⟩]
      have hchild : ∀ x ∈ arr, ∀ b ∈ x.2.addrs, b ≠ 0 := by
        intro x hx b hb
        refine hne b ?_
        rw [Tree.addrs_node]
        exact List.mem_cons_of_mem a (Tree.addrs_subset hx b hb)
      obtain ⟨copies, h1, heq1, hc⟩ := copyBranches_copies pol (key ++ c) arr hu hh
        fun x hx h l hu => ih x hx hu (hw x hx) (hchild x hx) (hfits.child hx)
      rw [copyBranches] at heq1
      simp only [heq1, bind, Except.bind]
      have hentries : pol.copied key (.node a c arr) = _ := MergePolicy.copied_node hs hh
      rw [if_pos htrie, ← hc.entries] at hentries
      cases copies with
      | nil =>
        refine ⟨none, h1, rfl, hc.adds, by simp, by simp, by simp, ?_⟩
        rw [hentries]
        rfl
      | cons x copies =>
        have hsort := hc.sorted hs
        have hcount := Branches.length_le hsort
        obtain ⟨trie, h2, heq2, halloc, hrd⟩ := Heap.allocNode_allocates hc.adds.uses
          (n := TrieNode.sizeMax c.length (Branches.mapSnd Tree.addr (x :: copies)).length)
          (fitsPage_iff.mpr ((TrieNode.sizeMax_le hlen
            (by rw [Branches.length_mapSnd]; exact hcount)).trans (by decide)))
          (.trie ⟨c, Branches.mapSnd Tree.addr (x :: copies)⟩)
        rw [if_neg (by simp)]
        simp only [heq2]
        refine ⟨some (.node trie c (x :: copies)), h2, rfl, ?_, ?_, ?_, ?_, ?_⟩
        . have := hc.adds.trans halloc.adds
          rwa [List.singleton_append, ← Tree.addrs_node trie c] at this
        . rintro t' ⟨rfl⟩
          refine Tree.stored_node.mpr ⟨hrd, fun y hy => ?_⟩
          exact halloc.adds.stored (hc.stored y hy) fun b hb =>
            List.mem_append_left _ (Tree.addrs_subset hy b hb)
        . rintro t' ⟨rfl⟩
          exact Tree.wf_node.mpr ⟨hlen, by simp, hsort, hc.hangs, hc.wf⟩
        . rintro t' ⟨rfl⟩
          exact ⟨rfl, rfl⟩
        . rw [hentries]
          exact Tree.entries_node trie c _
    . refine ⟨none, h, ?_, .refl hu, by simp, by simp, by simp, ?_⟩
      . rw [if_neg fun hand => htrie hand.2]
        rfl
      . rw [MergePolicy.copied_node hs hh, if_neg htrie]
        rfl

end Copy

end Merger
end Leaves
