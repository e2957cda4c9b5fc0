import Leaves.Lib.MergeWith
import Leaves.Merge.DeepCopy
import Leaves.Trie.Reduce

/-!
What a merge has to leave under each key, and what a change at one place of the trie contributes to
it: the keys of the source are below one node, the others do not change.
-/

namespace Leaves

open OrdMap (lookup merged)

namespace MergePolicy

/-- What becomes of a key of the source, `none` leaves the destination as it is. -/
def choose (pol : MergePolicy) (key : Key) (old : Option Value) (v : Value) : Option Value :=
  match old with
  | none => if pol.mayAddLeaf key v then some (pol.migrated v) else none
  | some d => if pol.mayOverwrite key d v then some (pol.migrated v) else none

variable {pol : MergePolicy} {key : Key}

theorem merged_add {v : Value} (h : pol.mayAddLeaf key v = true) :
    merged pol.choose key none (some v) = some (pol.migrated v) := by
  rw [OrdMap.merged_some, choose]
  simp [h]

theorem merged_old (d v : Value) :
    merged pol.choose key (some d) (some v) =
      some (if pol.mayOverwrite key d v then pol.migrated v else d) := by
  rw [OrdMap.merged_some, choose]
  split <;> rfl

theorem merged_isSome {old new : Option Value} {v : Value}
    (h : merged pol.choose key old new = some v) : old ≠ none ∨ new ≠ none := by
  cases new with
  | none =>
    rw [OrdMap.merged_none] at h
    rw [h]
    exact Or.inl (by simp)
  | some w => exact Or.inr (by simp)

end MergePolicy

namespace Merger

variable {pol : MergePolicy} {key : Key}

/-- Under every key below `key` is what the policy says. -/
def Merges (pol : MergePolicy) (key : Key) (u src u' : Tree) : Prop :=
  ∀ k, u'.get k = merged pol.choose (key ++ k) (u.get k) (src.get k)

/-- The same for the branches of nodes. -/
def MergesBranches (pol : MergePolicy) (key : Key) (arr sarr arr' : List (Branch × Tree)) : Prop :=
  ∀ k, Tree.branchGet arr' k =
    merged pol.choose (key ++ k) (Tree.branchGet arr k) (Tree.branchGet sarr k)

/--
A source that may be merged below `key`: it is complete, the policy adds all of it, and its values
and keys are not too big.
-/
structure Source (pol : MergePolicy) (key : Key) (src : Tree) : Prop where
  wf : src.WF
  complete : ∀ a ∈ src.addrs, a ≠ 0
  leaves : ∀ e ∈ src.entries, pol.mayAddLeaf (key ++ e.1) e.2 = true
  tries : ∀ s, pol.mayAddTrie s = true
  fits : pol.Fits src
  short : ∀ e ∈ src.entries, (key ++ e.1).length < 65536

namespace Source

variable {src : Tree}

theorem child {a : Addr} {c : Key} {arr : List (Branch × Tree)}
    (h : Source pol key (.node a c arr)) {x : Branch × Tree} (hx : x ∈ arr) :
    Source pol (key ++ c) x.2 := by
  have hmem : ∀ e ∈ x.2.entries, (c ++ e.1, e.2) ∈ (Tree.node a c arr).entries := by
    intro e he
    rw [Tree.entries_node, Tree.mem_behind]
    exact ⟨e.1, rfl, Tree.mem_branchEntries.mpr ⟨x, hx, he⟩⟩
  refine ⟨(Tree.wf_node.mp h.wf).2.2.2.2 x hx, ?_, ?_, h.tries, h.fits.child hx, ?_⟩
  . intro b hb
    refine h.complete b ?_
    rw [Tree.addrs_node]
    exact List.mem_cons_of_mem a (Tree.addrs_subset hx b hb)
  . intro e he
    rw [List.append_assoc]
    exact h.leaves _ (hmem e he)
  . intro e he
    rw [List.append_assoc]
    exact h.short _ (hmem e he)

theorem admits (h : Source pol key src) : ∀ e ∈ src.entries, pol.admits key src e = true := by
  intro e he
  rw [MergePolicy.admits, h.leaves e he, Bool.true_and, List.all_eq_true]
  exact fun s _ => h.tries _

theorem copied (h : Source pol key src) :
    pol.copied key src = src.entries.map fun e => (e.1, pol.migrated e.2) := by
  rw [MergePolicy.copied, List.filter_eq_self.mpr h.admits]

theorem copied_ne_nil (h : Source pol key src) : pol.copied key src ≠ [] := by
  rw [h.copied, ne_eq, List.map_eq_nil_iff]
  exact Tree.entries_ne_nil h.wf

/-- The key of the root of the source is short, like the keys below it. -/
theorem label_lt (h : Source pol key src) : (key ++ src.label).length < 65536 := by
  obtain ⟨e, he⟩ := List.exists_mem_of_ne_nil _ (Tree.entries_ne_nil h.wf)
  have hle := (Tree.prefix_of_mem_entries (v := e.2) he).length_le
  have hlt := h.short e he
  rw [List.length_append] at hlt ⊢
  omega

theorem mayAddLeaf (h : Source pol key src) {k : Key} {v : Value} (hk : src.get k = some v) :
    pol.mayAddLeaf (key ++ k) v = true :=
  h.leaves (k, v) (Tree.mem_of_get hk)

end Source

theorem copies_branchGet {a : Addr} {c : Key} {arr more copies : List (Branch × Tree)}
    {h h' : Heap} {l : List Addr} (hsrc : Source pol key (.node a c arr)) (hmore : more ⊆ arr)
    (hc : CopiesBranches pol (key ++ c) more h l h' copies) (k : Key) :
    Tree.branchGet copies k = (Tree.branchGet more k).map pol.migrated := by
  have hentries : Tree.branchEntries copies =
      (Tree.branchEntries more).map fun e => (e.1, pol.migrated e.2) := by
    rw [hc.entries, Tree.branchEntries, List.map_flatMap]
    exact List.flatMap_congr fun x hx => (hsrc.child (hmore hx)).copied
  rw [Tree.branchGet, hentries, OrdMap.lookup_mapValue]
  rfl

section Place

variable {q q' : Path} {w w' src : Tree}

/-- A change at the end of the way to the keys of the source. -/
theorem merges_plug (hwf : (q.plug w).WF) (hwf' : (q'.plug w').WF) (ht : q.Twin q')
    (hsrc : ∀ k v, src.get k = some v → ∃ r, k = q.str ++ r ∧ q.Leads r)
    (hw : ∀ r, q.Leads r →
      w'.get r = merged pol.choose (key ++ (q.str ++ r)) (w.get r) (src.get (q.str ++ r))) :
    Merges pol key (q.plug w) src (q'.plug w') := by
  have hwf2 : (q.plug w').WF := by
    rw [Path.wf_plug] at hwf' ⊢
    exact ⟨ht.wf.mp hwf'.1, (ht.fits w').mp hwf'.2.1, hwf'.2.2⟩
  intro k
  rw [ht.get_plug]
  by_cases hk : ∃ r, k = q.str ++ r ∧ q.Leads r
  . obtain ⟨r, rfl, hr⟩ := hk
    rw [Path.get_plug hwf2 hr, Path.get_plug hwf hr]
    exact hw r hr
  . have hnone : src.get k = none := by
      cases hget : src.get k with
      | none => rfl
      | some v => exact absurd (hsrc k v hget) hk
    rw [hnone, OrdMap.merged_none]
    exact Path.get_plug_other hwf hwf2 fun r hr hleads => hk ⟨r, hr, hleads⟩

/-- All keys that go on behind the string of a node come to the node. -/
theorem leads_node {a : Addr} {c : Key} {arr : List (Branch × Tree)} (h : q.Fits (.node a c arr))
    (k : Key) : q.Leads (c ++ k) := by
  cases q with
  | nil => trivial
  | cons s q => exact h.leads k (Or.inl (h.label_ne_nil rfl))

/-- The branches of a node are merged where all keys of the source come to. -/
theorem merges_plug_node {a : Addr} {c : Key} {arr arr' : List (Branch × Tree)}
    (hwf : (q.plug w).WF) (hwf' : (q'.plug (.node a c arr')).WF) (ht : q.Twin q')
    (hentries : w.entries = Tree.behind c (Tree.branchEntries arr))
    (hsrc : q.str ++ c <+: src.label)
    (harr : ∀ k, Tree.branchGet arr' k =
      merged pol.choose (key ++ (q.str ++ (c ++ k))) (Tree.branchGet arr k)
        (src.get (q.str ++ (c ++ k)))) :
    Merges pol key (q.plug w) src (q'.plug (.node a c arr')) := by
  have hprefix : ∀ k v, src.get k = some v → ∃ z, k = q.str ++ (c ++ z) := by
    intro k v hk
    obtain ⟨z, hz⟩ := hsrc.trans (Tree.prefix_of_mem_entries (Tree.mem_of_get hk))
    exact ⟨z, by rw [← hz, List.append_assoc]⟩
  have hfits : q.Fits (.node a c arr') := (ht.fits _).mp (Path.wf_plug.mp hwf').2.1
  refine merges_plug hwf hwf' ht ?_ ?_
  . intro k v hk
    obtain ⟨z, rfl⟩ := hprefix k v hk
    exact ⟨c ++ z, rfl, leads_node hfits z⟩
  . intro r _
    have hw : ∀ k, w.get k = (Tree.node a c arr).get k := by
      refine Tree.get_congr ?_
      rw [hentries, Tree.entries_node]
    by_cases hc : c <+: r
    . obtain ⟨k, rfl⟩ := hc
      rw [hw, Tree.get_node_append, Tree.get_node_append]
      exact harr k
    . have hnone : src.get (q.str ++ r) = none := by
        cases hget : src.get (q.str ++ r) with
        | none => rfl
        | some v =>
          obtain ⟨z, hz⟩ := hprefix _ v hget
          exact absurd ⟨z, (List.append_cancel_left hz).symm⟩ hc
      have hnode : ∀ arr, (Tree.node a c arr).get r = none := fun arr => Tree.get_of_no_label hc
      rw [hw, hnone, OrdMap.merged_none, hnode, hnode]

end Place

section Branches

variable {arr arr1 arr2 sarr more shared : List (Branch × Tree)}

/-- A source is merged in parts that have no branch in common. -/
theorem MergesBranches.trans (h1 : MergesBranches pol key arr more arr1)
    (h2 : MergesBranches pol key arr1 shared arr2)
    (hparts : ∀ k, Tree.branchGet sarr k = (Tree.branchGet more k).or (Tree.branchGet shared k))
    (hdisj : ∀ k, Tree.branchGet more k = none ∨ Tree.branchGet shared k = none) :
    MergesBranches pol key arr sarr arr2 := by
  intro k
  rw [h2 k, h1 k, hparts k]
  rcases hdisj k with hnone | hnone
  . rw [hnone, OrdMap.merged_none, Option.none_or]
  . rw [hnone, OrdMap.merged_none, Option.or_none]

theorem mergesBranches_nil (arr : List (Branch × Tree)) : MergesBranches pol key arr [] arr :=
  fun _ => rfl

/-- Merging below one branch. -/
theorem mergesBranches_one {l r : List (Branch × Tree)} {b : Branch} {x y x' : Tree}
    (hs : Branches.Sorted (l ++ (b, x) :: r)) (hl : ∀ z ∈ l, Tree.Hangs z)
    (hr : ∀ z ∈ r, Tree.Hangs z) (hx : Tree.Hangs (b, x)) (hx' : Tree.Hangs (b, x'))
    (hy : Tree.Hangs (b, y)) (h : Merges pol key x y x') :
    MergesBranches pol key (l ++ (b, x) :: r) [(b, y)] (l ++ (b, x') :: r) := by
  intro k
  have hone : Tree.branchGet [(b, y)] k = y.get k := by
    rw [Tree.branchGet_cons, Tree.branchGet_nil, Option.or_none]
  rw [hone]
  by_cases hk : k.head? = b
  . rw [Tree.branchGet_append_cons hs hl hr hk,
      Tree.branchGet_append_cons (Branches.sorted_replace hs) hl hr hk]
    exact h k
  . rw [Tree.branchGet_replace hx hx' hk, Tree.get_of_head_ne hy hk, OrdMap.merged_none]

end Branches

end Merger
end Leaves
