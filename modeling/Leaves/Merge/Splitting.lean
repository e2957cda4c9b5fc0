import Leaves.Merge.Divergence

/-!
The leaves of the destination a source comes to: the leaf of the same key is replaced where it is,
another leaf is cut behind the bytes that are equal.
-/

namespace Leaves
namespace Merger

open Cursor

section Opened

variable {h : Heap} {root : Addr} {p : Path} {arr : List (Branch × Tree)} {o o' : List Addr}

theorem Opened.perm (ho : Opened h root p arr o) (hp : o.Perm o') : Opened h root p arr o' :=
  ⟨ho.uses.perm ((hp.append_left _).append_left _), ho.path, ho.branches⟩

/-- Writing a page that is not part of the trie. -/
theorem Opened.setNode {a : Addr} (ho : Opened h root p [] (a :: o)) (node : Node) :
    Opened (h.setNode a node) root p [] (a :: o) := by
  obtain ⟨old, hst, hroot⟩ := ho.path
  refine ⟨Heap.setNode_uses ho.uses _ _, ⟨old, ?_, hroot⟩, by simp⟩
  refine hst.congr fun b hb => ?_
  have hnd := ho.uses.nodup
  rw [List.nodup_append] at hnd
  rw [Heap.rd_setNode, if_neg (hnd.2.2 b hb a (by simp))]

end Opened

section Leaf

variable {pol : MergePolicy} {merge : Merge} {h : Heap} {c : Cursor} {base : Path} {u src : Tree}
  {o : List Addr} {s : Stop} {q : Path} {f : Transition} {a : Addr} {k : Key} {v : Value}

theorem Found.leaf_leads (hf : Found pol h c base u src o s q) (htree : s.tree = .leaf a k v) :
    q.Leads k := by
  have hplug := hf.plug
  rw [htree] at hplug
  have hwf := hf.uwf
  rw [← hplug] at hwf
  exact (Path.wf_plug.mp hwf).2.1.leads_of_mem (v := v) (by simp)

theorem Found.leaf_value (hf : Found pol h c base u src o s q) (htree : s.tree = .leaf a k v) :
    u.get (q.str ++ k) = some v := by
  have hplug := hf.plug
  have hwf := hf.uwf
  rw [htree] at hplug
  rw [← hplug] at hwf ⊢
  rw [Path.get_plug hwf (hf.leaf_leads htree), Tree.get_leaf, if_pos rfl]

theorem Found.opened_leaf (hf : Found pol h c base u src o s q) (htree : s.tree = .leaf a k v) :
    Opened h c.root (q ++ base) [] (a :: o) := by
  have hplug := hf.ends.plug
  rw [htree, hf.path] at hplug
  rw [hf.root]
  exact Merger.opened_leaf hf.holds hplug

/-- The copy of a leaf with the part of its key behind `splitPos`, the leaf itself is freed. -/
theorem copyReducedLeaf_opened {root : Addr} {p : Path} (splitPos : Nat) (b : Branch)
    (ho : Opened h root p [] (a :: o)) (hwf : (Tree.leaf a k v).WF) :
    ∃ copy h', copyReducedLeaf h a ⟨k, v.big, v.bytes⟩ splitPos = .ok (copy, h') ∧
      Opened (h'.free a) root p [(b, .leaf copy (k.drop splitPos) v)] o ∧
      h.Spares (v.big = false) o (h'.free a) := by
  have hsize : fitsPage (LeafNode.sizeOf (k.length - splitPos) v.bytes.length) = true := by
    refine fitsPage_mono (Tree.wf_leaf.mp hwf).2 ?_
    rw [LeafNode.sizeOf, LeafNode.sizeOf]
    omega
  obtain ⟨copy, h1, halloc, ha, hrd⟩ := Heap.allocNode_allocates ho.uses hsize
    (.leaf ⟨k.drop splitPos, v.big, v.bytes⟩)
  have ho1 : Opened h1 root p [] (a :: copy :: o) := by
    have hadd := ho.adds ha.adds
    exact hadd.perm (List.Perm.swap _ _ _)
  have hsp1 : h.Spares (v.big = false) o h1 := ha.adds.spares fun b hb => by simp [hb]
  have hnew := List.nodup_cons.mp (List.nodup_append.mp ho1.uses.nodup).2.1
  have hna : ∀ b ∈ copy :: o, b ≠ a := by
    rintro b hb rfl
    exact hnew.1 hb
  have hst : ∀ h2 : Heap, h2.rd copy = h1.rd copy →
      Tree.Stored h2.rd (.leaf copy (k.drop splitPos) v) := by
    intro h2 heq
    rw [Tree.stored_leaf, heq]
    exact hrd
  refine ⟨copy, _,
    by simp only [copyReducedLeaf, LeafNode.vsize, halloc, bind, Except.bind]; rfl, ?_⟩
  split
  next hbig =>
    have ho2 := (ho1.setNode (.leaf ⟨k, false, v.bytes⟩)).free
    refine ⟨ho2.single (hst _ ?_), hsp1.trans ⟨?_, ?_, ?_⟩⟩
    . rw [Heap.rd, Heap.page_free, ← Heap.rd, Heap.rd_setNode, if_neg (hna copy (by simp))]
    . intro hclean
      rw [hclean] at hbig
      exact absurd hbig (by decide)
    . exact (Heap.setNode_owning h1 a _).trans (Heap.free_owning _ a)
    . intro b hb
      rw [Heap.page_free, Heap.page_setNode, if_neg (hna b (by simp [hb]))]
  next hbig =>
    refine ⟨ho1.free.single (hst _ rfl), hsp1.trans (ho1.uses.free_spares a o)⟩

/-- A leaf of another key, or a source with keys behind the key of the leaf. -/
theorem splitLeaf_merges (hf : Found pol h c base u src o s q) (htree : s.tree = .leaf a k v)
    (hmiss : src.isLeaf = true → s.suffix ≠ k)
    (hnone : k = [] → q ++ base = [] ∨ src.isLeaf = true)
    (hnode : f.node = a) (hpos : f.keypos = s.path.str.length) (hpre : f.prefixLen = s.prefixLen)
    (ih : ∀ a k sarr, src = .node a k sarr → ∀ x ∈ sarr, MergesAt pol merge x.2) :
    ∃ h' c' u', splitLeaf pol merge h c f (frames (q ++ base)) ⟨k, v.big, v.bytes⟩ src
        (u16 base.str.length) (base.str ++ src.label) = .ok (h', c') ∧
      Done pol h base u src o h' c' u' := by
  have hlabel : s.tree.label = k := by rw [htree]; rfl
  have hroom : ∀ copy, (src.isLeaf = true ∨ s.rest ≠ []) →
      s.Room (s.tree.label.take s.prefixLen)
        [((k.drop s.prefixLen).head?, .leaf copy (k.drop s.prefixLen) v)] s.rest.head? := by
    intro copy hcase
    rw [hlabel]
    refine Stop.room_leaf hf.ends hf.holds.wf copy htree ?_
    rcases hcase with hleaf | hrest
    . exact hmiss hleaf
    . intro hkey
      exact hrest (hf.ends.hit htree hkey).2
  have hcut : ∀ copy, s.Cut (s.tree.label.take s.prefixLen)
      [((k.drop s.prefixLen).head?, .leaf copy (k.drop s.prefixLen) v)] := by
    intro copy
    by_cases hkey : s.suffix = k
    . rw [hlabel]
      refine Stop.cut_leaf hf.ends hf.holds.wf copy htree hkey fun hnil => ?_
      rw [hf.path]
      refine (hnone hnil).resolve_right fun hleaf => ?_
      exact hmiss hleaf hkey
    . rw [hlabel]
      exact (Stop.room_leaf hf.ends hf.holds.wf copy htree hkey).cut
  have hplug := hf.ends.plug
  rw [htree, hf.path] at hplug
  have ho := hf.opened_leaf htree
  unfold splitLeaf
  rw [hpre, hnode]
  split
  next hzero =>
    have hst := (Path.stored_plug.mp (hplug ▸ hf.holds.stored)).2
    have ho1 : Opened h c.root (q ++ base)
        [((k.drop s.prefixLen).head?, .leaf a (k.drop s.prefixLen) v)] o := by
      rw [hzero, List.drop_zero]
      exact ho.single hst
    have hres := resolveDivergence_merges (f := f) hf ho1 (.refl h o) (hcut a)
      (hroom a) hpos hpre ih
    rw [hzero, List.drop_zero] at hres
    exact hres
  next hzero =>
    obtain ⟨copy, h1, hcopy, ho1, hsp⟩ := copyReducedLeaf_opened s.prefixLen
      (k.drop s.prefixLen).head? ho (Path.wf_plug.mp (hplug ▸ hf.holds.wf)).2.2
    have hclean : Clean pol base.str u src → v.big = false :=
      fun hc => (hc _ v (hf.leaf_value htree)).1
    have hres := resolveDivergence_merges (f := f) hf ho1
      (hsp.mono hclean fun b hb => hb) (hcut copy) (hroom copy) hpos hpre ih
    simp only [hcopy, bind, Except.bind]
    exact hres

end Leaf

section Overwrite

variable {pol : MergePolicy} {h : Heap} {c : Cursor} {base : Path} {u : Tree} {o : List Addr}
  {s : Stop} {q : Path} {a sa : Addr} {k sk : Key} {v d : Value}

/-- The link of the node at the end of the path is written in place. -/
theorem writeOffset_stored {p : Path} {old : Addr} {l : List Addr} (leaf : Addr)
    (hu : h.Uses (p.addrs ++ l)) (hst : p.Stored h.rd old) (hroot : c.root = p.top old) :
    ∃ h' c', writeOffset h c (frames p) leaf = (h', c') ∧ h'.Uses (p.addrs ++ l) ∧
      p.Stored h'.rd leaf ∧ c'.root = p.top leaf ∧ c'.stack = c.stack ∧
      c'.currentKey = c.currentKey ∧ c'.branchKey = c.branchKey ∧ h.Owning h' ∧
      (∀ b ∈ l, h'.page b = h.page b) ∧ ∀ b, (h'.page b).txnId = (h.page b).txnId := by
  cases p with
  | nil =>
    exact ⟨h, _, rfl, hu, trivial, rfl, rfl, rfl, rfl, .refl h, fun _ _ => rfl, fun _ => rfl⟩
  | cons s p =>
    obtain ⟨h1, h2, h3⟩ := setLink_path (a := leaf) hu hst
    have hnd := hu.nodup
    rw [Path.addrs_cons, List.cons_append, List.cons_append, List.nodup_cons] at hnd
    refine ⟨_, c, rfl, h2, h1, hroot, rfl, rfl, rfl, Heap.setLink_owning _ _ _ _, fun b hb => ?_,
      Heap.txnId_setLink _ _ _ _⟩
    refine h3 b ?_
    rintro rfl
    exact hnd.1 (List.mem_append_right _ hb)

/-- The leaf of the key gets the value of the source if the policy says so. -/
theorem overwrite_merges (merge : Merge) {f : Transition} (srcKeypos : Nat) {key : Key}
    (hf : Found pol h c base u (.leaf sa sk v) o s q) (htree : s.tree = .leaf a k d)
    (hkey : s.suffix = k) (hcmp : f.cmp = 0) (hnode : f.node = a) (hfull : key = base.str ++ sk) :
    ∃ h' c' u', mergeLeafNode pol merge h c f (frames (q ++ base)) ⟨k, d.big, d.bytes⟩
        (.leaf sa sk v) srcKeypos key = .ok (h', c') ∧
      Done pol h base u (.leaf sa sk v) o h' c' u' ∧ (q ++ base ≠ [] → c'.root = c.root) ∧
      ∀ b ∈ Path.addrs (q ++ base), (h'.page b).txnId = (h.page b).txnId := by
  have hsk : sk = q.str ++ k := hkey ▸ hf.label
  have hu := hf.leaf_value htree
  have hleads := hf.leaf_leads htree
  subst hfull
  simp only [mergeLeafNode, hcmp, ↓reduceIte]
  split
  next hmay =>
    have hplug := hf.plug
    rw [htree] at hplug
    obtain ⟨hwfq, hfitsq, hlwf⟩ := Path.wf_plug.mp (hplug ▸ hf.uwf)
    have ho := hf.opened_leaf htree
    obtain ⟨leaf, h1, hfill, ha, hst, hwf⟩ := fillLeaf_allocates k ho.uses hf.source.fits
      (Tree.wf_leaf.mp hlwf).1
    have ho1 : Opened h1 c.root (q ++ base) [] (a :: leaf :: o) := by
      have hadd := ho.adds ha.adds
      exact hadd.perm (List.Perm.swap _ _ _)
    obtain ⟨old, hpst, hroot⟩ := ho1.path
    have hu1 := ho1.uses
    rw [Tree.branchAddrs_nil, List.nil_append] at hu1
    obtain ⟨h2, c2, hwrite, hu2, hst2, hroot2, hstack, hcur, hknown, howning, hpage, htxn⟩ :=
      writeOffset_stored leaf hu1 hpst hroot
    have hsame : q ++ base ≠ [] → c2.root = c.root := by
      intro hne
      rw [hroot2, hroot]
      cases hp : q ++ base with
      | nil => exact absurd hp hne
      | cons s p => rfl
    let y := Tree.leaf leaf k (pol.migrated v)
    have hu3 : (h2.free a).Uses (Path.addrs (q ++ base) ++ (y.addrs ++ o)) := by
      refine Heap.free_uses (hu2.perm (List.perm_iff_count.mpr fun x => ?_))
      simp only [y, Tree.addrs_leaf, List.count_append, List.count_cons, List.count_nil]
      omega
    have hst3 : Tree.Stored (h2.free a).rd y := by
      refine hst.congr fun b hb => ?_
      rw [Tree.addrs_leaf, List.mem_singleton] at hb
      rw [Heap.rd, Heap.page_free, hpage b (by simp [hb])]
      rfl
    have hwf' : ((q ++ base).plug y).WF := by
      have hpath := hf.pathWf
      rw [hf.path] at hpath
      refine Path.wf_plug.mpr ⟨hpath, ?_, hwf⟩
      have hfits := (Path.wf_plug.mp (hf.ends.plug ▸ hf.holds.wf)).2.1
      rw [htree, hf.path] at hfits
      exact hfits.congr rfl fun _ => rfl
    have hholds := Heap.Holds.of_plug (p := q ++ base) (u := y) hu3 hst2 hst3 hwf'
    have htxn' : ∀ b ∈ Path.addrs (q ++ base), ((h2.free a).page b).txnId = (h.page b).txnId := by
      intro b hb
      rw [Heap.page_free, htxn b, ha.adds.page b (List.mem_append_left _ hb)]
    refine ⟨h2.free a, c2, q.plug y, ?_, ⟨?_, ?_, ?_, ?_, ?_, ?_, ?_⟩, hsame, htxn'⟩
    . simp only [hfill, hwrite, hnode, bind, Except.bind]
    . rw [← Path.plug_append]
      exact hholds
    . rw [← hplug]
      refine merges_plug (hplug ▸ hf.uwf) ?_ (.refl q) ?_ ?_
      . rw [Path.plug_append] at hwf'
        exact (Path.wf_plug.mp hwf').2.2
      . intro k' v' hk'
        rw [Tree.get_leaf] at hk'
        split at hk'
        next heq => exact ⟨k, by rw [← heq, hsk], hleads⟩
        next => simp at hk'
      . intro r _
        rw [Tree.get_leaf, Tree.get_leaf, Tree.get_leaf, hsk]
        by_cases hr : k = r
        . subst hr
          rw [if_pos rfl, if_pos rfl, if_pos rfl, MergePolicy.merged_old, ← hsk, if_pos hmay]
        . rw [if_neg hr, if_neg hr, if_neg, OrdMap.merged_none]
          exact fun heq => hr (List.append_cancel_left heq)
    . rw [hroot2, ← Path.plug_append, Path.addr_plug]
      rfl
    . obtain ⟨fs, hfs⟩ := hf.along.stack
      exact Along.tail (Along.drop
        ⟨⟨fs, hstack.trans hfs⟩, hcur.symm ▸ hf.along.currentKey, hknown.symm ▸ hf.along.known⟩)
    . intro hclean
      have hno := (hclean _ d hu).2 v (by rw [Tree.get_leaf, if_pos hsk])
      rw [← hsk, hmay] at hno
      exact absurd hno (by decide)
    . exact ha.owning.trans (howning.trans (Heap.free_owning _ a))
    . intro b hb
      rw [Heap.page_free, hpage b (by simp [hb])]
      exact ha.adds.page b (by simp [hb])
  next hmay =>
    refine ⟨h, c, u, rfl, ⟨hf.holds, ?_, hf.root, hf.along.drop.tail, .refl h o⟩, fun _ => rfl,
      fun _ _ => rfl⟩
    intro k'
    rw [Tree.get_leaf]
    split
    next heq =>
      rw [← heq, hsk, hu, MergePolicy.merged_old, ← hsk, if_neg hmay]
    next => rw [OrdMap.merged_none]

end Overwrite

end Merger
end Leaves
