import Leaves.Db.Lemmas.Interrupted
import Leaves.Merge.Exec

/-!
Two things a merge does to pages it should leave alone. A value is overwritten by a link that is
written in place, and where the policy refuses the source after a node has been cut, the freed page
of the node is still part of the trie.
-/

namespace Leaves

/-- A page that has been freed is not in use. -/
theorem Heap.avail_free (h : Heap) (a : Addr) : (h.free a).Avail a := by
  refine Or.inl ⟨(h.page a).slotId, ⟨a, h.txnId⟩, ?_, rfl⟩
  simp [Heap.free, MemManager.free]

namespace Merger

open Cursor

variable {pol : MergePolicy} {h : Heap} {c : Cursor} {t src : Tree} {pos : Option Key}
  {o : List Addr}

section Overwrite

variable {sa : Addr} {sk : Key} {v d : Value}

/-- A value is overwritten: the root of the trie stays where it is, and its page as old as it is. -/
theorem exec_leaf (hs : h.Holds t o) (hshort : ShortTree t) (hc : c.Stands (some t) pos)
    (hsrc : Source pol [] (.leaf sa sk v)) (hok : c.FindOk sk) (hnode : t.isLeaf = false)
    (hget : t.get sk = some d) (hmay : pol.mayOverwrite sk d v = true) :
    ∃ h' c' t', exec pol h c (some (.leaf sa sk v)) = .ok (h', c') ∧ h'.Holds t' o ∧
      t'.addr = t.addr ∧ c'.root = t.addr ∧
      (∀ k, t'.get k = if k = sk then some (pol.migrated v) else t.get k) ∧
      (h'.page t.addr).txnId = (h.page t.addr).txnId := by
  obtain ⟨c1, q, hfind, hne, hf⟩ := exec_found hs hshort hc hsrc hok
  obtain ⟨n, hn, heq⟩ := exec_eq pol hfind hne
  generalize t.search [] (Tree.leaf sa sk v).label = s at hf
  have hlookup : OrdMap.lookup t.entries ([] ++ sk) = some d := hget
  obtain ⟨a, v', htree, -, hcmp, hval⟩ :=
    (hf.ends.hit_or_miss hs.wf).resolve_right fun hmiss => by
      have hnone : OrdMap.lookup t.entries ([] ++ sk) = none := hmiss.2
      rw [hlookup] at hnone
      cases hnone
  have hv' : v' = d := by
    have hsome : OrdMap.lookup t.entries ([] ++ sk) = some v' := hval
    rw [hlookup] at hsome
    exact (Option.some.inj hsome).symm
  subst hv'
  obtain ⟨idx, hfound⟩ := mergeFound_leaf pol (mergeNode pol n) hf htree
    (by simp [Tree.isLeaf]) (u16 (Path.str []).length) (Path.str [] ++ sk)
  obtain ⟨h', c', t', hmerge, hdone, hsame, htxn⟩ := overwrite_merges (mergeNode pol n)
    (f := ⟨a, s.prefixLen, s.path.str.length, s.cmp, idx⟩) (u16 (Path.str []).length) hf htree rfl
    hcmp rfl rfl
  have hplug := hf.plug
  rw [htree] at hplug
  have hq : q ++ [] ≠ [] := by
    rintro hnil
    rw [List.append_nil] at hnil
    rw [hnil, Path.plug_nil] at hplug
    rw [← hplug] at hnode
    exact absurd hnode (by simp [Tree.isLeaf])
  have hroot : c'.root = t.addr := (hsame hq).trans hf.root
  have htop : t.addr ∈ Path.addrs (q ++ []) := by
    rw [List.append_nil] at hq ⊢
    obtain ⟨st, q', rfl⟩ := List.exists_cons_of_ne_nil hq
    rw [← hplug, Path.addr_plug]
    exact Path.top_mem_addrs st q' _
  refine ⟨h', c', t', heq.trans (hfound.trans hmerge), hdone.holds, hdone.root.symm.trans hroot,
    hroot, fun k => ?_, htxn _ htop⟩
  have hk := hdone.merges k
  rw [Path.str_nil, List.nil_append, Tree.get_leaf] at hk
  rw [hk]
  by_cases heqk : sk = k
  . subst heqk
    rw [if_pos rfl, if_pos rfl, hget, MergePolicy.merged_old, if_pos hmay]
  . rw [if_neg heqk, if_neg (Ne.symm heqk), OrdMap.merged_none]

end Overwrite

section Refused

/-- Nothing of a refused source is copied. -/
theorem copy_refused {u : Tree} {key : Key} (hwf : u.WF) (hrefused : pol.copied key u = []) :
    selectiveDeepCopySubtree pol u h key = .ok (none, h) := by
  induction u using Tree.induct generalizing key with
  | leaf a k v =>
    rw [MergePolicy.copied_leaf] at hrefused
    rw [selectiveDeepCopySubtree, if_neg]
    rintro ⟨-, hmay⟩
    rw [if_pos hmay] at hrefused
    exact absurd hrefused (by simp)
  | node a k arr ih =>
    obtain ⟨-, -, hsort, hh, hw⟩ := Tree.wf_node.mp hwf
    rw [MergePolicy.copied_node hsort hh] at hrefused
    rw [selectiveDeepCopySubtree]
    split
    next hmay =>
      rw [if_pos hmay.2, Tree.behind, List.map_eq_nil_iff, List.flatMap_eq_nil_iff] at hrefused
      have hgo : ∀ more, more ⊆ arr →
          selectiveDeepCopySubtree.go pol more h (key ++ k) = .ok ([], h) := by
        intro more hsub
        induction more with
        | nil => rfl
        | cons x more ihm =>
          have hx : x ∈ arr := hsub List.mem_cons_self
          rw [selectiveDeepCopySubtree.go, ih x hx (hw x hx) (hrefused x hx)]
          simp only [bind, Except.bind, ihm fun y hy => hsub (List.mem_cons_of_mem x hy)]
          rfl
      simp only [hgo arr fun x hx => hx, bind, Except.bind, ↓reduceIte]
    next => rfl

theorem copyBranches_refused {a : Addr} {k key : Key} {arr : List (Branch × Tree)}
    (hwf : (Tree.node a k arr).WF) (hrefused : pol.copied key (.node a k arr) = [])
    (hmay : pol.mayAddTrie (key ++ k) = true) :
    copyBranches pol h (key ++ k) arr = .ok ([], h) := by
  obtain ⟨-, -, hsort, hh, hw⟩ := Tree.wf_node.mp hwf
  rw [MergePolicy.copied_node hsort hh, if_pos hmay, Tree.behind, List.map_eq_nil_iff,
    List.flatMap_eq_nil_iff] at hrefused
  have hgo : ∀ more, more ⊆ arr → copyBranches pol h (key ++ k) more = .ok ([], h) := by
    intro more hsub
    induction more with
    | nil => rfl
    | cons x more ih =>
      have hx : x ∈ arr := hsub List.mem_cons_self
      rw [copyBranches] at ih ⊢
      rw [selectiveDeepCopySubtree.go, copy_refused (hw x hx) (hrefused x hx)]
      simp only [bind, Except.bind, ih fun y hy => hsub (List.mem_cons_of_mem x hy)]
      rfl
  exact hgo arr fun x hx => hx

variable {pol' : MergePolicy} {merge : Merge} {h1 : Heap} {base : Path} {u : Tree} {s : Stop}
  {q : Path} {f : Transition}

/-- A refused source adds nothing beside what is left of the node. -/
theorem resolveDivergence_refused (hf : Found pol' h c base u src o s q)
    (hrefused : pol.copied base.str src = []) (hbeside : src.isLeaf = true ∨ s.rest ≠ [])
    (hpos : f.keypos = s.path.str.length) (hpre : f.prefixLen = s.prefixLen)
    (fs : List Transition) (key1 : Branch) (child1 : Addr) :
    resolveDivergence pol merge h1 c f fs src (u16 base.str.length) key1 child1
      (base.str ++ src.label) = .ok (h1, c) := by
  cases src with
  | leaf a k v =>
    rw [MergePolicy.copied_leaf] at hrefused
    have hmay : ¬ pol.mayAddLeaf (base.str ++ k) v = true := by
      intro hmay
      rw [if_pos hmay] at hrefused
      exact absurd hrefused (by simp)
    simp only [resolveDivergence, Tree.label, hmay]
    rfl
  | node a k arr =>
    have hrest := hbeside.resolve_left (by simp [Tree.isLeaf])
    have hlt : s.path.str.length + s.prefixLen < (base.str ++ k).length := by
      by_contra hge
      have hdrop : (base.str ++ k).drop (s.path.str.length + s.prefixLen) = s.rest := hf.rest
      rw [List.drop_eq_nil_of_le (by omega)] at hdrop
      exact hrest hdrop.symm
    simp only [resolveDivergence, Tree.label, hpos, hpre, hf.splitPos, hlt, ↓reduceIte]
    split
    next hmay =>
      simp only [copyBranches_refused hf.source.wf hrefused hmay, bind, Except.bind, ↓reduceIte]
    next => rfl

/-- A freed page the trie still leads to. -/
structure Dangles (t : Tree) (h' : Heap) (p : Path) (a : Addr) : Prop where
  top : p.top a = t.addr
  stored : p.Stored h'.rd a
  avail : h'.Avail a

/-- There is no proper trie under the root any more. -/
theorem Dangles.not_stores {h' : Heap} {p : Path} {a : Addr} (hd : Dangles t h' p a) :
    ¬ ∃ t' o', h'.Holds t' o' ∧ t'.addr = t.addr := by
  rintro ⟨t', o', hholds, haddr⟩
  have hmem := Path.mem_addrs_of_stored hd.stored hholds.stored (haddr.trans hd.top.symm)
  exact hholds.uses.not_avail a (List.mem_append_left _ hmem) hd.avail

/-- The node the search has ended at is freed, and its path is left as it is. -/
theorem Found.dangles {h' : Heap} (hf : Found pol' h c base u src o s q)
    (hpage : ∀ b ∈ s.path.addrs, h'.page b = h.page b) (havail : h'.Avail s.tree.addr) :
    Dangles (base.plug u) h' s.path s.tree.addr := by
  have hplug := hf.ends.plug
  refine ⟨?_, ?_, havail⟩
  . rw [← hplug, Path.addr_plug]
  . refine (Path.stored_plug.mp (hplug ▸ hf.holds.stored)).1.congr fun b hb => ?_
    rw [Heap.rd, hpage b hb]
    rfl

/-- A leaf is cut, the source is refused. -/
theorem splitLeaf_refused (pol : MergePolicy) (merge : Merge) {a : Addr} {k : Key} {v : Value}
    (hf : Found pol' h c base u src o s q)
    (htree : s.tree = .leaf a k v) (hcut : 0 < s.prefixLen)
    (hrefused : pol.copied base.str src = []) (hbeside : src.isLeaf = true ∨ s.rest ≠ [])
    (hnode : f.node = a) (hpos : f.keypos = s.path.str.length) (hpre : f.prefixLen = s.prefixLen)
    (fs : List Transition) :
    ∃ h', splitLeaf pol merge h c f fs ⟨k, v.big, v.bytes⟩ src (u16 base.str.length)
        (base.str ++ src.label) = .ok (h', c) ∧
      Dangles (base.plug u) h' s.path s.tree.addr := by
  have hplug := hf.ends.plug
  rw [htree] at hplug
  have hu : h.Uses (s.path.addrs ++ ((Tree.leaf a k v).addrs ++ o)) :=
    (hplug ▸ hf.holds : h.Holds (s.path.plug (.leaf a k v)) o).uses_plug
  -- the pages of the path are among those that are left alone
  have ho : Opened h 0 [] [] (a :: (s.path.addrs ++ o)) := by
    refine ⟨hu.perm (List.perm_iff_count.mpr fun x => ?_), ⟨0, trivial, rfl⟩, by simp⟩
    simp only [Path.addrs_nil, Tree.branchAddrs_nil, Tree.addrs_leaf, List.nil_append,
      List.count_append, List.count_cons, List.count_nil]
    omega
  obtain ⟨copy, h1, hcopy, -, hsp⟩ := copyReducedLeaf_opened s.prefixLen
    (k.drop s.prefixLen).head? ho (Path.wf_plug.mp (hplug ▸ hf.holds.wf)).2.2
  refine ⟨h1.free a, ?_, hf.dangles (fun b hb => hsp.page b (List.mem_append_left _ hb)) ?_⟩
  . rw [splitLeaf, hpre, if_neg (by omega), hnode]
    simp only [hcopy, bind, Except.bind]
    exact resolveDivergence_refused hf hrefused hbeside hpos hpre _ _ _
  . rw [htree]
    exact Heap.avail_free h1 a

/-- A node is cut, the source is refused. -/
theorem mergeTrieNode_refused (pol : MergePolicy) (merge : Merge) {a : Addr} {cs : Key}
    {arr : List (Branch × Tree)}
    (hf : Found pol' h c base u src o s q) (htree : s.tree = .node a cs arr)
    (hcut : s.prefixLen < cs.length) (hrefused : pol.copied base.str src = [])
    (hbeside : src.isLeaf = true ∨ s.rest ≠ []) (hnode : f.node = a)
    (hpos : f.keypos = s.path.str.length) (hpre : f.prefixLen = s.prefixLen)
    (fs : List Transition) :
    ∃ h', mergeTrieNode pol merge h c f fs ⟨cs, Branches.mapSnd Tree.addr arr⟩ src
        (u16 base.str.length) (base.str ++ src.label) = .ok (h', c) ∧
      Dangles (base.plug u) h' s.path s.tree.addr := by
  have hplug := hf.ends.plug
  rw [htree] at hplug
  have hu := (hplug ▸ hf.holds : h.Holds (s.path.plug (.node a cs arr)) o).uses_plug
  obtain ⟨hlen, -, hsort, -, -⟩ :=
    Tree.wf_node.mp (Path.wf_plug.mp (hplug ▸ hf.holds.wf)).2.2
  have hcount : TrieNode.count ⟨cs, Branches.mapSnd Tree.addr arr⟩ ≤ 257 := by
    rw [TrieNode.count, Branches.length_mapSnd]
    exact Branches.length_le hsort
  obtain ⟨child, h1, halloc, ha, -⟩ := Heap.allocNode_allocates hu
    (n := TrieNode.changedLen ⟨cs, Branches.mapSnd Tree.addr arr⟩ (cs.length - s.prefixLen))
    (fitsPage_iff.mpr ((TrieNode.changedLen_le _ (by omega) hcount).trans (by decide)))
    (.trie ⟨cs.drop s.prefixLen, Branches.mapSnd Tree.addr arr⟩)
  refine ⟨h1.free a, ?_, hf.dangles (fun b hb => ?_) ?_⟩
  . have hleft : cs.length - s.prefixLen ≠ 0 := by omega
    rw [mergeTrieNode, hpre]
    simp only [TrieNode.len, TrieNode.createPrefix, hleft, ↓reduceIte, halloc, hnode, bind,
      Except.bind]
    exact resolveDivergence_refused hf hrefused hbeside hpos hpre _ _ _
  . rw [Heap.page_free]
    exact ha.adds.page b (List.mem_append_left _ hb)
  . rw [htree]
    exact Heap.avail_free h1 a

/-- The node a source comes to is cut before the policy is asked. -/
structure CutFirst (s : Stop) (src : Tree) : Prop where
  beside : src.isLeaf = true ∨ s.rest ≠ []
  leaf : s.tree.isLeaf = true → 0 < s.prefixLen ∧ s.suffix ≠ s.tree.label
  node : s.tree.isLeaf = false → s.prefixLen < s.tree.label.length

/--
Where the policy refuses all of the source, but a node had to be cut, the merge changes no link: the
trie of the destination goes on with a page that has been freed.
-/
theorem exec_refused (hs : h.Holds t o) (hshort : ShortTree t) (hc : c.Stands (some t) pos)
    (hsrc : Source (.standard pol.migrateBigValue) [] src) (hok : c.FindOk src.label)
    (hrefused : pol.copied [] src = []) (hcut : CutFirst (t.search [] src.label) src) :
    ∃ h' c', exec pol h c (some src) = .ok (h', c') ∧ c'.root = t.addr ∧
      Dangles t h' (t.search [] src.label).path (t.search [] src.label).tree.addr ∧
      ¬ ∃ t' o', h'.Holds t' o' ∧ t'.addr = c'.root := by
  obtain ⟨c1, q, hfind, hne, hf⟩ := exec_found hs hshort hc hsrc hok
  obtain ⟨n, hn, heq⟩ := exec_eq pol hfind hne
  generalize t.search [] src.label = s at hf hcut
  suffices hmain : ∃ h', mergeFound pol (mergeNode pol n) h c1 src (u16 (Path.str []).length)
      (Path.str [] ++ src.label) = .ok (h', c1) ∧ Dangles t h' s.path s.tree.addr by
    obtain ⟨h', hmerge, hd⟩ := hmain
    refine ⟨h', c1, heq.trans hmerge, hf.root, hd, ?_⟩
    rw [hf.root]
    exact hd.not_stores
  cases htree : s.tree with
  | node a cs arr =>
    obtain ⟨idx, hfound⟩ := mergeFound_node pol (mergeNode pol n) hf htree
      (u16 (Path.str []).length) (Path.str [] ++ src.label)
    have hlt : s.prefixLen < cs.length := by
      have hlt := hcut.node (by rw [htree]; rfl)
      rwa [htree] at hlt
    obtain ⟨h', hmerge, hd⟩ := mergeTrieNode_refused pol (mergeNode pol n)
      (f := ⟨a, s.prefixLen, s.path.str.length, s.cmp, idx⟩) hf htree hlt hrefused hcut.beside rfl
      rfl rfl (frames (q ++ []))
    rw [htree] at hd
    exact ⟨h', hfound.trans hmerge, hd⟩
  | leaf a k v =>
    obtain ⟨hpos, hmiss⟩ := hcut.leaf (by rw [htree]; rfl)
    rw [htree] at hmiss
    have hle := hf.ends.le
    rw [htree] at hle
    have hk : k ≠ [] := by
      rintro rfl
      exact absurd hle (Nat.not_le.mpr hpos)
    obtain ⟨idx, hfound⟩ := mergeFound_leaf pol (mergeNode pol n) hf htree
      (fun hnone => hk hnone.1) (u16 (Path.str []).length) (Path.str [] ++ src.label)
    obtain ⟨h', hmerge, hd⟩ := splitLeaf_refused pol (mergeNode pol n)
      (f := ⟨a, s.prefixLen, s.path.str.length, s.cmp, idx⟩) hf htree hpos hrefused hcut.beside rfl
      rfl rfl (frames (q ++ []))
    rw [htree] at hd
    refine ⟨h', ?_, hd⟩
    rw [hfound, ← hmerge]
    cases src with
    | node sa sk sarr => rfl
    | leaf sa sk sv =>
      have hcmp : s.cmp ≠ 0 := hf.ends.miss htree hmiss
      simp only [mergeLeafNode, hcmp, ↓reduceIte]

/-- The leaf `ab` is cut for the key `ac`, which is not added. -/
theorem exec_refused_ac :
    ∃ h, Edit.run (Heap.create Edit.areas) 0 [.value [0x61, 0x62] ⟨[1], []⟩] = some (h, 2097176) ∧
      ∃ h' c', exec withoutAc h (init 2097176) (some (.leaf 8 [0x61, 0x63] ⟨false, [2]⟩)) =
          .ok (h', c') ∧
        c'.root = 2097176 ∧ h'.Avail 2097176 ∧ ¬ ∃ t' o', h'.Holds t' o' ∧ t'.addr = 2097176 := by
  have hfits : Edit.runFits (Heap.create Edit.areas) 0 [.value [0x61, 0x62] ⟨[1], []⟩] = true := by
    decide +kernel
  obtain ⟨h, root, hrun, t, hs, hroot, -⟩ :=
    Edit.run_represents (Edit.represents_create Edit.areas) hfits
  have hpage : (Edit.run (Heap.create Edit.areas) 0 [.value [0x61, 0x62] ⟨[1], []⟩]).all (fun r =>
      decide (r.2 = 2097176) && decide (r.1.rd r.2 = .leaf ⟨[0x61, 0x62], false, [1]⟩)) = true := by
    decide +kernel
  rw [hrun, Option.all_some] at hpage
  simp only [Bool.and_eq_true, decide_eq_true_eq] at hpage
  obtain ⟨rfl, hleaf⟩ := hpage
  let ab := Tree.leaf 2097176 [0x61, 0x62] ⟨false, [1]⟩
  have hst : Tree.Stored h.rd ab := Tree.stored_leaf.mpr hleaf
  cases t with
  | none => exact absurd hroot (by decide)
  | some t =>
    have hsame : t = ab := Tree.stored_unique (hs.valid.stored t rfl) hst hroot.symm
    subst hsame
    have hshort : ShortTree ab := by
      unfold ShortTree
      decide
    have hsource : Source (.standard withoutAc.migrateBigValue) []
        (.leaf 8 [0x61, 0x63] ⟨false, [2]⟩) := by
      refine ⟨Tree.wf_leaf.mpr (by decide), by decide, fun _ _ => rfl, fun _ => rfl, ?_, by decide⟩
      unfold MergePolicy.Fits
      decide
    have hcut : CutFirst (ab.search [] [0x61, 0x63]) (.leaf 8 [0x61, 0x63] ⟨false, [2]⟩) := by
      rw [Tree.search_leaf]
      refine ⟨Or.inl rfl, fun _ => by decide, fun hnode => ?_⟩
      simp [Tree.isLeaf] at hnode
    obtain ⟨h', c', heq, hroot', hd, hno⟩ :=
      exec_refused hs.holds hshort (stands_init (some ab)) hsource (Or.inl rfl) rfl hcut
    rw [Tree.label, Tree.search_leaf] at hd
    rw [hroot'] at hno
    exact ⟨h, hrun, h', c', heq, hroot', hd.avail, hno⟩

end Refused

end Merger
end Leaves
