import Leaves.Merge.Merging

/-!
The whole merge: by induction on the height of the source it does at every node what it should, so
the destination ends with the merge of both maps.
-/

namespace Leaves
namespace Merger

open Cursor

section Found

variable {pol : MergePolicy} {merge : Merge} {h : Heap} {c : Cursor} {base : Path} {u src : Tree}
  {o : List Addr} {s : Stop} {q : Path}

/-- The leaf of `NONE` stands for the node it hangs under if the source goes on there. -/
theorem none_merges {sa : Addr} {lab : Key} {sarr : List (Branch × Tree)}
    (hf : Found pol h c base u (.node sa lab sarr) o s q) {a : Addr} {v : Value}
    (htree : s.tree = .leaf a [] v) (hne : s.path ≠ [])
    (ih : ∀ x ∈ sarr, MergesAt pol merge x.2) :
    ∃ g gs t h' c' u', c.pop.stack = g :: gs ∧ h.rd g.node = .trie t ∧
      mergeTrieNode pol merge h c.pop g gs t (.node sa lab sarr) (u16 base.str.length)
        (base.str ++ lab) = .ok (h', c') ∧
      Done pol h base u (.node sa lab sarr) o h' c' u' := by
  obtain ⟨s1, p1, hpath⟩ := List.exists_cons_of_ne_nil hne
  have hplug := hf.ends.plug
  rw [htree, hpath] at hplug
  obtain ⟨-, hfits, -⟩ := Path.wf_plug.mp (hplug ▸ hf.holds.wf)
  have hbranch : s1.branch = none := hfits.1.symm
  have hsuffix : s.suffix = [] := by
    have hleads := hf.ends.leads
    rw [hpath, Path.leads_cons, hbranch, List.head?_eq_none_iff] at hleads
    exact hleads
  have hlab : lab = q.str := by
    have hlabel := hf.label
    rw [hsuffix, List.append_nil] at hlabel
    exact hlabel
  -- the way to the leaf is at least one step, the key of a node below the root is not empty
  have hq : q ≠ [] := by
    rintro rfl
    rw [Path.str_nil] at hlab
    have hsrcFits := hf.fits
    have hbase := hf.path
    rw [hpath, List.nil_append] at hbase
    rw [← hbase] at hsrcFits
    exact hsrcFits.label_ne_nil rfl hlab
  obtain ⟨s', q1, rfl⟩ := List.exists_cons_of_ne_nil hq
  have hsame := hf.path
  rw [hpath, List.cons_append, List.cons.injEq] at hsame
  obtain ⟨rfl, rfl⟩ := hsame
  let arr := s1.left ++ (s1.branch, s.tree) :: s1.right
  have hplug1 : Path.plug q1 (.node s1.addr s1.compressed arr) = u := hf.plug
  have hrd : h.rd s1.addr = .trie ⟨s1.compressed, Branches.mapSnd Tree.addr arr⟩ := by
    have hst := hf.holds.stored
    rw [← hf.plug, Path.plug_cons] at hst
    exact (Path.stored_plug.mp (Path.stored_plug.mp hst).2).2.root
  obtain ⟨idx, hstack⟩ := hf.stopped.stack
  have hcur : c.currentKey = s.path.str := by
    rw [hf.stopped.currentKey, htree, Tree.label, List.take_nil, List.append_nil]
  have hpop : c.pop.stack = taken s1 (q1 ++ base) :: frames (q1 ++ base) := by
    rw [pop, hstack, hpath]
    rfl
  have hpopKey : c.pop.currentKey = s.path.str := by
    simp only [pop, hstack, resizeKey, hcur, hf.keypos]
    rw [resize_of_le (Nat.le_refl _), List.take_length]
  have hroot : c.pop.root = (base.plug u).addr := by
    rw [pop, hstack]
    exact hf.root
  have hkey : base.str ++ lab = s.path.str := by
    rw [hlab, hpath, ← List.cons_append, Path.str_append]
  have halong : c.pop.Along (q1 ++ base) := by
    refine ⟨⟨[taken s1 (q1 ++ base)], hpop⟩, ?_, ?_⟩
    . rw [hpopKey, hpath, Path.str_cons]
      exact List.prefix_append _ _
    . have hknown := hf.stopped.known
      rw [hpath] at hknown
      rw [pop, hstack]
      exact hknown.tail
  have hpos : (taken s1 (q1 ++ base)).keypos = (Path.str (q1 ++ base)).length := by
    refine u16_eq ((hf.short.shallow hf.holds.wf).str_lt (u := .node s1.addr s1.compressed arr) ?_)
    rw [Path.plug_append, hplug1]
  obtain ⟨h', c', u', heq, hdone⟩ := intoTrie_join (f := taken s1 (q1 ++ base))
    hf.holds hf.owned hf.source hf.short hroot halong hplug1 hlab (by rw [hkey, hpopKey]) rfl hpos
    ih
  refine ⟨_, _, _, h', c', u', hpop, hrd, ?_, hdone⟩
  rw [mergeTrieNode]
  simp only [TrieNode.len, taken, Nat.sub_self, ↓reduceIte]
  exact heq

/-- The search has ended at a node. -/
theorem mergeFound_node (pol' : MergePolicy) (merge : Merge)
    (hf : Found pol h c base u src o s q) {a : Addr}
    {cs : Key} {arr : List (Branch × Tree)} (htree : s.tree = .node a cs arr) (srcKeypos : Nat)
    (key : Key) :
    ∃ idx, mergeFound pol' merge h c src srcKeypos key =
      mergeTrieNode pol' merge h c ⟨a, s.prefixLen, s.path.str.length, s.cmp, idx⟩
        (frames (q ++ base)) ⟨cs, Branches.mapSnd Tree.addr arr⟩ src srcKeypos key := by
  obtain ⟨idx, hstack⟩ := hf.stopped.stack
  have hrd := (Path.stored_plug.mp (hf.ends.plug ▸ hf.holds.stored)).2.root
  rw [htree] at hrd
  refine ⟨idx, ?_⟩
  rw [mergeFound, hstack, htree, hf.keypos, hf.path]
  simp only [hrd, Tree.root, Tree.addr] at hrd ⊢

/-- The search has ended at a leaf that does not stand for the node above it. -/
theorem mergeFound_leaf (pol' : MergePolicy) (merge : Merge)
    (hf : Found pol h c base u src o s q) {a : Addr}
    {k : Key} {v : Value} (htree : s.tree = .leaf a k v)
    (hnone : ¬ (k = [] ∧ src.isLeaf = false ∧ frames s.path ≠ [])) (srcKeypos : Nat) (key : Key) :
    ∃ idx, mergeFound pol' merge h c src srcKeypos key =
      mergeLeafNode pol' merge h c ⟨a, s.prefixLen, s.path.str.length, s.cmp, idx⟩
        (frames (q ++ base)) ⟨k, v.big, v.bytes⟩ src srcKeypos key := by
  obtain ⟨idx, hstack⟩ := hf.stopped.stack
  have hrd := (Path.stored_plug.mp (hf.ends.plug ▸ hf.holds.stored)).2.root
  rw [htree] at hrd
  refine ⟨idx, ?_⟩
  rw [mergeFound, hstack, htree, hf.keypos, ← hf.path]
  simp only [hrd, Tree.root, Tree.addr, hnone, ↓reduceIte] at hrd ⊢

theorem mergeFound_merges (hf : Found pol h c base u src o s q)
    (ih : ∀ a k sarr, src = .node a k sarr → ∀ x ∈ sarr, MergesAt pol merge x.2) :
    ∃ h' c' u', mergeFound pol merge h c src (u16 base.str.length) (base.str ++ src.label) =
        .ok (h', c') ∧
      Done pol h base u src o h' c' u' := by
  cases htree : s.tree with
  | node a cs arr =>
    obtain ⟨idx, hfound⟩ := mergeFound_node pol merge hf htree (u16 base.str.length)
      (base.str ++ src.label)
    rw [hfound]
    exact trieNode_merges hf htree rfl rfl rfl ih
  | leaf a k v =>
    by_cases hnone : k = [] ∧ src.isLeaf = false ∧ frames s.path ≠ []
    . obtain ⟨rfl, hleaf, hne⟩ := hnone
      cases src with
      | leaf sa sk v => simp [Tree.isLeaf] at hleaf
      | node sa lab sarr =>
        have hpath : s.path ≠ [] := fun hnil => hne (by rw [hnil]; rfl)
        obtain ⟨g, gs, t, h', c', u', hpop, hg, heq, hdone⟩ :=
          none_merges hf htree hpath (ih sa lab sarr rfl)
        obtain ⟨idx, hstack⟩ := hf.stopped.stack
        have hrd := (Path.stored_plug.mp (hf.ends.plug ▸ hf.holds.stored)).2.root
        rw [htree] at hrd
        refine ⟨h', c', u', ?_, hdone⟩
        rw [mergeFound, hstack, htree]
        simp only [hrd, Tree.root, Tree.addr, Tree.isLeaf, ne_eq, hne, not_false_eq_true, and_self,
          ↓reduceIte, hpop, hg] at hrd ⊢
        exact heq
    . obtain ⟨idx, hfound⟩ := mergeFound_leaf pol merge hf htree hnone
        (u16 base.str.length) (base.str ++ src.label)
      rw [hfound]
      have hsplit : (src.isLeaf = true → s.suffix ≠ k) →
          ∃ h' c' u', splitLeaf pol merge h c ⟨a, s.prefixLen, s.path.str.length, s.cmp, idx⟩
              (frames (q ++ base)) ⟨k, v.big, v.bytes⟩ src (u16 base.str.length)
              (base.str ++ src.label) = .ok (h', c') ∧
            Done pol h base u src o h' c' u' := by
        intro hmiss
        refine splitLeaf_merges hf htree hmiss (fun hnil => ?_) rfl rfl rfl ih
        by_cases hleaf : src.isLeaf = true
        . exact Or.inr hleaf
        . refine Or.inl ?_
          by_contra hne
          refine hnone ⟨hnil, by simpa using hleaf, fun hframes => hne ?_⟩
          rw [← hf.path]
          exact List.length_eq_zero_iff.mp (by rw [← length_frames, hframes]; rfl)
      cases src with
      | node sa lab sarr => exact hsplit (fun hleaf => by simp [Tree.isLeaf] at hleaf)
      | leaf sa sk w =>
        by_cases hkey : s.suffix = k
        . obtain ⟨h', c', u', heq, hdone, -⟩ := overwrite_merges merge
            (f := ⟨a, s.prefixLen, s.path.str.length, s.cmp, idx⟩) (u16 base.str.length) hf htree
            hkey (hf.ends.hit htree hkey).1 rfl rfl
          exact ⟨h', c', u', heq, hdone⟩
        . rw [mergeLeafNode, if_neg (hf.ends.miss htree hkey)]
          exact hsplit fun _ => hkey

end Found

section Node

variable {pol : MergePolicy} {h : Heap} {c : Cursor} {base : Path} {u src : Tree} {o : List Addr}

/-- From where the cursor has been trimmed to, the search comes to the subtree that is merged. -/
theorem Ready.found (hr : Ready pol h c base u src o) :
    ∃ c' s q, c.find h.rd (base.str ++ src.label) = some c' ∧ Found pol h c' base u src o s q := by
  obtain ⟨hbwf, -, -⟩ := Path.wf_plug.mp hr.holds.wf
  have hleads : base.Leads src.label := by
    have := hr.fits.leads [] (Or.inr rfl)
    rwa [List.append_nil] at this
  have hlen : (base.str ++ src.label).length ≤ MAX_KEY_SIZE := by
    have := hr.source.label_lt
    rw [MAX_KEY_SIZE]
    omega
  have haddr : (base.plug u).addr ≠ 0 :=
    hr.holds.uses.ne_zero _ (List.mem_append_left _ (Tree.addr_mem_addrs _))
  have hshallow := hr.short.shallow hr.holds.wf
  obtain ⟨w, rest, hkey, hplug, hne⟩ : ∃ (w : Tree) (rest : Key),
      base.str ++ src.label = Path.str base.tail ++ rest ∧ Path.plug base.tail w = base.plug u ∧
        (base.tail ≠ [] → rest ≠ []) := by
    cases base with
    | nil => exact ⟨u, src.label, rfl, rfl, fun hne => absurd rfl hne⟩
    | cons s p =>
      refine ⟨s.tree u, s.compressed ++ src.label, by simp, rfl, fun hne hnil => ?_⟩
      have hfits := hbwf.2.2.2.2.1 u
      rw [List.append_eq_nil_iff] at hnil
      cases p with
      | nil => exact hne rfl
      | cons s' p => exact hfits.label_ne_nil rfl hnil.1
  rw [hkey] at hlen
  obtain ⟨c', hfind, hroot, hstop⟩ := find_trimmed hr.trimmed hr.root haddr hplug hr.holds.stored
    hr.holds.wf hshallow hlen hne
  rw [← hkey] at hfind hstop
  have hends := Tree.search_root_ends hr.holds.wf (base.str ++ src.label)
  obtain ⟨q, hpath, hq⟩ := Tree.search_below u base src.label
  rw [← Tree.search_plug hbwf hleads] at hpath hq
  exact ⟨c', _, q, hfind, hr.holds, hr.owned, hr.source, hr.fits, hr.short, hroot.trans hr.root,
    hstop, hends, hpath, hq⟩

theorem mergeNode_merges {n : Nat} (hheight : src.height ≤ n) :
    MergesAt pol (mergeNode pol n) src := by
  induction n generalizing src with
  | zero =>
    have hpos : 0 < src.height := by cases src <;> simp [Tree.height]
    omega
  | succ n ih =>
    intro h c base u o hr
    obtain ⟨c1, s, q, hfind, hf⟩ := hr.found
    have hchild : ∀ a k sarr, src = .node a k sarr →
        ∀ x ∈ sarr, MergesAt pol (mergeNode pol n) x.2 := by
      rintro a k sarr rfl x hx
      have hlt := Tree.height_lt_of_mem (a := a) (c := k) hx
      exact ih (by omega)
    obtain ⟨h', c', u', heq, hdone⟩ := mergeFound_merges hf hchild
    refine ⟨h', c', u', ?_, hdone⟩
    obtain ⟨idx, hstack⟩ := hf.stopped.stack
    have hne : c1.stack ≠ [] := by
      rw [hstack]
      exact List.cons_ne_nil _ _
    rw [mergeNode, hfind]
    simp only [hne, ↓reduceIte]
    exact heq

end Node

end Merger
end Leaves
