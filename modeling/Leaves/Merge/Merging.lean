import Leaves.Merge.Splitting

/-!
One step of the merge: the node of the destination the root of the source comes to is a leaf, a node
the key of the source leaves, or a node whose string the key goes past.
-/

namespace Leaves
namespace Merger

open Cursor

section Into

variable {pol : MergePolicy} {merge : Merge} {h h1 : Heap} {c : Cursor} {base : Path}
  {u src : Tree} {o : List Addr} {s : Stop} {q : Path} {f : Transition} {a : Addr} {cs : Key}
  {arr : List (Branch × Tree)}

theorem Hollow.perm {s : Step} {p : Path} {l : List Addr} (hole : Hollow h s p o)
    (hp : o.Perm l) : Hollow h s p l :=
  ⟨hole.uses.perm (hp.append_left _), hole.stored, hole.owned⟩

theorem Done.free {u' : Tree} (hd : Done pol h base u src (a :: o) h1 c u') :
    Done pol h base u src o (h1.free a) c u' := by
  have hperm := hd.holds.uses.perm List.perm_middle
  refine ⟨⟨Heap.free_uses hperm, hd.holds.stored, hd.holds.wf⟩, hd.merges, hd.root, hd.along, ?_⟩
  exact (hd.spares.mono id fun b hb => by simp [hb]).trans (hperm.free_spares a o)

/-- The search has come past the string of a node. -/
structure Past (s : Stop) (a : Addr) (cs : Key) (arr : List (Branch × Tree)) : Prop where
  tree : s.tree = .node a cs arr
  prefixLen : s.prefixLen = cs.length

theorem Past.room (hp : Past s a cs arr) (hf : Found pol h c base u src o s q) :
    s.Room cs arr s.rest.head? :=
  Stop.room_missing hf.ends hf.holds.wf hp.tree hp.prefixLen (hf.ends.unset hp.tree hp.prefixLen)

theorem Past.opened (hp : Past s a cs arr) (hf : Found pol h c base u src o s q) :
    Opened h c.root (q ++ base) arr (a :: o) := by
  have hplug := hf.ends.plug
  rw [hp.tree, hf.path] at hplug
  rw [hf.root]
  exact opened_node hf.holds hplug

theorem Past.label (hp : Past s a cs arr) (hf : Found pol h c base u src o s q) :
    src.label = q.str ++ (cs ++ s.rest) := by
  rw [hf.label, (hp.room hf).suffix]

theorem Past.currentKey (hp : Past s a cs arr) (hf : Found pol h c base u src o s q) :
    c.currentKey = base.str ++ (q.str ++ cs) := by
  rw [hf.stopped.currentKey, hf.path, hp.tree, hp.prefixLen, Tree.label, List.take_length,
    Path.str_append, List.append_assoc]

theorem Past.key (hp : Past s a cs arr) (hf : Found pol h c base u src o s q) :
    base.str ++ src.label = c.currentKey ++ s.rest := by
  rw [hp.label hf, hp.currentKey hf]
  simp only [List.append_assoc]

theorem Past.suffixLen (hp : Past s a cs arr) (hf : Found pol h c base u src o s q) :
    ((base.str ++ src.label).length - c.currentKey.length) % 256 = s.rest.length := by
  have hle := hf.rest_le
  rw [hp.key hf, List.length_append, Nat.add_sub_cancel_left]
  exact Nat.mod_eq_of_lt (by omega)

/-- The branch of the new child is the byte behind the string of the node. -/
theorem Past.branch (hp : Past s a cs arr) (hf : Found pol h c base u src o s q) :
    (if s.rest.length = 0 then none
      else ((base.str ++ src.label).drop c.currentKey.length).head?) = s.rest.head? := by
  rw [hp.key hf, List.drop_left]
  split
  next hzero =>
    rw [List.length_eq_zero_iff.mp hzero]
    rfl
  next => rfl

/-- What is left of the string of the source. -/
theorem Past.rest (hp : Past s a cs arr) (hf : Found pol h c base u src o s q) :
    src.label.drop (src.label.length - s.rest.length) = s.rest := by
  have hlabel := hp.label hf
  rw [← List.append_assoc] at hlabel
  rw [hlabel, List.length_append, Nat.add_sub_cancel, List.drop_left]

/-- The new node with the filled branch takes the place of the node. -/
theorem Found.expands (hf : Found pol h c base u src o s q) {trie : Addr} {y : Tree}
    (room : s.Room cs arr s.rest.head?)
    (hole : Hollow h1 (Stop.into trie cs arr s.rest.head?) []
      (y.addrs ++ (Path.addrs (q ++ base) ++ o)))
    (hpath : ∃ old, Path.Stored h1.rd (q ++ base) old ∧ c.root = Path.top (q ++ base) old)
    (hst : Tree.Stored h1.rd y) (hhangs : Tree.Hangs (s.rest.head?, y)) (hwf : y.WF)
    (hsp : h.Spares (Clean pol base.str u src) o h1)
    (hy : ∀ k, y.get k = (src.get (q.str ++ (cs ++ k))).map pol.migrated) :
    ∃ h' c' u', c.updateOffset (h1.setLink trie (Branches.below arr s.rest.head?).length y.addr) f
        (frames (q ++ base)) trie = .ok (h', c') ∧ Done pol h base u src o h' c' u' := by
  have hinto := hf.wf_into room (.refl q) trie
  have hone : Path.WF [Stop.into trie cs arr s.rest.head?] :=
    ⟨hinto.1, hinto.2.1, hinto.2.2.1, hinto.2.2.2.1, fun _ => trivial, trivial⟩
  obtain ⟨hholds, hsp2⟩ := Hollow.fill hole hst hone hhangs hwf
  obtain ⟨old, hpst, hroot⟩ := hpath
  let step := Stop.into trie cs arr s.rest.head?
  obtain ⟨h2, hlink⟩ : ∃ h2, h2 = h1.setLink step.addr step.left.length y.addr := ⟨_, rfl⟩
  rw [← hlink] at hholds hsp2
  have hu : h2.Uses (Path.addrs (q ++ base) ++ ((step.tree y).addrs ++ o)) := by
    refine hholds.uses.perm ?_
    rw [← List.append_assoc, ← List.append_assoc]
    exact List.perm_append_comm.append_right o
  have hpst2 : Path.Stored h2.rd (q ++ base) old := by
    refine hpst.congr fun b hb => ?_
    rw [Heap.rd, hsp2.page b (List.mem_append_left _ hb)]
    rfl
  obtain ⟨h3, q', heq, ht, hholds2, hsp3⟩ := updateOffset_holds (f := f) hu hpst2 hholds.stored
    hinto.2.2.2.2.2 (hinto.2.2.2.2.1 y) hholds.wf
    (fun s hs => hsp2.owning _ (hsp.owning _ (hf.owned s hs))) hroot
  rw [hlink] at heq
  refine ⟨h3, _, _, heq, hf.grafted room ht hholds2 hy rfl (along_relinked hf.along ht _ _) ?_⟩
  refine hsp.trans ((hsp2.mono (fun _ => trivial) fun b hb => by simp [hb]).trans ?_)
  exact hsp3.mono (fun _ => trivial) fun b hb => hb

/-- A leaf of the source below a node. -/
theorem intoTrie_leaf {sa : Addr} {sk : Key} {v : Value}
    (hf : Found pol h c base u (.leaf sa sk v) o s q) (hp : Past s a cs arr) (hnode : f.node = a) :
    ∃ h' c' u', mergeIntoTrie pol merge h c f (frames (q ++ base))
        ⟨cs, Branches.mapSnd Tree.addr arr⟩ (.leaf sa sk v) (base.str ++ sk) = .ok (h', c') ∧
      Done pol h base u (.leaf sa sk v) o h' c' u' := by
  have room := hp.room hf
  have hadd : pol.mayAddLeaf (base.str ++ sk) v = true := hf.source.leaves (sk, v) (by simp)
  obtain ⟨trie, h1, hexpand, hole, hpath, hsp1⟩ := expand_hollow (c := c) (hp.opened hf) room.len
    room.sorted room.unset (hp.branch hf)
  obtain ⟨leaf, h2, hfill, ha, hst, hwf⟩ := fillLeaf_allocates s.rest hole.uses
    hf.source.fits hf.rest_le
  have hole2 := hole.adds ha.adds
  have hpath2 : ∃ old, Path.Stored h2.rd (q ++ base) old ∧ c.root = Path.top (q ++ base) old := by
    obtain ⟨old, hpst, hroot⟩ := hpath
    refine ⟨old, hpst.congr fun b hb => ?_, hroot⟩
    rw [Heap.rd, ha.adds.page b (by simp [hb])]
    rfl
  have hsp2 : h1.Spares True o h2 := ha.adds.spares fun b hb => by simp [hb]
  obtain ⟨h3, c3, u', hupdate, hdone⟩ := hf.expands
    (f := { f with linkIdx := (Branches.below arr s.rest.head?).length })
    (y := .leaf leaf s.rest (pol.migrated v)) room hole2 hpath2 hst ⟨rfl, fun _ => rfl⟩ hwf
    ((hsp1.trans hsp2).mono (fun _ => trivial) fun b hb => hb) (leaf_get (hp.label hf))
  refine ⟨h3, c3, u', ?_, hdone⟩
  have hlen : ((base.str ++ sk).length - c.currentKey.length) % 256 = s.rest.length :=
    hp.suffixLen hf
  have hrest : sk.drop (sk.length - s.rest.length) = s.rest := hp.rest hf
  rw [mergeIntoTrie]
  simp only [mergeLeafIntoTrie, hlen, hadd, ↓reduceIte, hnode]
  have hexpand' : expandTrieWithBranch h c a ⟨cs, Branches.mapSnd Tree.addr arr⟩ s.rest.length
      (base.str ++ sk) = _ := hexpand
  simp only [hexpand', hrest, hfill, bind, Except.bind]
  exact hupdate

/-- A node of the source whose key goes on below the node. -/
theorem intoTrie_suffix {sa : Addr} {sk : Key} {sarr : List (Branch × Tree)}
    (hf : Found pol h c base u (.node sa sk sarr) o s q) (hp : Past s a cs arr)
    (hnode : f.node = a) (hne : s.rest ≠ []) :
    ∃ h' c' u', mergeIntoTrie pol merge h c f (frames (q ++ base))
        ⟨cs, Branches.mapSnd Tree.addr arr⟩ (.node sa sk sarr) (base.str ++ sk) = .ok (h', c') ∧
      Done pol h base u (.node sa sk sarr) o h' c' u' := by
  have room := hp.room hf
  have ho := hp.opened hf
  obtain ⟨-, -, hssort, hsh, hsw⟩ := Tree.wf_node.mp hf.source.wf
  obtain ⟨copies, h1, hcopy, hc⟩ := copyBranches_copies pol (base.str ++ sk) sarr
    ho.uses hsh fun x hx h l hu =>
      copy_copies hu (hsw x hx) (hf.source.child hx).complete (hf.source.child hx).fits
  have hnil := copies_ne_nil hf.source hc
  have hcsort := hc.sorted hssort
  obtain ⟨child, h2, halloc, ha, hrd⟩ := Heap.allocNode_allocates hc.adds.uses
    (n := TrieNode.sizeMax s.rest.length (Branches.mapSnd Tree.addr copies).length)
    (fitsPage_iff.mpr ((TrieNode.sizeMax_le hf.rest_le
      (by rw [Branches.length_mapSnd]; exact Branches.length_le hcsort)).trans (by decide)))
    (.trie ⟨s.rest, Branches.mapSnd Tree.addr copies⟩)
  let y := Tree.node child s.rest copies
  have hadds : h.Adds (Path.addrs (q ++ base) ++ (Tree.branchAddrs arr ++ (a :: o))) y.addrs
      h2 := by
    rw [Tree.addrs_node]
    exact hc.adds.trans ha.adds
  have hst : Tree.Stored h2.rd y := by
    refine Tree.stored_node.mpr ⟨hrd, fun x hx => ha.adds.stored (hc.stored x hx) fun b hb => ?_⟩
    exact List.mem_append_left _ (Tree.addrs_subset hx b hb)
  have hwf : y.WF := Tree.wf_node.mpr ⟨hf.rest_le, hnil, hcsort, hc.hangs, hc.wf⟩
  have hhead : s.rest.head? ≠ none := by
    rw [ne_eq, List.head?_eq_none_iff]
    exact hne
  have ho2 : Opened h2 c.root (q ++ base) arr (a :: (y.addrs ++ o)) :=
    (ho.adds hadds).perm List.perm_middle
  obtain ⟨trie, h3, hexpand, hole, hpath, hsp3⟩ := expand_hollow (c := c) ho2 room.len
    room.sorted room.unset (hp.branch hf)
  have hst3 : Tree.Stored h3.rd y :=
    hst.congr fun b hb => by rw [Heap.rd, hsp3.page b (List.mem_append_left _ hb)]; rfl
  have hole3 : Hollow h3 (Stop.into trie cs arr s.rest.head?) []
      (y.addrs ++ (Path.addrs (q ++ base) ++ o)) := by
    refine hole.perm ?_
    rw [← List.append_assoc, ← List.append_assoc]
    exact List.perm_append_comm.append_right o
  have hsp2 : h.Spares True o h2 := hadds.spares fun b hb => by simp [hb]
  have hsp3' : h2.Spares True o h3 := hsp3.mono id fun b hb => by simp [hb]
  obtain ⟨h4, c4, u', hupdate, hdone⟩ := hf.expands
    (f := { f with linkIdx := (Branches.below arr s.rest.head?).length }) (y := y) room hole3 hpath
    hst3 ⟨rfl, fun hnone => absurd hnone hhead⟩ hwf
    ((hsp2.trans hsp3').mono (fun _ => trivial) fun b hb => hb)
    (node_get (hp.label hf) hf.source hc)
  refine ⟨h4, c4, u', ?_, hdone⟩
  have hlen : ((base.str ++ sk).length - c.currentKey.length) % 256 = s.rest.length :=
    hp.suffixLen hf
  have hrest : sk.drop (sk.length - s.rest.length) = s.rest := hp.rest hf
  have hzero : s.rest.length ≠ 0 := fun hzero => hne (List.length_eq_zero_iff.mp hzero)
  have hnil' : Branches.mapSnd Tree.addr copies ≠ [] := by
    rw [ne_eq, ← List.length_eq_zero_iff, Branches.length_mapSnd, List.length_eq_zero_iff]
    exact hnil
  have hexpand' : expandTrieWithBranch h2 c a ⟨cs, Branches.mapSnd Tree.addr arr⟩ s.rest.length
      (base.str ++ sk) = _ := hexpand
  rw [mergeIntoTrie]
  simp only [hlen, hzero, ne_eq, not_false_eq_true, ↓reduceIte, hcopy, hnil', hrest, halloc, hnode,
    hexpand', bind, Except.bind]
  exact hupdate

/-- A node of the source with the key of a node of the destination: their branches are joined. -/
theorem intoTrie_join {sa : Addr} {lab : Key} {sarr : List (Branch × Tree)}
    (hh : h.Holds (base.plug u) o) (howned : Owned h base)
    (hsrc : Source pol base.str (.node sa lab sarr)) (hshort : ShortTree (base.plug u))
    (hroot : c.root = (base.plug u).addr) (halong : c.Along (q ++ base))
    (hplug : q.plug (.node a cs arr) = u) (hlab : lab = q.str ++ cs)
    (hcur : (base.str ++ lab).length = c.currentKey.length) (hnode : f.node = a)
    (hpos : f.keypos = (Path.str (q ++ base)).length)
    (ih : ∀ x ∈ sarr, MergesAt pol merge x.2) :
    ∃ h' c' u', mergeIntoTrie pol merge h c f (frames (q ++ base))
        ⟨cs, Branches.mapSnd Tree.addr arr⟩ (.node sa lab sarr) (base.str ++ lab) = .ok (h', c') ∧
      Done pol h base u (.node sa lab sarr) o h' c' u' := by
  have hplug' : (q ++ base).plug (.node a cs arr) = base.plug u := by
    rw [Path.plug_append, hplug]
  obtain ⟨hwf, hfits, hnwf⟩ := Path.wf_plug.mp (hplug' ▸ hh.wf)
  obtain ⟨hlen, hne, hsort, hhangs, hchild⟩ := Tree.wf_node.mp hnwf
  have ho : Opened h c.root (q ++ base) arr (a :: o) := hroot ▸ opened_node hh hplug'
  obtain ⟨trie, h1, h2, c2, q', copies, hjoin, hupdate, j⟩ := join_joins (f := f) ho howned hsrc
    hlab hsort hhangs hchild hne hlen hwf (fun _ _ => hfits.congr rfl fun hleaf => hleaf) halong
  obtain ⟨h3, c3, arr', hshared, hdone⟩ := j.done hsrc ih
    hplug hh.wf hshort (Tree.entries_node a cs arr) hlab hsort hhangs hpos
  refine ⟨h3.free a, c3, _, ?_, hdone.free⟩
  have hzero : ((base.str ++ lab).length - c.currentKey.length) % 256 = 0 := by
    rw [hcur, Nat.sub_self]
  rw [mergeIntoTrie]
  simp only [hzero, ne_eq, not_true_eq_false, ↓reduceIte, hjoin, hupdate, hshared, hnode, bind,
    Except.bind]

/-- The key of the source goes past the string of a node. -/
theorem intoTrie_merges (hf : Found pol h c base u src o s q) (hp : Past s a cs arr)
    (hnode : f.node = a) (hpos : f.keypos = s.path.str.length)
    (ih : ∀ a k sarr, src = .node a k sarr → ∀ x ∈ sarr, MergesAt pol merge x.2) :
    ∃ h' c' u', mergeIntoTrie pol merge h c f (frames (q ++ base))
        ⟨cs, Branches.mapSnd Tree.addr arr⟩ src (base.str ++ src.label) = .ok (h', c') ∧
      Done pol h base u src o h' c' u' := by
  cases src with
  | leaf sa sk v => exact intoTrie_leaf hf hp hnode
  | node sa sk sarr =>
    by_cases hrest : s.rest = []
    . have hplug := hf.plug
      rw [hp.tree] at hplug
      have hlab : sk = q.str ++ cs := by
        have hlabel := hp.label hf
        rw [hrest, List.append_nil] at hlabel
        exact hlabel
      have hkey : base.str ++ sk = c.currentKey := by
        have hkey := hp.key hf
        rw [hrest, List.append_nil] at hkey
        exact hkey
      exact intoTrie_join hf.holds hf.owned hf.source hf.short hf.root hf.along hplug hlab
        (by rw [hkey]) hnode (by rw [hpos, hf.path]) (ih sa sk sarr rfl)
    . exact intoTrie_suffix hf hp hnode hrest

/-- The second part of the string of a node is copied, the node itself is freed. -/
theorem createPrefix_opened (hf : Found pol h c base u src o s q) (htree : s.tree = .node a cs arr)
    (b : Branch) :
    ∃ child h', h.allocNode
        (TrieNode.changedLen ⟨cs, Branches.mapSnd Tree.addr arr⟩ (cs.length - s.prefixLen))
        (.trie ⟨cs.drop s.prefixLen, Branches.mapSnd Tree.addr arr⟩) = .ok (child, h') ∧
      Opened (h'.free a) c.root (q ++ base) [(b, .node child (cs.drop s.prefixLen) arr)] o ∧
      h.Spares True o (h'.free a) := by
  have hplug := hf.ends.plug
  rw [htree, hf.path] at hplug
  obtain ⟨-, -, hwf⟩ := Path.wf_plug.mp (hplug ▸ hf.holds.wf)
  obtain ⟨hlen, -, hsort, -, -⟩ := Tree.wf_node.mp hwf
  have hcount : TrieNode.count ⟨cs, Branches.mapSnd Tree.addr arr⟩ ≤ 257 := by
    rw [TrieNode.count, Branches.length_mapSnd]
    exact Branches.length_le hsort
  have ho : Opened h c.root (q ++ base) arr (a :: o) := hf.root ▸ opened_node hf.holds hplug
  obtain ⟨child, h1, halloc, ha, hrd⟩ := Heap.allocNode_allocates ho.uses
    (n := TrieNode.changedLen ⟨cs, Branches.mapSnd Tree.addr arr⟩ (cs.length - s.prefixLen))
    (fitsPage_iff.mpr ((TrieNode.changedLen_le _ (by omega) hcount).trans (by decide)))
    (.trie ⟨cs.drop s.prefixLen, Branches.mapSnd Tree.addr arr⟩)
  have ho1 : Opened h1 c.root (q ++ base) arr (a :: child :: o) := by
    have hadd := ho.adds ha.adds
    exact hadd.perm (List.Perm.swap _ _ _)
  have ho2 := ho1.free
  have hsp1 : h.Spares True o h1 := ha.adds.spares fun b hb => by simp [hb]
  refine ⟨child, h1, halloc, ⟨?_, ho2.path, ?_⟩, hsp1.trans (ho1.uses.free_spares a o)⟩
  . refine ho2.uses.perm (List.perm_iff_count.mpr fun x => ?_)
    simp only [Tree.branchAddrs_cons, Tree.branchAddrs_nil, Tree.addrs_node, List.count_append,
      List.count_cons, List.count_nil]
    omega
  . simp only [List.mem_singleton, forall_eq]
    exact Tree.stored_node.mpr ⟨hrd, ho2.branches⟩

/-- `merge_trie_node` where a search has ended. -/
theorem trieNode_merges (hf : Found pol h c base u src o s q) (htree : s.tree = .node a cs arr)
    (hnode : f.node = a) (hpos : f.keypos = s.path.str.length) (hpre : f.prefixLen = s.prefixLen)
    (ih : ∀ a k sarr, src = .node a k sarr → ∀ x ∈ sarr, MergesAt pol merge x.2) :
    ∃ h' c' u', mergeTrieNode pol merge h c f (frames (q ++ base))
        ⟨cs, Branches.mapSnd Tree.addr arr⟩ src (u16 base.str.length) (base.str ++ src.label) =
          .ok (h', c') ∧
      Done pol h base u src o h' c' u' := by
  have hle : s.prefixLen ≤ cs.length := by
    have := hf.ends.le
    rwa [htree] at this
  unfold mergeTrieNode
  rw [hpre]
  split
  next hzero =>
    refine intoTrie_merges hf ⟨htree, ?_⟩ hnode hpos ih
    exact Nat.le_antisymm hle (Nat.sub_eq_zero_iff_le.mp hzero)
  next hpos' =>
    have hlt : s.prefixLen < cs.length := Nat.lt_of_sub_ne_zero hpos'
    obtain ⟨child, h1, halloc, ho, hsp⟩ := createPrefix_opened hf htree
      (cs.drop s.prefixLen).head?
    have hlabel : s.tree.label = cs := by rw [htree]; rfl
    have room : s.Room (s.tree.label.take s.prefixLen)
        [((cs.drop s.prefixLen).head?, .node child (cs.drop s.prefixLen) arr)] s.rest.head? := by
      rw [hlabel]
      exact Stop.room_short hf.ends hf.holds.wf child htree hlt
    have hres := resolveDivergence_merges (f := f) hf ho
      (hsp.mono (fun _ => trivial) fun b hb => hb) room.cut (fun _ => room) hpos hpre ih
    simp only [TrieNode.len, TrieNode.createPrefix, halloc, hnode, bind, Except.bind]
    exact hres

end Into

end Merger
end Leaves
