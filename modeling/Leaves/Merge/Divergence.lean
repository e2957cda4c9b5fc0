import Leaves.Merge.Joining

/-!
Where the key of the source leaves the destination: what is left of the node there, and the branch
of the source beside it.
-/

namespace Leaves

/-- A node with the string `cs` and the branches `arr` may take the place of the node. -/
structure Stop.Cut (s : Stop) (cs : Key) (arr : List (Branch × Tree)) : Prop where
  len : cs.length ≤ 255
  sorted : Branches.Sorted arr
  hangs : ∀ x ∈ arr, Tree.Hangs x
  wf : ∀ x ∈ arr, x.2.WF
  fits : ∀ a arr, s.path.Fits (.node a cs arr)
  entries : s.tree.entries = Tree.behind cs (Tree.branchEntries arr)
  suffix : s.suffix = cs ++ s.rest

namespace Stop

variable {s : Stop} {t : Tree} {K : Key}

theorem Room.cut {cs : Key} {arr : List (Branch × Tree)} {key : Branch} (room : s.Room cs arr key) :
    s.Cut cs arr :=
  ⟨room.len, room.sorted, room.hangs, room.wf, fun a _ => (room.fits a).congr rfl fun h => h,
    room.entries, room.suffix⟩

/-- All of the key of a leaf goes into the node above it. -/
theorem cut_leaf (h : s.Ends t K) (hwf : t.WF) {a : Addr} (copy : Addr) {k : Key} {v : Value}
    (htree : s.tree = .leaf a k v) (hkey : s.suffix = k) (hne : k = [] → s.path = []) :
    s.Cut (k.take s.prefixLen)
      [((k.drop s.prefixLen).head?, .leaf copy (k.drop s.prefixLen) v)] := by
  obtain ⟨-, hfits, hw⟩ := Path.wf_plug.mp (h.plug ▸ hwf)
  rw [htree] at hfits hw
  rw [Tree.wf_leaf] at hw
  have hlen : s.prefixLen = k.length := by
    have := h.prefixLen
    rwa [htree, Tree.label, hkey, getPrefix_self] at this
  rw [hlen, List.take_length, List.drop_length]
  refine ⟨hw.1, by simp [Branches.Sorted], ?_, ?_, ?_, ?_, ?_⟩
  . simp [Tree.Hangs, Tree.head, Tree.label, Tree.isLeaf]
  . simp only [List.mem_singleton, forall_eq, Tree.wf_leaf]
    refine ⟨by simp, fitsPage_mono hw.2 ?_⟩
    rw [LeafNode.sizeOf, LeafNode.sizeOf, List.length_nil]
    omega
  . intro a' arr
    cases hp : s.path with
    | nil => trivial
    | cons s' p' =>
      rw [hp] at hfits hne
      refine ⟨hfits.1, fun hnone => ?_⟩
      have hhead : k.head? = s'.branch := hfits.1
      rw [show s'.branch = none from hnone, List.head?_eq_none_iff] at hhead
      exact absurd (hne hhead) (List.cons_ne_nil _ _)
  . simp [htree, Tree.behind]
  . rw [(h.hit htree hkey).2, List.append_nil, hkey]

end Stop

namespace Merger

open Cursor

/--
The search for the root of the source has come to `s`, on the way `q` from the subtree that is
merged.
-/
structure Found (pol : MergePolicy) (h : Heap) (c : Cursor) (base : Path) (u src : Tree)
    (o : List Addr) (s : Stop) (q : Path) : Prop where
  holds : h.Holds (base.plug u) o
  owned : Owned h base
  source : Source pol base.str src
  fits : base.Fits src
  short : ShortTree (base.plug u)
  root : c.root = (base.plug u).addr
  stopped : c.Stopped s
  ends : s.Ends (base.plug u) (base.str ++ src.label)
  path : s.path = q ++ base
  plug : q.plug s.tree = u

namespace Found

variable {pol : MergePolicy} {h : Heap} {c : Cursor} {base : Path} {u src : Tree} {o : List Addr}
  {s : Stop} {q : Path}

theorem label (hf : Found pol h c base u src o s q) : src.label = q.str ++ s.suffix := by
  have hkey := hf.ends.key
  rw [hf.path, Path.str_append, List.append_assoc] at hkey
  exact List.append_cancel_left hkey

theorem pathStr (hf : Found pol h c base u src o s q) :
    s.path.str.length = base.str.length + q.str.length := by
  rw [hf.path, Path.str_append, List.length_append]

theorem suffix_length (hf : Found pol h c base u src o s q) :
    s.suffix.length = s.prefixLen + s.rest.length := by
  rw [Stop.suffix, List.length_append, List.length_take, Nat.min_eq_left hf.ends.le]

theorem length (hf : Found pol h c base u src o s q) :
    src.label.length = q.str.length + s.prefixLen + s.rest.length := by
  rw [hf.label, List.length_append, hf.suffix_length]
  omega

theorem keypos (hf : Found pol h c base u src o s q) :
    u16 s.path.str.length = s.path.str.length :=
  u16_eq ((hf.short.shallow hf.holds.wf).str_lt hf.ends.plug)

theorem splitPos (hf : Found pol h c base u src o s q) :
    u16 (s.path.str.length + s.prefixLen) = s.path.str.length + s.prefixLen := by
  apply u16_eq
  have h1 := hf.source.label_lt
  have h2 := hf.length
  have h3 := hf.pathStr
  rw [List.length_append] at h1
  omega

theorem srcSplitPos (hf : Found pol h c base u src o s q) :
    u16 (s.path.str.length + s.prefixLen - u16 base.str.length) = q.str.length + s.prefixLen := by
  have h1 := hf.source.label_lt
  have h2 := hf.length
  have h3 := hf.pathStr
  rw [List.length_append] at h1
  have hbase : u16 base.str.length = base.str.length := u16_eq (by omega)
  have hsub : s.path.str.length + s.prefixLen - base.str.length = q.str.length + s.prefixLen := by
    omega
  rw [hbase, hsub]
  exact u16_eq (by omega)

theorem srcSplitPos_le (hf : Found pol h c base u src o s q) :
    q.str.length + s.prefixLen ≤ 255 := by
  have h1 := Tree.length_label_le hf.source.wf
  have h2 := hf.length
  omega

theorem rest_le (hf : Found pol h c base u src o s q) : s.rest.length ≤ 255 := by
  have h1 := Tree.length_label_le hf.source.wf
  have h2 := hf.length
  omega

theorem take_length (hf : Found pol h c base u src o s q) :
    (s.tree.label.take s.prefixLen).length = s.prefixLen := by
  rw [List.length_take, Nat.min_eq_left hf.ends.le]

theorem drop_key (hf : Found pol h c base u src o s q) :
    (base.str ++ src.label).drop s.path.str.length = s.suffix := by
  rw [hf.ends.key, List.drop_left]

theorem rest (hf : Found pol h c base u src o s q) :
    (base.str ++ src.label).drop (s.path.str.length + s.prefixLen) = s.rest := by
  rw [← List.drop_drop, hf.drop_key]
  exact Stop.suffix_drop hf.ends

theorem compressed (hf : Found pol h c base u src o s q) :
    ((base.str ++ src.label).drop s.path.str.length).take s.prefixLen =
      s.tree.label.take s.prefixLen := by
  rw [hf.drop_key, Stop.suffix]
  have htake : (s.tree.label.take s.prefixLen ++ s.rest).take
      (s.tree.label.take s.prefixLen).length = s.tree.label.take s.prefixLen := List.take_left
  rwa [hf.take_length] at htake

theorem suffix (hf : Found pol h c base u src o s q) :
    src.label.drop (q.str.length + s.prefixLen) = s.rest := by
  rw [hf.label, ← List.drop_drop, List.drop_left]
  exact Stop.suffix_drop hf.ends

theorem along (hf : Found pol h c base u src o s q) : c.Along (q ++ base) := by
  rw [← hf.path]
  exact hf.stopped.along

theorem pathWf (hf : Found pol h c base u src o s q) : s.path.WF := by
  have hwf := hf.holds.wf
  rw [← hf.ends.plug] at hwf
  exact (Path.wf_plug.mp hwf).1

theorem uwf (hf : Found pol h c base u src o s q) : u.WF := (Path.wf_plug.mp hf.holds.wf).2.2

end Found

theorem Done.of_spares {pol : MergePolicy} {h h1 h' : Heap} {base : Path} {u src u' : Tree}
    {o : List Addr} {c' : Cursor} (hd : Done pol h1 base u src o h' c' u')
    (hsp : h.Spares (Clean pol base.str u src) o h1) : Done pol h base u src o h' c' u' :=
  ⟨hd.holds, hd.merges, hd.root, hd.along, hsp.trans hd.spares⟩

section Graft

variable {pol : MergePolicy} {h : Heap} {c : Cursor} {base : Path} {u src : Tree} {o : List Addr}
  {s : Stop} {q : Path}

/-- The source hangs under a branch that the node had no key below. -/
theorem Found.grafted (hf : Found pol h c base u src o s q) {cs : Key}
    {arr : List (Branch × Tree)} {trie : Addr} {y : Tree} {q' : Path} {h' : Heap} {c' : Cursor}
    (room : s.Room cs arr s.rest.head?) (ht : q.Twin q')
    (hholds : h'.Holds ((q' ++ base).plug ((Stop.into trie cs arr s.rest.head?).tree y)) o)
    (hy : ∀ k, y.get k = (src.get (q.str ++ (cs ++ k))).map pol.migrated)
    (hroot : c'.root = ((q' ++ base).plug ((Stop.into trie cs arr s.rest.head?).tree y)).addr)
    (halong : c'.Along (q' ++ base)) (hsp : h.Spares (Clean pol base.str u src) o h') :
    Done pol h base u src o h' c' (q'.plug ((Stop.into trie cs arr s.rest.head?).tree y)) := by
  rw [Path.plug_append] at hholds hroot
  have hwf' := (Path.wf_plug.mp hholds.wf).2.2
  have hnode := (Path.wf_plug.mp hwf').2.2
  have hhangs : Tree.Hangs (s.rest.head?, y) :=
    (Tree.wf_node.mp hnode).2.2.2.1 (s.rest.head?, y) (by simp [Stop.into])
  refine ⟨hholds, ?_, hroot, halong.drop.tail, hsp⟩
  rw [← hf.plug]
  refine merges_plug_node (c := cs) (hf.plug ▸ hf.uwf) hwf' ht room.entries ?_ fun k => ?_
  . rw [hf.label, room.suffix, ← List.append_assoc]
    exact List.prefix_append _ _
  . have hins := Tree.branchGet_insert room.sorted room.hangs room.unset hhangs k
    rw [Branches.insert] at hins
    rw [show Tree.branchGet ((Stop.into trie cs arr s.rest.head?).left ++
      ((Stop.into trie cs arr s.rest.head?).branch, y) ::
        (Stop.into trie cs arr s.rest.head?).right) k = _ from hins]
    split
    next hk =>
      rw [hy, Tree.branchGet_of_not_isset room.hangs (hk ▸ room.unset)]
      cases hget : src.get (q.str ++ (cs ++ k)) with
      | none => rfl
      | some v =>
        rw [MergePolicy.merged_add (hf.source.mayAddLeaf hget)]
        rfl
    next hk =>
      have hnone : src.get (q.str ++ (cs ++ k)) = none := by
        have := hy k
        rw [Tree.get_of_head_ne hhangs hk] at this
        exact Option.map_eq_none_iff.mp this.symm
      rw [hnone, OrdMap.merged_none]

/-- The new leaf has the key and the value of the source. -/
theorem leaf_get {a b : Addr} {k rest cs : Key} {v : Value} (hk : k = q.str ++ (cs ++ rest))
    (k' : Key) : (Tree.leaf a rest (pol.migrated v)).get k' =
      ((Tree.leaf b k v).get (q.str ++ (cs ++ k'))).map pol.migrated := by
  rw [Tree.get_leaf, Tree.get_leaf, hk]
  simp only [List.append_cancel_left_eq]
  split <;> rfl

/-- The new node has the entries of the source. -/
theorem node_get {a b : Addr} {k rest cs : Key} {sarr copies : List (Branch × Tree)} {h h' : Heap}
    {l : List Addr} (hk : k = q.str ++ (cs ++ rest)) (hsrc : Source pol base.str (.node b k sarr))
    (hc : CopiesBranches pol (base.str ++ k) sarr h l h' copies) (k' : Key) :
    (Tree.node a rest copies).get k' =
      ((Tree.node b k sarr).get (q.str ++ (cs ++ k'))).map pol.migrated := by
  by_cases hpre : rest <+: k'
  . obtain ⟨z, rfl⟩ := hpre
    have hassoc : q.str ++ (cs ++ (rest ++ z)) = k ++ z := by
      rw [hk]
      simp only [List.append_assoc]
    rw [hassoc, Tree.get_node_append, Tree.get_node_append,
      copies_branchGet hsrc (fun x hx => hx) hc]
  . have hpre' : ¬ k <+: q.str ++ (cs ++ k') := by
      rintro ⟨z, hz⟩
      rw [hk] at hz
      simp only [List.append_assoc, List.append_cancel_left_eq] at hz
      exact hpre ⟨z, hz⟩
    rw [Tree.get_of_no_label (t := .node a rest copies) hpre,
      Tree.get_of_no_label (t := .node b k sarr) hpre']
    rfl

theorem copies_ne_nil {a : Addr} {k : Key} {sarr copies : List (Branch × Tree)} {h h' : Heap}
    {l : List Addr} {key : Key} (hsrc : Source pol key (.node a k sarr))
    (hc : CopiesBranches pol (key ++ k) sarr h l h' copies) : copies ≠ [] := by
  rintro rfl
  obtain ⟨x, sarr', rfl⟩ := List.exists_cons_of_ne_nil (Tree.wf_node.mp hsrc.wf).2.1
  have hnil := hc.entries.symm
  rw [Tree.branchEntries_nil, List.flatMap_cons, List.append_eq_nil_iff] at hnil
  exact (hsrc.child (x := x) (by simp)).copied_ne_nil hnil.1

end Graft

section Resolve

variable {pol : MergePolicy} {merge : Merge} {h h1 : Heap} {c : Cursor} {base : Path}
  {u src : Tree} {o : List Addr} {s : Stop} {q : Path} {f : Transition} {key1 : Branch} {y1 : Tree}

/-- The page of a leaf of the source, whatever is left of its key. -/
theorem fillLeaf_allocates {h : Heap} {l : List Addr} {k : Key} {v : Value} {a : Addr} (rest : Key)
    (hu : h.Uses l) (hfits : pol.Fits (.leaf a k v)) (hrest : rest.length ≤ 255) :
    ∃ leaf h', fillLeaf pol h rest v = .ok (leaf, h') ∧ h.Allocates l leaf h' ∧
      Tree.Stored h'.rd (.leaf leaf rest (pol.migrated v)) ∧
      (Tree.leaf leaf rest (pol.migrated v)).WF := by
  have hbig : fitsPage (LeafNode.sizeOf 255 (pol.migrated v).bytes.length) = true :=
    hfits (k, v) (by simp)
  have hsize : fitsPage (LeafNode.sizeOf rest.length (pol.migrated v).bytes.length) = true := by
    refine fitsPage_mono hbig ?_
    rw [LeafNode.sizeOf, LeafNode.sizeOf]
    omega
  obtain ⟨leaf, h', heq, ha, hrd⟩ := Heap.allocNode_allocates hu hsize
    (.leaf ⟨rest, (pol.migrated v).big, (pol.migrated v).bytes⟩)
  exact ⟨leaf, h', heq, ha, Tree.stored_leaf.mpr hrd, Tree.wf_leaf.mpr ⟨hrest, hsize⟩⟩

/-- The step to the branch of the source. -/
theorem Found.wf_into (hf : Found pol h c base u src o s q) {cs : Key} {arr : List (Branch × Tree)}
    (room : s.Room cs arr s.rest.head?) {q' : Path} (ht : q.Twin q') (trie : Addr) :
    Path.WF (Stop.into trie cs arr s.rest.head? :: (q' ++ base)) := by
  refine room.wf_into ?_ hf.pathWf trie
  rw [hf.path]
  exact ht.onto base

/-- A leaf of the source beside what is left of the node. -/
theorem resolve_leaf {a : Addr} {k : Key} {v : Value}
    (hf : Found pol h c base u (.leaf a k v) o s q)
    (ho : Opened h1 c.root (q ++ base) [(key1, y1)] o)
    (hsp : h.Spares (Clean pol base.str u (.leaf a k v)) o h1)
    (room : s.Room (s.tree.label.take s.prefixLen) [(key1, y1)] s.rest.head?)
    (hpos : f.keypos = s.path.str.length) (hpre : f.prefixLen = s.prefixLen) :
    ∃ h' c' u', resolveDivergence pol merge h1 c f (frames (q ++ base)) (.leaf a k v)
        (u16 base.str.length) key1 y1.addr (base.str ++ k) = .ok (h', c') ∧
      Done pol h base u (.leaf a k v) o h' c' u' := by
  have hadd : pol.mayAddLeaf (base.str ++ k) v = true := hf.source.leaves (k, v) (by simp)
  have hcs : ((base.str ++ k).drop f.keypos).take f.prefixLen =
      s.tree.label.take s.prefixLen := by
    rw [hpos, hpre]
    exact hf.compressed
  obtain ⟨trie, h2, c2, q', hsplit, ht, hole, hroot, halong, hsp2⟩ := splitNode_hollow
    s.rest.head? ho (fun s hs => hsp.owning _ (hf.owned s hs)) hf.along
    hf.srcSplitPos_le hcs room.unset
  obtain ⟨leaf, h3, hfill, ha, hst, hwf⟩ := fillLeaf_allocates s.rest hole.uses
    hf.source.fits hf.rest_le
  obtain ⟨hholds, hsp4⟩ := Hollow.fill (y := .leaf leaf s.rest (pol.migrated v))
    (hole.adds ha.adds) hst (hf.wf_into room ht trie) ⟨rfl, fun _ => rfl⟩ hwf
  have hsp3 : h2.Spares True o h3 := ha.adds.spares fun b hb => by simp [hb]
  refine ⟨_, c2, _, ?_, hf.grafted room ht hholds (leaf_get ?_) ?_ halong ?_⟩
  . have hdrop : k.drop (q.str.length + s.prefixLen) = s.rest := hf.suffix
    have hrest : (base.str ++ k).drop (s.path.str.length + s.prefixLen) = s.rest := hf.rest
    simp only [resolveDivergence, hpos, hpre, hf.splitPos, hf.srcSplitPos, hrest, hadd, ↓reduceIte,
      hsplit, hdrop, hfill, bind, Except.bind]
    rw [index2_eq _ _ y1]
    rfl
  . rw [← room.suffix]
    exact hf.label
  . rw [hroot, Path.addr_plug]
    rfl
  . exact hsp.trans (((hsp2.trans hsp3).trans hsp4).mono (fun _ => trivial) fun b hb => hb)

/-- A node of the source whose key goes on beside what is left of the node. -/
theorem resolve_suffix {a : Addr} {k : Key} {sarr : List (Branch × Tree)}
    (hf : Found pol h c base u (.node a k sarr) o s q)
    (ho : Opened h1 c.root (q ++ base) [(key1, y1)] o)
    (hsp : h.Spares (Clean pol base.str u (.node a k sarr)) o h1)
    (room : s.Room (s.tree.label.take s.prefixLen) [(key1, y1)] s.rest.head?)
    (hpos : f.keypos = s.path.str.length) (hpre : f.prefixLen = s.prefixLen)
    (hne : s.rest ≠ []) :
    ∃ h' c' u', resolveDivergence pol merge h1 c f (frames (q ++ base)) (.node a k sarr)
        (u16 base.str.length) key1 y1.addr (base.str ++ k) = .ok (h', c') ∧
      Done pol h base u (.node a k sarr) o h' c' u' := by
  obtain ⟨-, -, hssort, hsh, hsw⟩ := Tree.wf_node.mp hf.source.wf
  have hcs : ((base.str ++ k).drop f.keypos).take f.prefixLen =
      s.tree.label.take s.prefixLen := by
    rw [hpos, hpre]
    exact hf.compressed
  obtain ⟨copies, h2, hcopy, hc⟩ := copyBranches_copies pol (base.str ++ k) sarr
    ho.uses hsh fun x hx h l hu =>
      copy_copies hu (hsw x hx) (hf.source.child hx).complete (hf.source.child hx).fits
  have hnil := copies_ne_nil hf.source hc
  have hcsort := hc.sorted hssort
  obtain ⟨suffix, h3, halloc, ha, hrd⟩ := Heap.allocNode_allocates hc.adds.uses
    (n := TrieNode.sizeMax s.rest.length (Branches.mapSnd Tree.addr copies).length)
    (fitsPage_iff.mpr ((TrieNode.sizeMax_le hf.rest_le
      (by rw [Branches.length_mapSnd]; exact Branches.length_le hcsort)).trans (by decide)))
    (.trie ⟨s.rest, Branches.mapSnd Tree.addr copies⟩)
  let y := Tree.node suffix s.rest copies
  have hadds : h1.Adds (Path.addrs (q ++ base) ++ (Tree.branchAddrs [(key1, y1)] ++ o)) y.addrs
      h3 := by
    rw [Tree.addrs_node]
    exact hc.adds.trans ha.adds
  have hst : Tree.Stored h3.rd y := by
    refine Tree.stored_node.mpr ⟨hrd, fun x hx => ha.adds.stored (hc.stored x hx) fun b hb => ?_⟩
    exact List.mem_append_left _ (Tree.addrs_subset hx b hb)
  have hwf : y.WF := Tree.wf_node.mpr ⟨hf.rest_le, hnil, hcsort, hc.hangs, hc.wf⟩
  have hhead : s.rest.head? ≠ none := by
    rw [ne_eq, List.head?_eq_none_iff]
    exact hne
  have hsp3 : h1.Spares True o h3 := hadds.spares fun b hb => by simp [hb]
  obtain ⟨trie, h4, c4, q', hsplit, ht, hole, hroot, halong, hsp4⟩ := splitNode_hollow
    s.rest.head? (ho.adds hadds)
    (fun s hs => hsp3.owning _ (hsp.owning _ (hf.owned s hs))) hf.along hf.srcSplitPos_le hcs
    room.unset
  have hst4 : Tree.Stored h4.rd y :=
    hst.congr fun b hb => by rw [Heap.rd, hsp4.page b (List.mem_append_left _ hb)]; rfl
  obtain ⟨hholds, hsp5⟩ := Hollow.fill hole hst4 (hf.wf_into room ht trie)
    ⟨rfl, fun hnone => absurd hnone hhead⟩ hwf
  refine ⟨_, c4, _, ?_, hf.grafted room ht hholds (node_get ?_ hf.source hc) ?_ halong ?_⟩
  . have hdrop : k.drop (q.str.length + s.prefixLen) = s.rest := hf.suffix
    have hrest : (base.str ++ k).drop (s.path.str.length + s.prefixLen) = s.rest := hf.rest
    have hlt : s.path.str.length + s.prefixLen < (base.str ++ k).length := by
      by_contra hge
      rw [List.drop_eq_nil_of_le (by omega)] at hrest
      exact hne hrest.symm
    have hnil' : Branches.mapSnd Tree.addr copies ≠ [] := by
      rw [ne_eq, ← List.length_eq_zero_iff, Branches.length_mapSnd, List.length_eq_zero_iff]
      exact hnil
    simp only [resolveDivergence, hpos, hpre, hf.splitPos, hf.srcSplitPos, hrest, hlt,
      hf.source.tries, ↓reduceIte, hcopy, hnil', hdrop, halloc, hsplit, bind, Except.bind]
    rw [index2_eq _ _ y1]
    rfl
  . rw [← room.suffix]
    exact hf.label
  . rw [hroot, Path.addr_plug]
    rfl
  . have hsp4' : h3.Spares True o h4 := hsp4.mono id fun b hb => by simp [hb]
    exact hsp.trans (((hsp3.trans hsp4').trans hsp5).mono (fun _ => trivial) fun b hb => hb)

/-- A node of the source whose key ends where the node of the destination is split. -/
theorem resolve_join {a : Addr} {k : Key} {sarr : List (Branch × Tree)}
    (hf : Found pol h c base u (.node a k sarr) o s q)
    (ho : Opened h1 c.root (q ++ base) [(key1, y1)] o)
    (hsp : h.Spares (Clean pol base.str u (.node a k sarr)) o h1)
    (cut : s.Cut (s.tree.label.take s.prefixLen) [(key1, y1)])
    (hpos : f.keypos = s.path.str.length) (hpre : f.prefixLen = s.prefixLen)
    (hrest : s.rest = []) (ih : ∀ x ∈ sarr, MergesAt pol merge x.2) :
    ∃ h' c' u', resolveDivergence pol merge h1 c f (frames (q ++ base)) (.node a k sarr)
        (u16 base.str.length) key1 y1.addr (base.str ++ k) = .ok (h', c') ∧
      Done pol h base u (.node a k sarr) o h' c' u' := by
  have hcs : ((base.str ++ k).drop f.keypos).take f.prefixLen =
      s.tree.label.take s.prefixLen := by
    rw [hpos, hpre]
    exact hf.compressed
  have hlab : k = q.str ++ s.tree.label.take s.prefixLen := by
    have hlabel := hf.label
    rw [cut.suffix, hrest, List.append_nil] at hlabel
    exact hlabel
  have hfits : ∀ a arr, Path.Fits (q ++ base) (.node a (s.tree.label.take s.prefixLen) arr) := by
    rw [← hf.path]
    exact cut.fits
  obtain ⟨trie, h2, h3, c3, q', copies, hjoin, hupdate, j⟩ := join_joins (f := f) ho
    (fun s hs => hsp.owning _ (hf.owned s hs)) hf.source hlab cut.sorted cut.hangs cut.wf
    (by simp) cut.len (hf.path ▸ hf.pathWf) hfits hf.along
  have hkeypos : f.keypos = (Path.str (q ++ base)).length := by rw [hpos, hf.path]
  obtain ⟨h', c', arr', hshared, hdone⟩ := j.done hf.source ih hf.plug hf.holds.wf hf.short
    cut.entries hlab cut.sorted cut.hangs hkeypos
  refine ⟨h', c', _, ?_, hdone.of_spares hsp⟩
  have hend : ¬ s.path.str.length + s.prefixLen < (base.str ++ k).length := by
    have hdrop : (base.str ++ k).drop (s.path.str.length + s.prefixLen) = s.rest := hf.rest
    rw [hrest, List.drop_eq_nil_iff] at hdrop
    omega
  have hlinks := j.links cut.sorted
  rw [sharedBranches_eq _ hf.source] at hshared
  have hone : (sarr.filter fun x => Branches.isset [(key1, y1)] x.1).length ≤ 1 := by
    refine Branches.length_le_one (b := key1)
      ((Tree.wf_node.mp hf.source.wf).2.2.1.filter _) fun x hx => ?_
    have := (List.mem_filter.mp hx).2
    simp only [Branches.isset, List.any_cons, List.any_nil, Bool.or_false, beq_iff_eq] at this
    exact this.symm
  have heq := sharedBranches_eq [(key1, y1)] hf.source
  rw [Branches.mapSnd_cons, Branches.mapSnd_nil] at heq hjoin
  simp only [resolveDivergence, hpos, hpre, hf.splitPos, hend, ↓reduceIte] at hcs ⊢
  simp only [hcs, hjoin, hupdate, bind, Except.bind, heq]
  cases hs : sarr.filter fun x => Branches.isset [(key1, y1)] x.1 with
  | nil =>
    rw [hs] at hshared
    exact hshared
  | cons x rest =>
    rw [hs] at hshared hone hlinks
    have hnil : rest = [] := by
      rw [List.length_cons] at hone
      exact List.length_eq_zero_iff.mp (by omega)
    subst hnil
    rw [mergeShared_cons j.holds hlinks] at hshared
    have hok : merge h3 (c3.trim (frames (q ++ base)).length f.keypos) (base.str ++ k) x.2 =
        .ok (h', c') := by
      cases hm : merge h3 (c3.trim (frames (q ++ base)).length f.keypos) (base.str ++ k) x.2 with
      | error e =>
        rw [hm] at hshared
        exact hshared
      | ok r =>
        rw [hm] at hshared
        exact hshared
    rw [← hpos]
    exact hok

/-- The source is merged with what is left of the node. -/
theorem resolveDivergence_merges (hf : Found pol h c base u src o s q)
    (ho : Opened h1 c.root (q ++ base) [(key1, y1)] o)
    (hsp : h.Spares (Clean pol base.str u src) o h1)
    (cut : s.Cut (s.tree.label.take s.prefixLen) [(key1, y1)])
    (hroom : src.isLeaf = true ∨ s.rest ≠ [] →
      s.Room (s.tree.label.take s.prefixLen) [(key1, y1)] s.rest.head?)
    (hpos : f.keypos = s.path.str.length) (hpre : f.prefixLen = s.prefixLen)
    (ih : ∀ a k sarr, src = .node a k sarr → ∀ x ∈ sarr, MergesAt pol merge x.2) :
    ∃ h' c' u', resolveDivergence pol merge h1 c f (frames (q ++ base)) src
        (u16 base.str.length) key1 y1.addr (base.str ++ src.label) = .ok (h', c') ∧
      Done pol h base u src o h' c' u' := by
  cases src with
  | leaf a k v => exact resolve_leaf hf ho hsp (hroom (Or.inl rfl)) hpos hpre
  | node a k sarr =>
    by_cases hrest : s.rest = []
    . exact resolve_join hf ho hsp cut hpos hpre hrest (ih a k sarr rfl)
    . exact resolve_suffix hf ho hsp (hroom (Or.inr hrest)) hpos hpre hrest

end Resolve

end Merger
end Leaves
