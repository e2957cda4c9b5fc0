import Leaves.Merge.Merges
import Leaves.Merge.Standing

/-!
The heap while a node of the destination is replaced: what is left of the node, the new node with a
branch that is still open, and the trie when the branch is filled.
-/

namespace Leaves

/--
What a step leaves alone: the pages `o`, the pages of this transaction stay its own, and if it is
`clean` the pages of earlier transactions stay as they are.
-/
structure Heap.Spares (clean : Prop) (h : Heap) (o : List Addr) (h' : Heap) : Prop where
  keeps : clean → h.Keeps h'
  owning : h.Owning h'
  page : ∀ b ∈ o, h'.page b = h.page b

namespace Heap.Spares

variable {clean : Prop} {h h1 h2 : Heap} {o : List Addr}

theorem refl (h : Heap) (o : List Addr) : h.Spares clean o h :=
  ⟨fun _ => .refl h, .refl h, fun _ _ => rfl⟩

theorem trans (h1' : h.Spares clean o h1) (h2' : h1.Spares clean o h2) : h.Spares clean o h2 :=
  ⟨fun hc => (h1'.keeps hc).trans (h2'.keeps hc), h1'.owning.trans h2'.owning,
    fun b hb => (h2'.page b hb).trans (h1'.page b hb)⟩

theorem mono {clean' : Prop} {o' : List Addr} (hs : h.Spares clean o h1) (hc : clean' → clean)
    (ho : ∀ b ∈ o', b ∈ o) : h.Spares clean' o' h1 :=
  ⟨fun hc' => hs.keeps (hc hc'), hs.owning, fun b hb => hs.page b (ho b hb)⟩

end Heap.Spares

theorem Heap.Adds.spares {clean : Prop} {h h' : Heap} {l l' o : List Addr} (ha : h.Adds l l' h')
    (ho : ∀ b ∈ o, b ∈ l) : h.Spares clean o h' :=
  ⟨fun _ => ha.keeps, ha.owning, fun b hb => ha.page b (ho b hb)⟩

theorem Heap.Uses.free_spares {clean : Prop} {h : Heap} {l : List Addr} (hu : h.Uses l) (a : Addr)
    (o : List Addr) : h.Spares clean o (h.free a) :=
  ⟨fun _ => Heap.free_keeps hu.recycle a, h.free_owning a, fun _ _ => rfl⟩

namespace Merger

open Cursor

/--
The node at the end of the path is not part of the trie any more, but what is in `arr` is still
stored.
-/
structure Opened (h : Heap) (root : Addr) (p : Path) (arr : List (Branch × Tree)) (o : List Addr) :
    Prop where
  uses : h.Uses (p.addrs ++ (Tree.branchAddrs arr ++ o))
  path : ∃ old, p.Stored h.rd old ∧ root = p.top old
  branches : ∀ x ∈ arr, Tree.Stored h.rd x.2

section Opened

variable {h h' : Heap} {root : Addr} {p : Path} {arr : List (Branch × Tree)} {l o : List Addr}

theorem Opened.adds (ho : Opened h root p arr o)
    (ha : h.Adds (p.addrs ++ (Tree.branchAddrs arr ++ o)) l h') :
    Opened h' root p arr (l ++ o) := by
  obtain ⟨old, hst, hroot⟩ := ho.path
  have hrd : ∀ b ∈ p.addrs ++ (Tree.branchAddrs arr ++ o), h'.rd b = h.rd b := by
    intro b hb
    rw [Heap.rd, ha.page b hb]
    rfl
  refine ⟨?_, ⟨old, ?_, hroot⟩, ?_⟩
  . refine ha.uses.perm (List.perm_iff_count.mpr fun x => ?_)
    simp only [List.count_append]
    omega
  . exact hst.congr fun b hb => hrd b (List.mem_append_left _ hb)
  . exact Tree.stored_congr_branches ho.branches fun b hb => hrd b (by simp [hb])

theorem Opened.free {a : Addr} (ho : Opened h root p arr (a :: o)) :
    Opened (h.free a) root p arr o := by
  refine ⟨?_, ho.path, ho.branches⟩
  refine Heap.free_uses (ho.uses.perm (List.perm_iff_count.mpr fun x => ?_))
  simp only [List.count_append, List.count_cons]
  omega

/-- The node itself is one of the other pages as long as it is not freed. -/
theorem opened_node {t : Tree} {a : Addr} {c : Key} (hh : h.Holds t o)
    (hplug : p.plug (.node a c arr) = t) : Opened h t.addr p arr (a :: o) := by
  subst hplug
  obtain ⟨hst, hnode⟩ := Path.stored_plug.mp hh.stored
  refine ⟨?_, ⟨a, hst, Path.addr_plug _ _⟩, (Tree.stored_node.mp hnode).2⟩
  have hu := hh.uses_plug
  rw [Tree.addrs_node] at hu
  refine hu.perm (List.perm_iff_count.mpr fun x => ?_)
  simp only [List.count_append, List.count_cons]
  omega

theorem opened_leaf {t : Tree} {a : Addr} {k : Key} {v : Value} (hh : h.Holds t o)
    (hplug : p.plug (.leaf a k v) = t) : Opened h t.addr p [] (a :: o) := by
  subst hplug
  obtain ⟨hst, -⟩ := Path.stored_plug.mp hh.stored
  exact ⟨hh.uses_plug, ⟨a, hst, Path.addr_plug _ _⟩, by simp⟩

/-- A subtree whose pages are not used by others hangs under a branch of what is left. -/
theorem Opened.single {y : Tree} {b : Branch} (ho : Opened h root p [] (y.addrs ++ o))
    (hst : Tree.Stored h.rd y) : Opened h root p [(b, y)] o := by
  refine ⟨?_, ho.path, by simpa using hst⟩
  have hu := ho.uses
  simpa using hu

end Opened

/-- The node of the innermost step has a branch without a link, it belongs to the transaction. -/
structure Hollow (h : Heap) (s : Step) (p : Path) (o : List Addr) : Prop where
  uses : h.Uses (Path.addrs (s :: p) ++ o)
  stored : Path.Stored h.rd (s :: p) 0
  owned : h.needsCow s.addr = false

theorem Hollow.adds {h h' : Heap} {s : Step} {p : Path} {l o : List Addr} (hole : Hollow h s p o)
    (ha : h.Adds (Path.addrs (s :: p) ++ o) l h') : Hollow h' s p (l ++ o) := by
  refine ⟨?_, ?_, ha.owning _ hole.owned⟩
  . refine ha.uses.perm (List.perm_iff_count.mpr fun x => ?_)
    simp only [List.count_append]
    omega
  . refine hole.stored.congr fun b hb => ?_
    rw [Heap.rd, ha.page b (List.mem_append_left _ hb)]
    rfl

/-- Writing the link to a stored subtree. -/
theorem Hollow.fill {h : Heap} {s : Step} {p : Path} {y : Tree} {o : List Addr}
    (hole : Hollow h s p (y.addrs ++ o)) (hst : Tree.Stored h.rd y) (hwf : Path.WF (s :: p))
    (hhangs : Tree.Hangs (s.branch, y)) (hwf' : y.WF) :
    (h.setLink s.addr s.left.length y.addr).Holds (p.plug (s.tree y)) o ∧
      h.Spares True o (h.setLink s.addr s.left.length y.addr) := by
  obtain ⟨h1, h2, h3, h4⟩ := setLink_stored (a := y.addr) hole.uses hole.stored hole.owned
  have hnd := hole.uses.nodup
  rw [Path.addrs_cons, List.cons_append, List.cons_append, List.nodup_cons] at hnd
  have hne : ∀ b ∈ y.addrs ++ o, b ≠ s.addr := by
    rintro b hb rfl
    exact hnd.1 (List.mem_append_right _ hb)
  refine ⟨?_, fun _ => h3, Heap.setLink_owning _ _ _ _, fun b hb => h4 b (hne b (by simp [hb]))⟩
  rw [← Path.plug_cons]
  refine .of_plug h2 h1 ?_ (Path.wf_plug.mpr ⟨hwf, hhangs, hwf'⟩)
  exact hst.congr fun b hb => by rw [Heap.rd, h4 b (hne b (by simp [hb]))]; rfl

section Update

variable {h : Heap} {c : Cursor} {f : Transition} {q base : Path} {u : Tree} {o : List Addr}
  {old : Addr}

theorem along_relinked {q' : Path} (h : c.Along (q ++ base)) (hq : q.Twin q') (root : Addr)
    (f : Transition) :
    ({ c with root, stack := f :: frames (q' ++ base) } : Cursor).Along (q' ++ base) := by
  have ht := hq.onto base
  refine ⟨⟨[f], rfl⟩, ?_, known_twin ht h.known⟩
  rw [ht.str]
  exact h.currentKey

/-- `update_offset` with a subtree that takes the place at the end of the path. -/
theorem updateOffset_holds (hu : h.Uses (Path.addrs (q ++ base) ++ (u.addrs ++ o)))
    (hst : Path.Stored h.rd (q ++ base) old) (hst' : Tree.Stored h.rd u)
    (hwf : Path.WF (q ++ base)) (hfits : Path.Fits (q ++ base) u) (hwf' : u.WF)
    (howned : Owned h base) (hroot : c.root = Path.top (q ++ base) old) :
    ∃ h' q', c.updateOffset h f (frames (q ++ base)) u.addr = .ok (h',
        { c with
          root := ((q' ++ base).plug u).addr
          stack := { f with node := u.addr } :: frames (q' ++ base) }) ∧
      q.Twin q' ∧ h'.Holds ((q' ++ base).plug u) o ∧ h.Spares True o h' := by
  obtain ⟨h', q', heq, hr⟩ := relink_below (a := u.addr) hu hst howned hroot
  have ht := hr.twin.onto base
  refine ⟨h', q', ?_, hr.twin, .of_plug hr.uses hr.stored ?_ ?_, fun _ => hr.keeps, hr.owning, ?_⟩
  . rw [Path.addr_plug]
    simp only [updateOffset, heq, bind, Except.bind]
  . exact hst'.congr fun b hb => by rw [Heap.rd, hr.page b (List.mem_append_left _ hb)]; rfl
  . exact Path.wf_plug.mpr ⟨ht.wf.mpr hwf, (ht.fits u).mpr hfits, hwf'⟩
  . exact fun b hb => hr.page b (List.mem_append_right _ hb)

end Update

section New

variable {h : Heap} {c : Cursor} {f : Transition} {q base : Path} {arr : List (Branch × Tree)}
  {cs key : Key} {key2 : Branch} {o : List Addr} {root : Addr}

/-- The pages of the branches are those in front of a missing branch and those behind it. -/
theorem branchAddrs_into (hsort : Branches.Sorted arr) (hset : Branches.isset arr key2 = false) :
    Tree.branchAddrs arr = Tree.branchAddrs (Branches.below arr key2) ++
      Tree.branchAddrs (Branches.above arr key2) := by
  rw [← Tree.branchAddrs_append, Branches.below_append_above hsort hset]

/-- A page with the branches `arr` and the open branch `key2`. -/
theorem hollow_into {trie : Addr} {p : Path}
    (hu : h.Uses (p.addrs ++ (Tree.branchAddrs arr ++ (trie :: o)))) (hst : p.Stored h.rd trie)
    (hchild : ∀ x ∈ arr, Tree.Stored h.rd x.2)
    (hrd : h.rd trie = .trie (TrieNode.createAdd ⟨cs, Branches.mapSnd Tree.addr arr⟩ key2))
    (howned : h.needsCow trie = false) (hsort : Branches.Sorted arr)
    (hset : Branches.isset arr key2 = false) : Hollow h (Stop.into trie cs arr key2) p o := by
  refine ⟨?_, ⟨?_, ?_, ?_, hst⟩, howned⟩
  . refine hu.perm (List.perm_iff_count.mpr fun x => ?_)
    simp only [Path.addrs_cons, branchAddrs_into hsort hset, List.count_append, List.count_cons,
      Stop.into]
    omega
  . rw [Stop.into, hrd]
    simp [TrieNode.createAdd, Branches.insert]
  . exact fun x hx => hchild x (Branches.mem_below.mp hx).1
  . exact fun x hx => hchild x (Branches.mem_above.mp hx).1

/-- The node `split_node` puts in the place of the old one has room for the source. -/
theorem splitNode_hollow {key1 : Branch} {y1 : Tree} {srcSplitPos : Nat} (key2 : Branch)
    (ho : Opened h c.root (q ++ base) [(key1, y1)] o) (howned : Owned h base)
    (halong : c.Along (q ++ base)) (hlen : srcSplitPos ≤ 255)
    (hcs : (key.drop f.keypos).take f.prefixLen = cs)
    (hset : Branches.isset [(key1, y1)] key2 = false) :
    ∃ trie h' c' q',
      splitNode h c f (frames (q ++ base)) srcSplitPos key1 y1.addr key key2 =
        .ok (trie, h', c') ∧
      q.Twin q' ∧ Hollow h' (Stop.into trie cs [(key1, y1)] key2) (q' ++ base) o ∧
      c'.root = Path.top (q' ++ base) trie ∧ c'.Along (q' ++ base) ∧ h.Spares True o h' := by
  obtain ⟨trie, h1, halloc, ha, hrd⟩ := Heap.allocNode_allocates ho.uses
    (n := TrieNode.size2 srcSplitPos key1 key2)
    (fitsPage_iff.mpr ((TrieNode.size2_le hlen _ _).trans (by decide)))
    (.trie (TrieNode.create2 cs key1 y1.addr key2))
  have ho1 := ho.adds ha.adds
  obtain ⟨old, hst, hroot⟩ := ho1.path
  obtain ⟨h2, q', heq, hr⟩ := relink_below (a := trie) ho1.uses hst
    (fun s hs => ha.owning _ (howned s hs)) hroot
  have htrie : h2.page trie = h1.page trie := hr.page trie (by simp)
  refine ⟨trie, h2, _, q', ?_, hr.twin, hollow_into hr.uses hr.stored ?_ ?_ ?_
    (by simp [Branches.Sorted]) hset, rfl, along_relinked halong hr.twin _
      { f with node := trie, linkIdx := TrieNode.index2 key1 key2 }, ?_⟩
  . simp only [splitNode, hcs, halloc, updateOffset, heq, bind, Except.bind]
  . exact Tree.stored_congr_branches ho1.branches fun b hb => by
      rw [Heap.rd, hr.page b (List.mem_append_left _ hb)]
      rfl
  . rw [Heap.rd, htrie]
    exact hrd
  . rw [Heap.needsCow, htrie, hr.keeps.txnId]
    exact ha.owned
  . have h1' : h.Spares True o h1 := ha.adds.spares fun b hb => by simp [hb]
    exact h1'.trans ⟨fun _ => hr.keeps, hr.owning, fun b hb => hr.page b (by simp [hb])⟩

/-- A copy of the node with room for a branch, its links are not written into the trie yet. -/
theorem expand_hollow {a : Addr} {p : Path} {suffixLen : Nat} (ho : Opened h root p arr (a :: o))
    (hlen : cs.length ≤ 255) (hsort : Branches.Sorted arr)
    (hset : Branches.isset arr key2 = false)
    (hkey : (if suffixLen = 0 then none else (key.drop c.currentKey.length).head?) = key2) :
    ∃ trie h', expandTrieWithBranch h c a ⟨cs, Branches.mapSnd Tree.addr arr⟩ suffixLen key =
        .ok (trie, (Branches.below arr key2).length, h') ∧
      Hollow h' (Stop.into trie cs arr key2) [] (p.addrs ++ o) ∧
      (∃ old, p.Stored h'.rd old ∧ root = p.top old) ∧ h.Spares True o h' := by
  have hcount : TrieNode.count ⟨cs, Branches.mapSnd Tree.addr arr⟩ ≤ 256 := by
    rw [TrieNode.count, Branches.length_mapSnd]
    exact Branches.length_lt_of_unset hsort hset
  have hsize := TrieNode.incrementSize_le ⟨cs, Branches.mapSnd Tree.addr arr⟩ key2 hlen hcount
  obtain ⟨trie, h1, halloc, ha, hrd⟩ := Heap.allocNode_allocates ho.uses
    (n := TrieNode.incrementSize ⟨cs, Branches.mapSnd Tree.addr arr⟩ key2)
    (fitsPage_iff.mpr (hsize.trans (by decide)))
    (.trie (TrieNode.createAdd ⟨cs, Branches.mapSnd Tree.addr arr⟩ key2))
  have ho1 : Opened h1 root p arr (a :: (trie :: o)) := by
    have := ho.adds ha.adds
    refine ⟨this.uses.perm (List.perm_iff_count.mpr fun x => ?_), this.path, this.branches⟩
    simp only [List.count_append, List.count_cons, List.count_nil]
    omega
  have ho2 := ho1.free
  refine ⟨trie, h1.free a, ?_, hollow_into ?_ trivial ho2.branches hrd ha.owned hsort
    hset, ho2.path, ?_⟩
  . simp only [expandTrieWithBranch, hkey, halloc, bind, Except.bind, TrieNode.addIndex,
      Branches.below_mapSnd, Branches.length_mapSnd]
  . refine ho2.uses.perm (List.perm_iff_count.mpr fun x => ?_)
    simp only [Path.addrs_nil, List.count_append, List.count_cons, List.count_nil]
    omega
  . have h1' : h.Spares True o h1 := ha.adds.spares fun b hb => by simp [hb]
    exact h1'.trans (ho1.uses.free_spares a o)

end New

end Merger
end Leaves
