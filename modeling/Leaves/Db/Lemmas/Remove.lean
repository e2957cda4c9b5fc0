import Leaves.Db.Deleter
import Leaves.Db.Lemmas.Insert
import Leaves.Db.Lemmas.Next
import Leaves.Trie.Shape

/-!
Removing the key of a leaf: the map of the trie afterwards is the one without the key, and the
cursor is on a leaf or nowhere.
-/

namespace Leaves

/-- The pages of a trie and the pages `o` of others. -/
structure Heap.Stores (h : Heap) (m : Trie) (o : List Addr) : Prop where
  uses : h.Uses (m.addrs ++ o)
  valid : m.Valid h.rd

theorem Heap.Holds.stores {h : Heap} {t : Tree} {o : List Addr} (hh : h.Holds t o) :
    h.Stores (some t) o := by
  refine ⟨hh.uses, ?_, ?_, ?_⟩
  . rintro _ ⟨rfl⟩
    exact hh.uses.ne_zero _ (List.mem_append_left _ (Tree.addr_mem_addrs _))
  . rintro _ ⟨rfl⟩
    exact hh.wf
  . rintro _ ⟨rfl⟩
    exact hh.stored

theorem Heap.Stores.holds {h : Heap} {t : Tree} {o : List Addr} (hs : h.Stores (some t) o) :
    h.Holds t o :=
  ⟨hs.uses, hs.valid.stored t rfl, hs.valid.wf t rfl⟩

/-- A page of others is freed. -/
theorem Heap.Stores.free {h : Heap} {m : Trie} {a : Addr} {o : List Addr}
    (hs : h.Stores m (a :: o)) : (h.free a).Stores m o :=
  ⟨Heap.free_uses (hs.uses.perm List.perm_middle), hs.valid⟩

theorem Heap.Holds.free {h : Heap} {t : Tree} {a : Addr} {o : List Addr}
    (hh : h.Holds t (a :: o)) : (h.free a).Holds t o :=
  hh.stores.free.holds

namespace Cursor

/-- What is left of a trie after a removal. The pages `o` are used by others. -/
structure Removes (h : Heap) (es : List (Key × Value)) (o : List Addr) (pos : Prop) (h' : Heap)
    (c' : Cursor) (m' : Trie) : Prop where
  keeps : h.Keeps h'
  page : ∀ b ∈ o, h'.page b = h.page b
  stores : h'.Stores m' o
  entries : m'.entries = es
  root : c'.root = m'.root
  rests : pos → m'.Shallow → c'.Rests m'

/--
The removal of what is at the end of the path `p`. If `ok` holds the cursor comes to what is behind
the path, otherwise it leaves more behind. With short keys a path beside which everything branches
leaves a branching trie.
-/
structure Proceeds (h : Heap) (p : Path) (o : List Addr) (pos ok : Prop) (h' : Heap) (c' : Cursor)
    (m' : Trie) : Prop extends Removes h (p.before ++ p.after) o pos h' c' m' where
  shallow : ∀ u, (p.plug u).Shallow → m'.Shallow
  comes : pos → m'.Shallow → ∃ l, c'.Comes m' l ∧ (l = p.before ↔ ok)
  branching : p.Branching → (∀ e ∈ p.before ++ p.after, e.1.length ≤ 255) → m'.Branching

/-- The removed leaf is freed at last. -/
theorem Proceeds.free {h h' : Heap} {p : Path} {a : Addr} {o : List Addr} {pos ok : Prop}
    {c' : Cursor} {m' : Trie} (hr : Proceeds h p (a :: o) pos ok h' c' m') :
    Proceeds h p o pos ok (h'.free a) c' m' :=
  ⟨⟨hr.keeps.trans (Heap.free_keeps hr.stores.uses.recycle a),
    fun b hb => hr.page b (List.mem_cons_of_mem _ hb), hr.stores.free, hr.entries, hr.root,
    hr.rests⟩, hr.shallow, hr.comes, hr.branching⟩

/--
The cursor is back at the node of `s`, one of its children at `x` is to be removed. The position in
the key is known if `pos` holds.
-/
structure Backs (h : Heap) (c : Cursor) (s : Step) (p : Path) (x : Addr) (o : List Addr) (pos : Prop) :
    Prop where
  uses : h.Uses (Path.addrs (s :: p) ++ o)
  stored : Path.Stored h.rd (s :: p) x
  wf : Path.WF (s :: p)
  stack : c.stack = frames (s :: p)
  known : Known c.branchKey (s :: p)
  root : c.root = p.top s.addr
  restKey : c.restKey = []
  key : pos → p.str <+: c.currentKey ∧ p.str.length < 65536

section Comes

variable {rd : Addr → Node} {t u : Tree} {c : Cursor} {f : Transition} {p : Path}

theorem comes_whole (hstack : c.stack = f :: frames p) (hnode : f.node = u.addr)
    (hkeypos : f.keypos = p.str.length) (hlen : u.isLeaf = true ∨ f.prefixLen < u.label.length)
    (hcmp : f.cmp = -1 ∨ f.cmp = 1) (hkey : p.str <+: c.currentKey) (hknown : Known c.branchKey p)
    (hplug : p.plug u = t) (hstored : Tree.Stored rd t) (hwf : t.WF) (hshallow : t.Shallow) :
    (c.next rd).Comes (some t)
      (if f.cmp = 1 then p.before ++ Tree.behind p.str u.entries else p.before) := by
  refine next_comes (by simp [hstack]) (by simp [hstack]) ?_ hplug hstored hwf hshallow
  rcases nextTop_whole (c := { c with restKey := [] }) hstack hnode hkeypos hlen hcmp hkey rfl
    hknown hplug hstored hwf hshallow with
    ⟨hone, c', htop, -, hret⟩ | ⟨hone, c', q, a, k, v, htop, -, hleaf, hq⟩
  . rw [if_pos hone]
    exact Or.inl ⟨c', htop, hret, rfl⟩
  . rw [if_neg (by omega)]
    exact Or.inr ⟨c', q, a, k, v, htop, hleaf, hq⟩

/-- Whatever the branch key is, `next` comes to a branch of the node or leaves it. -/
theorem comes_between {a : Addr} {k : Key} {arr l : List (Branch × Tree)}
    (hstack : c.stack = f :: frames p) (hnode : f.node = a) (hkeypos : f.keypos = p.str.length)
    (hlen : f.prefixLen = k.length) (hcmp : f.cmp ≠ 0) (hkey : p.str <+: c.currentKey)
    (hknown : Known c.branchKey p) (hplug : p.plug (.node a k arr) = t)
    (hstored : Tree.Stored rd t) (hwf : t.WF) (hshallow : t.Shallow)
    (harr : l ++ Branches.above arr (some (c.branchKey p.length)) = arr) :
    (c.next rd).Comes (some t)
      (p.before ++ Tree.behind (p.str ++ k) (Tree.branchEntries l)) := by
  refine next_comes (by simp [hstack]) (by simp [hstack]) ?_ hplug hstored hwf hshallow
  rcases nextTop_missing (c := { c with restKey := [] }) hstack hnode hkeypos hcmp hlen hkey rfl
    hknown hplug hstored hwf hshallow harr rfl with
    ⟨hnil, c', htop, -, hret⟩ | ⟨c', q, a, k, v, htop, -, hleaf, hq⟩
  . refine Or.inl ⟨c', htop, hret, ?_⟩
    have hl : l = arr := by
      rw [← harr, hnil, List.append_nil]
    rw [Tree.entries_node, Tree.behind_behind, hl]
  . exact Or.inr ⟨c', q, a, k, v, htop, hleaf, hq⟩

theorem comes_first (harrives : c.Arrives p u) (hrest : c.restKey = [])
    (hknown : Known c.branchKey p) (hplug : p.plug u = t) (hstored : Tree.Stored rd t) (hwf : t.WF)
    (hshallow : t.Shallow) : (firstTop rd MAX_DEPTH c).Comes (some t) p.before := by
  have hstored' := (Path.stored_plug.mp (hplug ▸ hstored)).2
  have hwf' := (Path.wf_plug.mp (hplug ▸ hwf)).2.2
  have hheight : u.height ≤ MAX_DEPTH := by
    have h1 := Tree.height_le_deepest hwf'
    have h2 := Tree.deepest_plug p u
    rw [hplug] at h2
    rw [Tree.Shallow] at hshallow
    rw [MAX_DEPTH, MAX_KEY_SIZE]
    omega
  obtain ⟨r, a, k, v, hr, hbefore, hlands⟩ :=
    firstTop_lands harrives hplug hstored' hwf' hshallow hheight
  refine Or.inr ⟨t, r ++ p, a, k, v, rfl, ⟨?_, hlands.stopped hknown hrest v⟩, ?_⟩
  . rw [Path.plug_append, hr, hplug]
  . simp [Path.before_append, hbefore]

end Comes

section Reduce

variable {h : Heap} {c : Cursor} {s : Step} {p : Path} {x : Addr} {o : List Addr} {pos : Prop}

theorem Backs.rd (hb : Backs h c s p x o pos) : h.rd s.addr =
    .trie ⟨s.compressed,
      Branches.mapSnd Tree.addr s.left ++ (s.branch, x) :: Branches.mapSnd Tree.addr s.right⟩ :=
  hb.stored.1

/-- A new node takes the place of the node of `s` and keeps the pages `l` below it. -/
theorem Backs.replace (hb : Backs h c s p x o pos) (make : Addr → Tree) (l o' : List Addr) {n : Nat}
    (node : Node) (hperm : (Path.addrs (s :: p) ++ o).Perm (p.addrs ++ (l ++ o')))
    (hfits : fitsPage n = true) (haddr : ∀ b, (make b).addr = b)
    (haddrs : ∀ b, (make b).addrs = b :: l)
    (hstored : ∀ rd b, rd b = node → (∀ y ∈ l, rd y = h.rd y) → Tree.Stored rd (make b))
    (hlabel : ∀ b, s.compressed <+: (make b).label) (hwf : ∀ b, (make b).WF) :
    ∃ b h1 h2 root' p', h.allocNode n node = .ok (b, h1) ∧
      (∀ f : Transition, updateOffset h1 c f (frames p) b =
        .ok (h2, { c with root := root', stack := { f with node := b } :: frames p' })) ∧
      h.Allocates (p.addrs ++ (l ++ o')) b h1 ∧ Replaces h p (make b) o' h2 root' p' := by
  have hu := hb.uses.perm hperm
  obtain ⟨b, h1, halloc, ha, hrd⟩ := Heap.allocNode_allocates hu hfits node
  have hnew := (List.nodup_cons.mp ha.uses.nodup).1
  have hpage : ∀ y ∈ p.addrs ++ (l ++ o'), h1.page y = h.page y :=
    fun y hy => ha.page y (fun heq => hnew (heq ▸ hy))
  have hrd1 : ∀ y ∈ p.addrs ++ (l ++ o'), h1.rd y = h.rd y := by
    intro y hy
    rw [Heap.rd, hpage y hy]
    rfl
  have hu1 : h1.Uses (p.addrs ++ ((make b).addrs ++ o')) := by
    rw [haddrs]
    refine ha.uses.perm (List.perm_iff_count.mpr fun y => ?_)
    simp only [List.count_append, List.count_cons]
    omega
  obtain ⟨h2, root', p', heq, hr⟩ := relink_replaces hu1
    (hb.stored.2.2.2.congr fun y hy => hrd1 y (List.mem_append_left _ hy))
    (hstored h1.rd b hrd fun y hy => hrd1 y (by simp [hy])) hb.wf.2.2.2.2.2
    (Path.fits_of_wf hb.wf (hlabel b)) (hwf b) hb.root
  rw [haddr] at heq
  refine ⟨b, h1, h2, root', p', halloc, ?_, ha, hr.twin, hr.holds, ha.keeps.trans hr.keeps, ?_,
    hr.root⟩
  . intro f
    simp only [updateOffset, heq, bind, Except.bind]
  . exact fun y hy => (hr.page y hy).trans (hpage y (by simp [hy]))

theorem Backs.createRemove (hb : Backs h c s p x o pos) {prefixLen : Nat}
    (hpre : prefixLen = 0 ↔ s.branch = none) (b : Addr) :
    Node.trie (TrieNode.createRemove ⟨s.compressed,
        Branches.mapSnd Tree.addr s.left ++ (s.branch, x) :: Branches.mapSnd Tree.addr s.right⟩
        (if prefixLen = 0 then none else some (c.branchKey (frames p).length))) =
      (s.reduced b).root := by
  have hbranch : (if prefixLen = 0 then none else some (c.branchKey (frames p).length)) =
      s.branch := by
    cases hs : s.branch with
    | none => rw [if_pos (hpre.mpr hs)]
    | some b =>
      rw [if_neg (by rw [hpre, hs]; simp), length_frames, hb.known [] s p b rfl hs]
  have hsort : Branches.Sorted (Branches.mapSnd Tree.addr s.left ++
      (s.branch, x) :: Branches.mapSnd Tree.addr s.right) := by
    have := (Branches.sorted_mapSnd Tree.addr _).mpr hb.wf.2.1
    rw [Branches.mapSnd_append, Branches.mapSnd_cons] at this
    exact Branches.sorted_replace this
  rw [hbranch, TrieNode.createRemove, Branches.remove_append_cons hsort, Step.reduced, Tree.root,
    Branches.mapSnd_append]

/-- The node without the branch takes the place of the node. -/
theorem reduceArray_replaces (hb : Backs h c s p x o pos) {prefixLen : Nat}
    (hpre : prefixLen = 0 ↔ s.branch = none) (hne : s.left ++ s.right ≠ []) {branch : Branch}
    (hbranch : branch = if prefixLen = 0 then none else some (c.branchKey (frames p).length)) :
    ∃ b h1 h2 root' p',
      h.allocNode (TrieNode.decrementSize ⟨s.compressed, Branches.mapSnd Tree.addr s.left ++
          (s.branch, x) :: Branches.mapSnd Tree.addr s.right⟩ branch)
        (.trie (TrieNode.createRemove ⟨s.compressed, Branches.mapSnd Tree.addr s.left ++
          (s.branch, x) :: Branches.mapSnd Tree.addr s.right⟩ branch)) = .ok (b, h1) ∧
      (∀ f : Transition, updateOffset h1 c f (frames p) b =
        .ok (h2, { c with root := root', stack := { f with node := b } :: frames p' })) ∧
      h.Allocates (p.addrs ++ (Tree.branchAddrs (s.left ++ s.right) ++ (s.addr :: o))) b h1 ∧
      Replaces h p (s.reduced b) (s.addr :: o) h2 root' p' ∧
      (p'.plug (s.reduced b)).entries = Path.before (s :: p) ++ Path.after (s :: p) := by
  have hnode := fun b => hb.createRemove hpre b
  rw [← hbranch] at hnode
  have hlen : (Branches.mapSnd Tree.addr s.left ++
      (s.branch, x) :: Branches.mapSnd Tree.addr s.right).length ≤ 257 := by
    have := Branches.length_le hb.wf.2.1
    simpa using this
  have hbelow : ∀ rd : Addr → Node,
      (∀ y ∈ Tree.branchAddrs (s.left ++ s.right), rd y = h.rd y) →
      ∀ y ∈ s.left ++ s.right, Tree.Stored rd y.2 := by
    intro rd heq
    refine Tree.stored_congr_branches (fun y hy => ?_) heq
    rcases List.mem_append.mp hy with hy | hy
    . exact hb.stored.2.1 y hy
    . exact hb.stored.2.2.1 y hy
  obtain ⟨b, h1, h2, root', p', halloc, hupdate, ha, hr⟩ := hb.replace
    (n := TrieNode.decrementSize ⟨s.compressed, _⟩ branch)
    s.reduced (Tree.branchAddrs (s.left ++ s.right)) (s.addr :: o) _
    (by
      refine List.perm_iff_count.mpr fun y => ?_
      simp only [Path.addrs_cons, Tree.branchAddrs_append, List.count_append, List.count_cons]
      omega)
    (fitsPage_iff.mpr ((TrieNode.decrementSize_le ⟨s.compressed, _⟩ branch hb.wf.1 hlen).trans
      (by decide)))
    (fun _ => rfl) (fun b => by rw [Step.reduced, Tree.addrs_node])
    (fun rd b hrd heq => Tree.stored_node.mpr ⟨hrd.trans (hnode b), hbelow rd heq⟩)
    (fun _ => List.prefix_refl _) (fun b => Path.wf_reduced hb.wf hne b)
  refine ⟨b, h1, h2, root', p', halloc, hupdate, ha, hr, ?_⟩
  rw [Path.entries_around, hr.twin.entries_plug, Step.reduced, Tree.entries_node]

/--
The branch key that is left in the stack is in front of the branches of the node, if the removed key
has ended at a node without a string.
-/
def BranchOk (branchKey : Nat → UInt8) (s : Step) (p : Path) : Prop :=
  s.branch = none → s.compressed = [] →
    ∀ x ∈ s.left ++ s.right, Branch.toInt (some (branchKey p.length)) < x.1.toInt

/--
The entries in front of those that the branch key left in the stack lets `next` come to, if the
removed key has ended at a node without a string.
-/
def Skips (branchKey : Nat → UInt8) (s : Step) (p : Path) (l : List (Key × Value)) : Prop :=
  s.branch = none → s.compressed = [] →
    ∃ arr, arr ++ Branches.above (s.left ++ s.right) (some (branchKey p.length)) = s.left ++ s.right ∧
      l = p.before ++ Tree.behind p.str (Tree.branchEntries arr)

/-- Where `next` comes to from the node that has lost its branch. -/
theorem comes_reduced {rd : Addr → Node} {p' : Path} {g : Transition} {b : Addr}
    (hwf : Path.WF (s :: p)) (ht : p.Twin p') (hstack : c.stack = g :: frames p') (hnode : g.node = b)
    (hkeypos : g.keypos = p'.str.length) (hcmp : g.cmp = -1)
    (hlen : g.prefixLen = if s.branch = none then 0 else s.compressed.length)
    (hkey : p'.str <+: c.currentKey) (hknown : Known c.branchKey (s :: p))
    (hstored : Tree.Stored rd (p'.plug (s.reduced b))) (hwf' : (p'.plug (s.reduced b)).WF)
    (hshallow : (p'.plug (s.reduced b)).Shallow) :
    ∃ l, (c.next rd).Comes (some (p'.plug (s.reduced b))) l ∧
      (l = Path.before (s :: p) ↔ BranchOk c.branchKey s p) ∧ Skips c.branchKey s p l := by
  have hknown' : Known c.branchKey p' := known_twin ht hknown.tail
  have hnode' := (Path.wf_plug.mp hwf').2.2
  obtain ⟨-, -, hsort, -, hw⟩ := Tree.wf_node.mp hnode'
  obtain ⟨l, harr⟩ := Branches.exists_append_above hsort (some (c.branchKey p'.length))
  cases hbranch : s.branch with
  | none =>
    rw [hbranch, if_pos rfl] at hlen
    have hleft : s.left = [] := left_eq_nil (x := default) (hbranch ▸ hwf.2.1)
    have hbefore : Path.before (s :: p) = p'.before := by
      rw [Path.before, hleft, Tree.branchEntries_nil, Tree.behind_nil, List.append_nil, ht.before]
    by_cases hnil : s.compressed = []
    . refine ⟨_, comes_between hstack hnode hkeypos (by rw [hlen, hnil]; rfl) (by omega) hkey hknown'
        rfl hstored hwf' hshallow harr, ?_, ?_⟩
      . have hl : ∀ y ∈ l, y.2.WF := fun y hy => hw y (harr ▸ List.mem_append_left _ hy)
        rw [hbefore, List.append_right_eq_self, Tree.behind_branchEntries_eq_nil hl,
          Branches.eq_nil_iff_of_append_above harr, ht.length]
        exact ⟨fun h _ _ => h, fun h => h hbranch hnil⟩
      . rintro - -
        rw [ht.length] at harr
        refine ⟨l, harr, ?_⟩
        rw [ht.before, ht.str, hnil, List.append_nil]
    . have hlt : g.prefixLen < s.compressed.length := by
        have := List.length_pos_iff.mpr hnil
        omega
      have hcomes := comes_whole (u := s.reduced b) hstack hnode hkeypos (Or.inr hlt) (Or.inl hcmp)
        hkey hknown' rfl hstored hwf' hshallow
      rw [if_neg (by omega)] at hcomes
      refine ⟨_, hcomes, ⟨fun _ _ hcompressed => absurd hcompressed hnil, fun _ => hbefore.symm⟩,
        fun _ hcompressed => absurd hcompressed hnil⟩
  | some key =>
    rw [hbranch, if_neg (by simp)] at hlen
    refine ⟨_, comes_between hstack hnode hkeypos hlen (by omega) hkey hknown' rfl hstored hwf'
      hshallow harr, ⟨fun _ hnone => ?_, fun _ => ?_⟩, fun hnone => ?_⟩
    . rw [hbranch] at hnone
      cases hnone
    . have hkey' : c.branchKey p'.length = key := by
        rw [ht.length]
        exact hknown [] s p key rfl hbranch
      rw [hkey', Branches.above_append (hbranch ▸ hwf.2.1)] at harr
      rw [List.append_cancel_right harr, Path.before, ht.before, ht.str]
    . rw [hbranch] at hnone
      cases hnone

/--
A node that keeps a branch loses the one at the end of the path, and it is known what the cursor
leaves behind.
-/
theorem reduceArray_comes (hb : Backs h c s p x o pos) {prefixLen : Nat}
    (hpre : prefixLen = 0 ↔ s.branch = none) (hne : s.left ++ s.right ≠ [])
    (htwo : (∀ e ∈ Path.before (s :: p) ++ Path.after (s :: p), e.1.length ≤ 255) →
      2 ≤ (s.left ++ s.right).length) :
    ∃ h' c' m', reduceArray h c (taken s p) (frames p) ⟨s.compressed,
        Branches.mapSnd Tree.addr s.left ++ (s.branch, x) :: Branches.mapSnd Tree.addr s.right⟩
        prefixLen = .ok (h', c') ∧
      Proceeds h (s :: p) o pos (BranchOk c.branchKey s p) h' c' m' ∧
      (pos → m'.Shallow → ∃ l, c'.Comes m' l ∧ Skips c.branchKey s p l) := by
  obtain ⟨branch, hbranch⟩ : ∃ branch, branch =
      if prefixLen = 0 then none else some (c.branchKey (frames p).length) := ⟨_, rfl⟩
  obtain ⟨b, h1, h2, root', p', halloc, hupdate, -, hr, hentries⟩ :=
    reduceArray_replaces hb hpre hne hbranch
  obtain ⟨g, hg⟩ : ∃ g : Transition, g =
      { taken s p with cmp := -1, prefixLen := if prefixLen = 0 then 0 else s.compressed.length } :=
    ⟨_, rfl⟩
  obtain ⟨c2, hc2⟩ : ∃ c2 : Cursor, c2 =
      { c with root := root', stack := { g with node := b } :: frames p' } := ⟨_, rfl⟩
  have hcomes : pos → Trie.Shallow (some (p'.plug (s.reduced b))) →
      ∃ l, (c2.next (h2.free s.addr).rd).Comes (some (p'.plug (s.reduced b))) l ∧
        (l = Path.before (s :: p) ↔ BranchOk c.branchKey s p) ∧ Skips c.branchKey s p l := by
    intro hpos hshallow
    obtain ⟨hkey, hlt⟩ := hb.key hpos
    have hkeypos : g.keypos = (Path.str p').length := by
      rw [hg, hr.twin.str]
      exact u16_eq hlt
    have hbk : c2.branchKey = c.branchKey := by rw [hc2]
    rw [← hbk]
    refine comes_reduced (g := { g with node := b }) hb.wf hr.twin (by rw [hc2]) rfl hkeypos
      (by rw [hg]) ?_ ?_ ?_ hr.holds.free.stored hr.holds.wf (hshallow _ rfl)
    . simp only [hg, hpre]
    . rw [hc2, hr.twin.str]
      exact hkey
    . rw [hbk]
      exact hb.known
  refine ⟨h2.free s.addr, c2.next (h2.free s.addr).rd, some (p'.plug (s.reduced b)), ?_,
    ⟨⟨?_, ?_, hr.holds.free.stores, ?_, ?_, ?_⟩, ?_, ?_, ?_⟩, ?_⟩
  . rw [reduceArray]
    simp only [← hbranch, halloc, hupdate, bind, Except.bind, hc2, hg]
    rfl
  . exact hr.keeps.trans (Heap.free_keeps hr.holds.uses.recycle _)
  . exact fun y hy => hr.page y (List.mem_cons_of_mem _ hy)
  . exact hentries
  . rw [root_next, hc2]
    exact hr.root
  . intro hpos hshallow
    obtain ⟨l, hl, -⟩ := hcomes hpos hshallow
    exact hl.rests
  . rintro u hshallow _ ⟨rfl⟩
    rw [Tree.Shallow, hr.twin.deepest_plug]
    rw [Tree.Shallow, Path.plug_cons] at hshallow
    exact Nat.lt_of_le_of_lt (Path.deepest_plug_mono (Path.deepest_reduced_le s b u)) hshallow
  . intro hpos hshallow
    obtain ⟨l, hl, hiff, -⟩ := hcomes hpos hshallow
    exact ⟨l, hl, hiff⟩
  . rintro hpath hshort _ ⟨rfl⟩
    obtain ⟨⟨-, hchild⟩, hpath⟩ := Path.branching_cons.mp hpath
    exact Path.branching_plug.mpr ⟨hr.twin.branching.mpr hpath,
      Tree.branching_node.mpr ⟨htwo hshort, hchild⟩⟩
  . intro hpos hshallow
    obtain ⟨l, hl, -, hskips⟩ := hcomes hpos hshallow
    exact ⟨l, hl, hskips⟩

theorem reduceArray_proceeds (hb : Backs h c s p x o pos) {prefixLen : Nat}
    (hpre : prefixLen = 0 ↔ s.branch = none) (hne : s.left ++ s.right ≠ [])
    (htwo : (∀ e ∈ Path.before (s :: p) ++ Path.after (s :: p), e.1.length ≤ 255) →
      2 ≤ (s.left ++ s.right).length) :
    ∃ h' c' m', reduceArray h c (taken s p) (frames p) ⟨s.compressed,
        Branches.mapSnd Tree.addr s.left ++ (s.branch, x) :: Branches.mapSnd Tree.addr s.right⟩
        prefixLen = .ok (h', c') ∧
      Proceeds h (s :: p) o pos (BranchOk c.branchKey s p) h' c' m' := by
  obtain ⟨h', c', m', heq, hr, -⟩ := reduceArray_comes hb hpre hne htwo
  exact ⟨h', c', m', heq, hr⟩

/-- Only the size and the string depend on the kind of the remaining child `u`. -/
theorem combine_eq {c : Cursor} {g : Transition} {gs : List Transition} {t : TrieNode} {prefixLen : Nat}
    {u : Tree} (hlink : t.link (if g.linkIdx ≠ 0 then 0 else 1) = u.addr) (hrd : h.rd u.addr = u.root)
    {n : Nat} (hlen : t.len + u.label.length = n) :
    combine h c g gs t prefixLen =
      if 255 < n then reduceArray h c g gs t prefixLen
      else (h.allocNode (u.sizeWith n) (u.extend 0 t.compressed).root).bind
        fun x => takePlace x.2 c g gs x.1 u.addr := by
  subst hlen
  rw [combine, hlink, hrd]
  cases u with
  | leaf a k v => rfl
  | node a k arr => rfl

/-- The link to the child that remains. -/
theorem link_remaining {rd : Addr → Node} (hst : Path.Stored rd (s :: p) x) {y : Branch × Tree}
    (hone : s.left ++ s.right = [y]) :
    TrieNode.link ⟨s.compressed,
        Branches.mapSnd Tree.addr s.left ++ (s.branch, x) :: Branches.mapSnd Tree.addr s.right⟩
        (if (taken s p).linkIdx ≠ 0 then 0 else 1) = y.2.addr ∧ Tree.Stored rd y.2 := by
  have hmem : y ∈ s.left ++ s.right := by simp [hone]
  refine ⟨?_, ?_⟩
  . match hl : s.left with
    | [] =>
      rw [hl, List.nil_append] at hone
      simp [taken, hl, hone, TrieNode.link]
    | z :: l =>
      rw [hl, List.cons_append, List.cons.injEq] at hone
      simp [taken, hl, hone.1, TrieNode.link]
  . rcases List.mem_append.mp hmem with hy | hy
    . exact hst.2.1 y hy
    . exact hst.2.2.1 y hy

theorem wf_remaining (hwf : Path.WF (s :: p)) {y : Branch × Tree} (hy : y ∈ s.left ++ s.right) :
    Tree.Hangs y ∧ y.2.WF := by
  rcases List.mem_append.mp hy with hy | hy
  . exact hwf.2.2.1 y hy
  . exact hwf.2.2.2.1 y hy

/-- From the node that has taken the place the cursor goes on, in both directions. -/
theorem takePlace_comes (rd : Addr → Node) {c : Cursor} {g : Transition} {p : Path} {u : Tree}
    (hstack : c.stack = g :: frames p) (hnode : g.node = u.addr) (hpos : g.keypos = p.str.length)
    (hlt : p.str.length < 65536) (hlen : u.isLeaf = true ∨ g.prefixLen < u.label.length)
    (hcmp : g.cmp = 1) (hkey : p.str <+: c.currentKey) (hrest : c.restKey = [])
    (hknown : Known c.branchKey p) (hstored : Tree.Stored rd (p.plug u)) (hwf : (p.plug u).WF)
    (hshallow : (p.plug u).Shallow) :
    (c.next rd).Comes (some (p.plug u)) (p.before ++ Tree.behind p.str u.entries) ∧
      (firstTop rd MAX_DEPTH (c.resizeKey g.keypos)).Comes (some (p.plug u)) p.before := by
  constructor
  . have := comes_whole hstack hnode hpos hlen (Or.inr hcmp) hkey hknown rfl hstored hwf hshallow
    rwa [if_pos hcmp] at this
  refine comes_first ⟨⟨g, hstack, hnode, ?_⟩, ?_⟩ hrest hknown rfl hstored hwf hshallow
  . rw [hpos, u16_eq hlt]
  . obtain ⟨w, hw⟩ := hkey
    rw [currentKey_resizeKey, hpos, ← hw]
    simp

/-- The remaining child in a new page takes the place of the node. -/
theorem takePlace_replaces (hb : Backs h c s p x o pos) {y : Branch × Tree}
    (hone : s.left ++ s.right = [y]) {len : Nat}
    (hlen : s.compressed.length + y.2.label.length = len) (hle : len ≤ 255)
    (hfits : fitsPage (y.2.sizeWith len) = true) :
    ∃ b h1 h2 root' p',
      h.allocNode (y.2.sizeWith len) (y.2.extend 0 s.compressed).root = .ok (b, h1) ∧
      (∀ f : Transition, updateOffset h1 c f (frames p) b =
        .ok (h2, { c with root := root', stack := { f with node := b } :: frames p' })) ∧
      h.Allocates (p.addrs ++ (y.2.inner ++ (y.2.addr :: s.addr :: o))) b h1 ∧
      Replaces h p (y.2.extend b s.compressed) (y.2.addr :: s.addr :: o) h2 root' p' ∧
      (p'.plug (y.2.extend b s.compressed)).entries =
        Path.before (s :: p) ++ Path.after (s :: p) := by
  subst hlen
  have hystored := (link_remaining hb.stored hone).2
  obtain ⟨-, hywf⟩ := wf_remaining hb.wf (y := y) (by simp [hone])
  obtain ⟨b, h1, h2, root', p', halloc, hupdate, ha, hr⟩ := hb.replace
    (fun b => y.2.extend b s.compressed) y.2.inner (y.2.addr :: s.addr :: o)
    (y.2.extend 0 s.compressed).root
    (by
      refine List.perm_iff_count.mpr fun z => ?_
      have hcount := congrArg (fun l => List.count z (Tree.branchAddrs l)) hone
      simp only [Tree.branchAddrs_append, Tree.branchAddrs_cons, Tree.branchAddrs_nil,
        Tree.addrs_eq, List.count_append, List.count_cons, List.count_nil] at hcount
      simp only [Path.addrs_cons, List.count_append, List.count_cons]
      omega)
    hfits (fun b => Tree.addr_extend b _ _)
    (fun b => by rw [Tree.addrs_eq, Tree.addr_extend, Tree.inner_extend])
    (fun rd b hrd heq => hystored.extend (hrd.trans (Tree.root_extend _ _ _ b)) heq)
    (fun b => by rw [Tree.label_extend]; exact List.prefix_append _ _)
    (fun b => Tree.wf_extend hywf hle hfits)
  refine ⟨b, h1, h2, root', p', halloc, hupdate, ha, hr, ?_⟩
  rw [Path.entries_around, hr.twin.entries_plug, Tree.entries_extend, hone]
  simp

/-- The remaining child takes the place of the node. -/
theorem takePlace_proceeds (hb : Backs h c s p x o pos) {y : Branch × Tree}
    (hone : s.left ++ s.right = [y]) {len : Nat}
    (hlen : s.compressed.length + y.2.label.length = len) (hle : len ≤ 255)
    (hfits : fitsPage (y.2.sizeWith len) = true) :
    ∃ b h1 h' c' m', h.allocNode (y.2.sizeWith len) (y.2.extend 0 s.compressed).root = .ok (b, h1) ∧
      takePlace h1 c (taken s p) (frames p) b y.2.addr = .ok (h', c') ∧
      Proceeds h (s :: p) o pos True h' c' m' := by
  obtain ⟨hhangs, -⟩ := wf_remaining hb.wf (y := y) (by simp [hone])
  obtain ⟨b, h1, h2, root', p', halloc, hupdate, -, hr, hentries⟩ :=
    takePlace_replaces hb hone hlen hle hfits
  obtain ⟨g, hg⟩ : ∃ g : Transition, g = { taken s p with node := b, cmp := 1 } := ⟨_, rfl⟩
  obtain ⟨c2, hc2⟩ : ∃ c2 : Cursor, c2 = { c with root := root', stack := g :: frames p' } :=
    ⟨_, rfl⟩
  have hupdate1 : updateOffset h1 c { taken s p with cmp := 1 } (frames p) b = .ok (h2, c2) := by
    rw [hupdate, hc2, hg]
  obtain ⟨h3, hh3⟩ : ∃ h3, h3 = (h2.free y.2.addr).free s.addr := ⟨_, rfl⟩
  have hh : h3.Holds (p'.plug (y.2.extend b s.compressed)) o := hh3 ▸ hr.holds.free.free
  have hkeeps : h.Keeps h3 := hh3 ▸ (hr.keeps.trans (Heap.free_keeps hr.holds.uses.recycle _)).trans
    (Heap.free_keeps hr.holds.free.uses.recycle _)
  have hpage : ∀ z ∈ o, h3.page z = h.page z := hh3 ▸ fun z hz => hr.page z (by simp [hz])
  have hlabel : (y.2.extend b s.compressed).isLeaf = true ∨
      g.prefixLen < (y.2.extend b s.compressed).label.length := by
    rw [Tree.isLeaf_extend, Tree.label_extend, List.length_append, hg]
    by_cases hnil : y.2.label = []
    . have hnone : y.1 = none := by rw [← hhangs.1, Tree.head, hnil, List.head?_nil]
      exact Or.inl (hhangs.2 hnone)
    . exact Or.inr (Nat.lt_add_of_pos_right (List.length_pos_iff.mpr hnil))
  have hcomes : pos → Tree.Shallow (p'.plug (y.2.extend b s.compressed)) → _ := fun hp hshallow =>
    takePlace_comes h3.rd (c := c2) (g := g)
      (by rw [hc2]) (by rw [hg, Tree.addr_extend])
      (by rw [hg, hr.twin.str]; exact u16_eq (hb.key hp).2) (by rw [hr.twin.str]; exact (hb.key hp).2)
      hlabel (by rw [hg]) (by rw [hc2, hr.twin.str]; exact (hb.key hp).1) (by rw [hc2]; exact hb.restKey)
      (by rw [hc2]; exact known_twin hr.twin hb.known.tail) hh.stored hh.wf hshallow
  have hpos : g.keypos = (taken s p).keypos := by rw [hg]
  rw [hpos] at hcomes
  have hsecond : pos → Trie.Shallow (some (p'.plug (y.2.extend b s.compressed))) →
      Comes (if (taken s p).linkIdx ≠ 0 then c2.next h3.rd else
        firstTop h3.rd MAX_DEPTH (c2.resizeKey (taken s p).keypos))
        (some (p'.plug (y.2.extend b s.compressed))) (Path.before (s :: p)) := by
    intro hp hshallow
    obtain ⟨hnext, hfirst⟩ := hcomes hp (hshallow _ rfl)
    have hidx : (taken s p).linkIdx = s.left.length := rfl
    rw [hidx]
    cases hl : s.left with
    | nil =>
      rw [if_neg (by simp), Path.before, hl, Tree.branchEntries_nil, Tree.behind_nil,
        List.append_nil, ← hr.twin.before]
      exact hfirst
    | cons z l =>
      rw [hl, List.cons_append, List.cons.injEq, List.append_eq_nil_iff] at hone
      obtain ⟨rfl, rfl, -⟩ := hone
      rw [if_pos (by simp), Path.before, hl, Tree.branchEntries_cons, Tree.branchEntries_nil,
        List.append_nil, ← Tree.behind_behind, ← Tree.entries_extend b, ← hr.twin.before,
        ← hr.twin.str]
      exact hnext
  refine ⟨b, h1, h3, if (taken s p).linkIdx ≠ 0 then c2.next h3.rd else
    firstTop h3.rd MAX_DEPTH (c2.resizeKey (taken s p).keypos),
    some (p'.plug (y.2.extend b s.compressed)), halloc, ?_,
    ⟨hkeeps, hpage, hh.stores, hentries, ?_, fun hp hs => (hsecond hp hs).rests⟩, ?_,
    fun hp hs => ⟨_, hsecond hp hs, iff_of_true rfl trivial⟩, ?_⟩
  . have hnode : (taken s p).node = s.addr := rfl
    rw [takePlace]
    simp only [hupdate1, bind, Except.bind]
    simp only [hnode, ← hh3]
    split <;> rfl
  . have hroot : c2.root = (p'.plug (y.2.extend b s.compressed)).addr := by
      rw [hc2]
      exact hr.root
    split
    . rw [root_next]
      exact hroot
    . rw [root_firstTop]
      exact hroot
  . rintro u hshallow _ ⟨rfl⟩
    have hmem : y ∈ s.left ++ (s.branch, u) :: s.right := by
      have : y ∈ s.left ++ s.right := by simp [hone]
      rw [List.mem_append] at this
      simp only [List.mem_append, List.mem_cons]
      tauto
    rw [Tree.Shallow, hr.twin.deepest_plug]
    rw [Tree.Shallow, Path.plug_cons] at hshallow
    exact Nat.lt_of_le_of_lt (Path.deepest_plug_mono (Tree.deepest_extend_le hmem b)) hshallow
  . rintro hpath - _ ⟨rfl⟩
    obtain ⟨⟨-, hchild⟩, hpath⟩ := Path.branching_cons.mp hpath
    exact Path.branching_plug.mpr ⟨hr.twin.branching.mpr hpath,
      Tree.branching_extend.mpr (hchild y (by simp [hone]))⟩

/-- A node with two branches loses one of them. -/
theorem combine_proceeds (hb : Backs h c s p x o pos) {prefixLen : Nat}
    (hpre : prefixLen = 0 ↔ s.branch = none) {y : Branch × Tree} (hone : s.left ++ s.right = [y]) :
    Outcome (combine h c (taken s p) (frames p) ⟨s.compressed,
        Branches.mapSnd Tree.addr s.left ++ (s.branch, x) :: Branches.mapSnd Tree.addr s.right⟩
        prefixLen)
      (255 < s.compressed.length + y.2.label.length ||
        fitsPage (y.2.sizeWith (s.compressed.length + y.2.label.length)))
      (Proceeds h (s :: p) o pos True) := by
  obtain ⟨hlink, hystored⟩ := link_remaining hb.stored hone
  rw [combine_eq hlink hystored.root (n := s.compressed.length + y.2.label.length) rfl]
  by_cases hlen : 255 < s.compressed.length + y.2.label.length
  . rw [if_pos hlen, Outcome, if_pos (by simp [hlen])]
    have hlabel := Tree.length_label_le (wf_remaining hb.wf (y := y) (by simp [hone])).2
    have hok : BranchOk c.branchKey s p = True := by
      refine eq_true fun _ hnil => ?_
      rw [hnil, List.length_nil] at hlen
      omega
    rw [← hok]
    refine reduceArray_proceeds hb hpre (by simp [hone]) fun hshort => ?_
    -- the keys below the other branch are longer than both strings
    obtain ⟨e, he⟩ := List.exists_mem_of_ne_nil _
      (Tree.entries_ne_nil (wf_remaining hb.wf (y := y) (by simp [hone])).2)
    obtain ⟨w, hw⟩ := Tree.prefix_of_mem_entries he
    have hmem := hshort (p.str ++ (s.compressed ++ e.1), e.2) (by
      rw [Path.entries_around, hone, Tree.behind_behind]
      apply List.mem_append_left
      apply List.mem_append_right
      rw [← List.append_assoc]
      exact Tree.mem_behind.mpr ⟨e.1, rfl, by simpa using he⟩)
    rw [← hw] at hmem
    simp only [List.length_append] at hmem
    omega
  . rw [if_neg hlen, Outcome]
    simp only [hlen, decide_false, Bool.false_or]
    split
    next hfits =>
      obtain ⟨b, h1, h', c', m', halloc, heq, hr⟩ :=
        takePlace_proceeds hb hone rfl (Nat.le_of_not_lt hlen) hfits
      simp only [halloc, Except.bind]
      exact ⟨h', c', m', heq, hr⟩
    next hfits =>
      rw [Bool.not_eq_true] at hfits
      simp only [Heap.allocNode_of_not_fits h hfits, Except.bind]

/-- The transition of the removed child is popped. -/
theorem backs_pop {f : Transition} (hu : h.Uses (Path.addrs (s :: p) ++ o))
    (hst : Path.Stored h.rd (s :: p) x) (hwf : Path.WF (s :: p))
    (hstack : c.stack = f :: frames (s :: p)) (hknown : Known c.branchKey (s :: p))
    (hroot : c.root = Path.top (s :: p) x) (hrest : c.restKey = [])
    (hkey : pos → Path.str (s :: p) <+: c.currentKey ∧ (Path.str (s :: p)).length < 65536 ∧
      f.keypos = (Path.str (s :: p)).length) :
    c.pop.branchKey = c.branchKey ∧ Backs h c.pop s p x o pos := by
  have hpop : c.pop = { c.resizeKey f.keypos with stack := frames (s :: p) } := by
    rw [pop, hstack]
  refine ⟨by rw [hpop]; rfl, hu, hst, hwf, by rw [hpop], by rw [hpop]; exact hknown,
    by rw [hpop]; exact hroot, by rw [hpop]; exact hrest, ?_⟩
  intro hp
  obtain ⟨⟨w, hw⟩, hlt, hpos⟩ := hkey hp
  rw [Path.str_cons, List.length_append] at hlt
  refine ⟨?_, by omega⟩
  rw [hpop]
  simp only [currentKey_resizeKey, hpos, ← hw, resize_append, Path.str_cons]
  exact List.prefix_append _ _

/-- The node of the path in front of the removed one, as `removeNode` finds it. -/
theorem removeNode_cons (hb : Backs h c s p x o pos) (f : Transition) {c0 : Cursor} (hpop : c0.pop = c) :
    removeNode (f :: frames (s :: p)) h c0 =
      (match s.left ++ s.right with
      | [] => removeNode (frames (s :: p)) h c
      | [_] => combine h c (taken s p) (frames p) ⟨s.compressed,
          Branches.mapSnd Tree.addr s.left ++ (s.branch, x) :: Branches.mapSnd Tree.addr s.right⟩
          f.prefixLen
      | _ => reduceArray h c (taken s p) (frames p) ⟨s.compressed,
          Branches.mapSnd Tree.addr s.left ++ (s.branch, x) :: Branches.mapSnd Tree.addr s.right⟩
          f.prefixLen).bind fun r => .ok (r.1.free f.node, r.2) := by
  have hcount : TrieNode.count ⟨s.compressed,
      Branches.mapSnd Tree.addr s.left ++ (s.branch, x) :: Branches.mapSnd Tree.addr s.right⟩ =
      (s.left ++ s.right).length + 1 := by
    simp only [TrieNode.count, List.length_append, List.length_cons, Branches.length_mapSnd]
    omega
  have hrd : h.rd (taken s p).node = _ := hb.rd
  rw [frames_cons, removeNode]
  simp only [hpop, hrd, hcount]
  rcases s.left ++ s.right with _ | ⟨y, _ | ⟨z, l⟩⟩
  . rfl
  . rfl
  . rfl

end Reduce

/-- The removed node is freed after the others. -/
theorem Outcome.free {h : Heap} {p : Path} {a : Addr} {o : List Addr} {pos ok : Prop}
    {r : Except Fault (Heap × Cursor)} {fits : Bool}
    (hr : Outcome r fits (Proceeds h p (a :: o) pos ok)) :
    Outcome (r.bind fun x => .ok (x.1.free a, x.2)) fits (Proceeds h p o pos ok) := by
  rw [Outcome] at hr ⊢
  split at hr
  next hfits =>
    obtain ⟨h', c', m', rfl, hr⟩ := hr
    rw [if_pos hfits]
    exact ⟨h'.free a, c', m', rfl, hr.free⟩
  next hfits =>
    rw [if_neg hfits, hr]
    rfl

/-- The branch key at the node that keeps branches. -/
def PathOk (branchKey : Nat → UInt8) : Path → Prop
  | [] => True
  | s :: p =>
    match s.left ++ s.right with
    | [] => PathOk branchKey p
    | [_] => True
    | _ => BranchOk branchKey s p

/--
The subtree at the end of the path is removed. It has no page left but `x`, the node of the
transition `f`.
-/
theorem removeNode_proceeds {p : Path} {h : Heap} {c : Cursor} {f : Transition} {x : Addr} {w : Key}
    {o : List Addr} {pos : Prop} (hu : h.Uses (p.addrs ++ (x :: o))) (hst : p.Stored h.rd x)
    (hwf : p.WF) (hnode : f.node = x) (hleads : p.Leads w) (hpre : f.prefixLen = w.length)
    (hstack : c.stack = f :: frames p) (hknown : Known c.branchKey p) (hroot : c.root = p.top x)
    (hrest : c.restKey = [])
    (hkey : pos → p.str <+: c.currentKey ∧ p.str.length < 65536 ∧ f.keypos = p.str.length) :
    Outcome (removeNode (f :: frames p) h c) p.combineFits
      (Proceeds h p o pos (PathOk c.branchKey p)) := by
  induction p generalizing h c f x w o with
  | nil =>
    rw [Path.combineFits, Outcome, if_pos rfl]
    have hnil : c.leaveRoot.pop.stack = [] := by
      simp [pop, leaveRoot, hstack]
    refine ⟨h.free f.node, c.leaveRoot.pop, none, rfl, ⟨⟨Heap.free_keeps hu.recycle _,
      fun _ _ => rfl, ⟨?_, ?_, ?_, ?_⟩, rfl, ?_, fun _ _ => Or.inl hnil⟩, ?_, ?_, ?_⟩⟩
    . rw [hnode]
      exact Heap.free_uses hu
    . simp
    . simp
    . simp
    . rw [root_pop]
      rfl
    . rintro _ _ _ ⟨⟩
    . exact fun _ _ => ⟨[], Or.inl ⟨rfl, hnil⟩, iff_of_true rfl trivial⟩
    . rintro - - _ ⟨⟩
  | cons s p ih =>
    obtain ⟨hbk, hb⟩ := backs_pop hu hst hwf hstack hknown hroot hrest hkey
    have hpre0 : f.prefixLen = 0 ↔ s.branch = none := by
      rw [Path.leads_cons] at hleads
      rw [hpre, List.length_eq_zero_iff, ← hleads, List.head?_eq_none_iff]
    rw [removeNode_cons hb f rfl, Path.combineFits, hnode, PathOk]
    rcases hrest : s.left ++ s.right with _ | ⟨y, _ | ⟨z, l⟩⟩
    . obtain ⟨hleft, hright⟩ := List.append_eq_nil_iff.mp hrest
      have hbefore : Path.before (s :: p) = Path.before p := by simp [Path.before, hleft]
      have hafter : Path.after (s :: p) = Path.after p := by simp [Path.after, hright]
      have hturn : ∀ {h' c' m'}, Proceeds h p (x :: o) pos (PathOk c.pop.branchKey p) h' c' m' →
          Proceeds h (s :: p) (x :: o) pos (PathOk c.branchKey p) h' c' m' := by
        intro h' c' m' hr
        refine ⟨?_, fun u hu => hr.shallow (s.tree u) hu, ?_, fun hpath =>
          absurd hrest (Path.branching_cons.mp hpath).1.1⟩
        . rw [hbefore, hafter]
          exact hr.toRemoves
        . rw [hbefore, ← hbk]
          exact hr.comes
      refine Outcome.free (Outcome.mono (ih (f := taken s p) (x := s.addr) (w := s.compressed) ?_
        hst.2.2.2 hwf.2.2.2.2.2 rfl ?_ rfl hb.stack hb.known.tail hb.root hb.restKey ?_)
        fun _ _ _ hr => hturn hr)
      . refine hu.perm (List.perm_iff_count.mpr fun z => ?_)
        simp only [Path.addrs_cons, hleft, hright, Tree.branchAddrs_nil, List.count_append,
          List.count_cons, List.count_nil]
        omega
      . have := Path.leads_step hwf []
        rwa [List.append_nil] at this
      . intro hp
        obtain ⟨hkey, hlt⟩ := hb.key hp
        exact ⟨hkey, hlt, u16_eq hlt⟩
    . exact Outcome.free (combine_proceeds hb hpre0 hrest)
    . refine Outcome.free ?_
      rw [Outcome, if_pos rfl, ← hbk]
      exact reduceArray_proceeds hb hpre0 (by simp [hrest]) fun _ => by simp [hrest]

section Remove

variable {h : Heap} {c : Cursor} {s : Stop} {t : Tree} {K : Key} {o : List Addr}

/-- `remove` at the leaf of the key. -/
theorem remove_proceeds (hh : h.Holds t o) (hends : s.Ends t K) (hc : c.Stopped s)
    (hroot : c.root = t.addr) {a : Addr} {v : Value} (htree : s.tree = .leaf a s.suffix v) :
    OrdMap.erase t.entries K = s.path.before ++ s.path.after ∧
      Outcome (remove h c) s.path.combineFits
        (Proceeds h s.path o t.Shallow (PathOk c.branchKey s.path)) := by
  obtain ⟨hcmp, hrest⟩ := hends.hit htree rfl
  obtain ⟨idx, hstack⟩ := hc.stack
  have hes : OrdMap.erase t.entries K = s.path.before ++ s.path.after := by
    have hasc := Tree.ascending_entries hh.wf
    rw [hends.entries_leaf htree] at hasc ⊢
    exact OrdMap.erase_append_cons hasc.around.1 hasc.around.2
  have hplug := hends.plug
  rw [htree] at hplug hstack
  subst hplug
  obtain ⟨hst, hleaf⟩ := Path.stored_plug.mp hh.stored
  obtain ⟨hpwf, -, -⟩ := Path.wf_plug.mp hh.wf
  have hvalid : c.isValid h.rd = true := by
    have hrd : h.rd a = _ := Tree.stored_leaf.mp hleaf
    rw [isValid, hstack]
    simp only [Tree.addr, hrd, hcmp, beq_self_eq_true]
  refine ⟨hes, ?_⟩
  rw [remove, if_pos hvalid, hstack]
  refine removeNode_proceeds (x := a) (w := s.suffix) hh.uses_plug hst hpwf rfl hends.leads
    (hends.prefixLen_leaf htree) hstack hc.known ?_ ?_ ?_
  . rw [hroot, Path.addr_plug]
    rfl
  . rw [hc.restKey, hrest]
  . intro hshallow
    have hlt := hshallow.str_lt rfl
    refine ⟨?_, hlt, u16_eq hlt⟩
    rw [hc.currentKey]
    exact List.prefix_append _ _

/-- A cursor that is not on a leaf refuses to remove. -/
theorem remove_invalid {c : Cursor} (h : Heap) (hc : c.isValid h.rd = false) :
    remove h c = .error .noValidPosition := by
  rw [remove, hc]
  rfl

end Remove

end Cursor
end Leaves
