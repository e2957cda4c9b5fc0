import Leaves.Db.Lemmas.Leaf
import Leaves.Trie.Room
import Leaves.Trie.Shape

/-!
Inserting a key from the place its search has ended at: the map of the trie afterwards has the key
with its value and is the same otherwise.
-/

namespace Leaves

/-- The pages of the tree hold it and nothing else. The pages `o` are used by others. -/
structure Heap.Holds (h : Heap) (t : Tree) (o : List Addr) : Prop where
  uses : h.Uses (t.addrs ++ o)
  stored : Tree.Stored h.rd t
  wf : t.WF

theorem Heap.Holds.uses_plug {h : Heap} {p : Path} {u : Tree} {o : List Addr}
    (hh : h.Holds (p.plug u) o) : h.Uses (p.addrs ++ (u.addrs ++ o)) := by
  have hperm := (Path.perm_plug p u).append_right o
  rw [List.append_assoc] at hperm
  exact hh.uses.perm hperm

theorem Heap.Holds.of_plug {h : Heap} {p : Path} {u : Tree} {o : List Addr}
    (hu : h.Uses (p.addrs ++ (u.addrs ++ o))) (hst : p.Stored h.rd u.addr)
    (hu' : Tree.Stored h.rd u) (hwf : (p.plug u).WF) : h.Holds (p.plug u) o := by
  have hperm := (Path.perm_plug p u).append_right o
  rw [List.append_assoc] at hperm
  exact ⟨hu.perm hperm.symm, Path.stored_plug.mpr ⟨hst, hu'⟩, hwf⟩

namespace Cursor

/-- The cursor is on a leaf of the trie. Its transitions are those of a search if it is `exact`. -/
structure OnTop (c : Cursor) (t : Tree) (K : Key) (v : Value) (exact : Prop) : Prop where
  stack : ∃ (p : Path) (a : Addr) (k : Key) (idx : Nat) (fs : List Transition),
    p.plug (.leaf a k v) = t ∧ p.str ++ k = K ∧ Known c.branchKey p ∧ fs.length = p.length ∧
      c.stack = ⟨a, k.length, u16 p.str.length, 0, idx⟩ :: fs ∧ (exact → fs = frames p)
  currentKey : c.currentKey = K
  restKey : c.restKey = []

theorem OnTop.stopped {c : Cursor} {t : Tree} {K : Key} {v : Value} {exact : Prop}
    (h : c.OnTop t K v exact) (hwf : t.WF) (hexact : exact) : c.Stopped (t.search [] K) := by
  obtain ⟨p, a, k, idx, fs, hplug, hkey, hknown, -, hstack, hfs⟩ := h.stack
  rw [← hkey, Tree.search_self hplug hwf]
  refine ⟨⟨idx, ?_⟩, h.restKey, ?_, hknown, ?_⟩
  . rw [hstack, hfs hexact]
    rfl
  . rw [h.currentKey, ← hkey]
    simp [Tree.label]
  . intro b w hcmp
    simp [NOT_FOUND] at hcmp

theorem OnTop.mono {c : Cursor} {t : Tree} {K : Key} {v : Value} {exact exact' : Prop}
    (h : c.OnTop t K v exact) (himp : exact' → exact) : c.OnTop t K v exact' := by
  obtain ⟨p, a, k, idx, fs, h1, h2, h3, h4, h5, h6⟩ := h.stack
  exact ⟨⟨p, a, k, idx, fs, h1, h2, h3, h4, h5, fun hexact => h6 (himp hexact)⟩, h.currentKey,
    h.restKey⟩

theorem OnTop.leaf {c : Cursor} {t : Tree} {K : Key} {v : Value} {exact : Prop} {rd : Addr → Node}
    (h : c.OnTop t K v exact) (hst : Tree.Stored rd t) :
    ∃ l, c.leaf? rd = some l ∧ l.big = v.big ∧ l.vdata = v.bytes := by
  obtain ⟨p, a, k, idx, fs, hplug, -, -, -, hstack, -⟩ := h.stack
  have hrd : rd a = .leaf ⟨k, v.big, v.bytes⟩ :=
    Tree.stored_leaf.mp (Path.stored_plug.mp (hplug ▸ hst)).2
  refine ⟨⟨k, v.big, v.bytes⟩, ?_, rfl, rfl⟩
  simp only [leaf?, hstack, hrd, ↓reduceIte]

/--
The trie afterwards has the key with its value, and the cursor is on it. Pages of earlier
transactions are left alone if the operation is `clean`. Short keys leave a `branching` trie
branching.
-/
structure Writes (h : Heap) (es : List (Key × Value)) (K : Key) (v : Value) (o : List Addr)
    (clean exact branching : Prop) (h' : Heap) (c' : Cursor) (t' : Tree) : Prop where
  keeps : clean → h.Keeps h'
  page : ∀ b ∈ o, h'.page b = h.page b
  holds : h'.Holds t' o
  entries : t'.entries = OrdMap.insert es K v
  root : c'.root = t'.addr
  onTop : c'.OnTop t' K v exact
  branching : branching → K.length ≤ 255 → t'.Branching

/-- An operation that writes a leaf ends well if the leaf fits into a page. -/
def Outcome {τ : Type} (r : Except Fault (Heap × Cursor)) (fits : Bool)
    (P : Heap → Cursor → τ → Prop) : Prop :=
  if fits then ∃ h' c' t', r = .ok (h', c') ∧ P h' c' t' else r = .error .pageOverflow

theorem Outcome.mono {τ : Type} {r : Except Fault (Heap × Cursor)} {fits : Bool}
    {P Q : Heap → Cursor → τ → Prop} (h : Outcome r fits P)
    (hpq : ∀ h' c' t', P h' c' t' → Q h' c' t') : Outcome r fits Q := by
  rw [Outcome] at h ⊢
  split at h
  next hfits =>
    obtain ⟨h', c', t', heq, hp⟩ := h
    rw [if_pos hfits]
    exact ⟨h', c', t', heq, hpq h' c' t' hp⟩
  next hfits =>
    rw [if_neg hfits]
    exact h

theorem Writes.mono {h h' : Heap} {es : List (Key × Value)} {K : Key} {v : Value} {o : List Addr}
    {clean clean' exact exact' branching : Prop} {c' : Cursor} {t' : Tree}
    (hw : Writes h es K v o clean exact branching h' c' t') (hclean : clean' → clean)
    (hexact : exact' → exact) : Writes h es K v o clean' exact' branching h' c' t' :=
  ⟨fun hc => hw.keeps (hclean hc), hw.page, hw.holds, hw.entries, hw.root, hw.onTop.mono hexact,
    hw.branching⟩

theorem Writes.of_keeps {h0 h h' : Heap} {es : List (Key × Value)} {K : Key} {v : Value}
    {o : List Addr} {clean exact branching : Prop} {c' : Cursor} {t' : Tree}
    (hw : Writes h es K v o True exact branching h' c' t') (hkeeps : clean → h0.Keeps h)
    (hpage : ∀ b ∈ o, h.page b = h0.page b) : Writes h0 es K v o clean exact branching h' c' t' :=
  ⟨fun hclean => (hkeeps hclean).trans (hw.keeps trivial),
    fun b hb => (hw.page b hb).trans (hpage b hb), hw.holds, hw.entries, hw.root, hw.onTop,
    hw.branching⟩

theorem top_append (q p : Path) (a : Addr) : (q ++ p).top a = p.top (q.top a) := by
  induction q generalizing a with
  | nil => rfl
  | cons s q ih => exact ih s.addr

theorem readdress_frames {p p' : Path} (h : p.Twin p') : readdress (frames p) p' = frames p' := by
  induction h with
  | nil => rfl
  | @cons s s' p p' hs h ih =>
    rw [readdress] at ih ⊢
    rw [frames_cons, frames_cons, List.zipWith_cons_cons, ih]
    have hstr : Path.str p' = Path.str p := Path.Twin.str h
    rw [taken, taken, hstr, hs]

theorem carries_frames (p : Path) : Carries (frames p) p := by
  induction p with
  | nil => exact List.Forall₂.nil
  | cons s p ih => exact List.Forall₂.cons ⟨rfl, rfl⟩ ih

theorem known_twin {branchKey : Nat → UInt8} {p p' : Path} (h : p.Twin p')
    (hk : Known branchKey p) : Known branchKey p' := by
  induction h with
  | nil => exact known_nil _
  | @cons s s' p p' hs h ih =>
    have hlen : p'.length = p.length := Path.Twin.length h
    refine (ih hk.tail).cons ?_
    intro b hb
    rw [hs] at hb
    rw [hlen]
    exact hk [] s p b rfl hb

section Graft

variable {h : Heap} {c : Cursor} {s : Stop} {t : Tree} {K cs : Key} {arr : List (Branch × Tree)}
  {key : Branch} {trie : Addr} {o : List Addr} {v : Value}

/-- The new leaf under the branch that the node had room for, if it fits into a page. -/
theorem Hole.createLeaf {p : Path} (hole : Hole h c (Stop.into trie cs arr key) p o)
    (room : s.Room cs arr key) (hends : s.Ends t K) (ht : s.path.Twin p)
    (hroot : c.root = p.top trie) (hrest : c.restKey = s.rest)
    (hbranching : t.Branching → arr ≠ [] ∧ ∀ x ∈ arr, x.2.Branching) :
    Outcome (Cursor.createLeaf h c v)
      (fitsPage (LeafNode.sizeOf (lastPart s.rest).length v.bytes.length))
      (Writes h t.entries K v o True (c.stack = frames (Stop.into trie cs arr key :: p))
        t.Branching) := by
  rw [Outcome, ← hrest]
  split
  next hfits =>
    obtain ⟨h', c', q, a, heq, hp⟩ := createLeaf_planted hole hfits
    have hstr : Path.str (Stop.into trie cs arr key :: p) ++ c.restKey = K := by
      rw [hrest]
      exact room.str_into ht hends trie
    have hasc := Tree.ascending_entries hp.wf
    have hentries := hp.entries
    rw [hstr] at hentries
    rw [hentries] at hasc
    refine ⟨h', c', _, heq, fun _ => hp.keeps, hp.page, ⟨hp.uses, hp.stored, hp.wf⟩, ?_, ?_, ?_,
      fun hold hlen => ?_⟩
    . rw [hentries, room.around ht hends trie, OrdMap.insert_append hasc.around.1 hasc.around.2]
    . rw [hp.root, hroot, Path.addr_plug, top_append]
      rfl
    . obtain ⟨f, fs, hstack, -, -, hfs⟩ := hole.stack
      refine ⟨⟨_, a, _, NO_LINK, framesOn q (Stop.into trie cs arr key :: p) ++ c.stack, rfl, ?_,
        hp.known, ?_, hp.stack, ?_⟩, ?_, hp.restKey⟩
      . rw [hp.key, hstr]
      . simp [length_framesOn, hstack, hfs]
      . intro hexact
        rw [hexact, frames_append]
      . rw [hp.currentKey, hstr]
    . have hq : q = [] := by
        apply hp.short
        rw [← hstr, List.length_append] at hlen
        omega
      rw [← hends.plug, Path.branching_plug] at hold
      obtain ⟨hne, hchild⟩ := hbranching (hends.plug ▸ Path.branching_plug.mpr hold)
      have harr := Branches.below_append_above room.sorted room.unset
      refine Path.branching_plug.mpr ⟨?_, Tree.branching_leaf _ _ _⟩
      rw [hq, List.nil_append, Path.branching_cons, Stop.into, harr]
      exact ⟨⟨hne, hchild⟩, ht.branching.mpr hold.1⟩
  next hfits =>
    rw [Bool.not_eq_true] at hfits
    exact createLeaf_overflow hole hfits

/--
The node for the new branch is written, and the link to it still leads to the node whose place it
takes.
-/
structure Ready (h : Heap) (c : Cursor) (s : Stop) (cs : Key) (arr : List (Branch × Tree))
    (key : Branch) (trie : Addr) (o : List Addr) : Prop where
  uses : h.Uses (s.path.addrs ++ (trie :: Tree.branchAddrs arr ++ o))
  path : ∃ old, s.path.Stored h.rd old ∧ c.root = s.path.top old
  branches : ∀ x ∈ arr, Tree.Stored h.rd x.2
  node : h.rd trie = .trie (TrieNode.createAdd ⟨cs, Branches.mapSnd Tree.addr arr⟩ key)
  owned : h.needsCow trie = false
  currentKey : c.currentKey = s.path.str ++ cs
  restKey : c.restKey = s.rest
  known : Known c.branchKey s.path
  branch : ∀ b, key = some b → c.branchKey s.path.length = b

theorem Ready.hole (ready : Ready h c s cs arr key trie o) (room : s.Room cs arr key)
    (hwf : s.path.WF) {f : Transition} (hlink : f.linkIdx = (Branches.below arr key).length) :
    ∃ h' c' p, updateOffset h c f (frames s.path) trie = .ok (h', c') ∧ s.path.Twin p ∧
      Hole h' c' (Stop.into trie cs arr key) p o ∧ h.Keeps h' ∧ (∀ b ∈ o, h'.page b = h.page b) ∧
      c'.root = p.top trie ∧ c'.restKey = s.rest ∧
      c'.stack = { f with node := trie } :: frames p := by
  obtain ⟨old, hst, hroot⟩ := ready.path
  obtain ⟨h', root', fs', p, heq, hr⟩ :=
    relink_relinked (a := trie) ready.uses hst (carries_frames s.path) hroot
  have hbranches : Tree.branchAddrs arr = Tree.branchAddrs (Branches.below arr key) ++
      Tree.branchAddrs (Branches.above arr key) := by
    rw [← Tree.branchAddrs_append, Branches.below_append_above room.sorted room.unset]
  have hrd : ∀ b ∈ Tree.branchAddrs arr, h'.rd b = h.rd b := by
    intro b hb
    rw [Heap.rd, hr.page b (by simp [hb])]
    rfl
  have htrie : h'.page trie = h.page trie := hr.page trie (by simp)
  have hchild : ∀ x ∈ arr, Tree.Stored h'.rd x.2 :=
    Tree.stored_congr_branches ready.branches hrd
  have hwf' := room.wf_into hr.twin hwf trie
  refine ⟨h', { c with root := root', stack := { f with node := trie } :: fs' }, p, ?_, hr.twin,
    ⟨?_, ⟨?_, ?_, ?_, ?_⟩, hwf', ?_, ?_, ?_, ?_, ?_⟩, hr.keeps, ?_, hr.root, ready.restKey, ?_⟩
  . simp only [updateOffset, heq, bind, Except.bind]
  . refine hr.uses.perm (List.perm_iff_count.mpr (fun x => ?_))
    simp only [Path.addrs_cons, hbranches, List.count_append, List.count_cons, Stop.into]
    omega
  . rw [Heap.rd, Stop.into, htrie]
    refine ready.node.trans ?_
    simp [TrieNode.createAdd, Branches.insert]
  . exact fun x hx => hchild x (Branches.mem_below.mp hx).1
  . exact fun x hx => hchild x (Branches.mem_above.mp hx).1
  . exact hr.stored
  . rw [Heap.needsCow, Stop.into, htrie, hr.keeps.txnId]
    exact ready.owned
  . refine ⟨_, fs', rfl, rfl, hlink, ?_⟩
    rw [hr.frames, readdress_frames hr.twin, length_frames]
  . rw [Path.str_cons, hr.twin.str]
    exact ready.currentKey
  . refine (known_twin hr.twin ready.known).cons ?_
    intro b hb
    rw [hr.twin.length]
    exact ready.branch b hb
  . rw [← room.key]
    exact congrArg List.head? ready.restKey
  . exact fun b hb => hr.page b (by simp [hb])
  . rw [hr.frames, readdress_frames hr.twin]

/-- The leaf is created below the node that is ready for it, or it does not fit into a page. -/
theorem Ready.replaceNode {f : Transition}
    (ready : Ready (h.free f.node) c s cs arr key trie o) (room : s.Room cs arr key)
    (hends : s.Ends t K) (hwf : s.path.WF) (hlink : f.linkIdx = (Branches.below arr key).length)
    (hbranching : t.Branching → arr ≠ [] ∧ ∀ x ∈ arr, x.2.Branching) :
    Outcome (Cursor.replaceNode h c f (frames s.path) trie v)
      (fitsPage (LeafNode.sizeOf (lastPart s.rest).length v.bytes.length))
      (Writes (h.free f.node) t.entries K v o True
        (f.prefixLen = cs.length ∧ f.keypos = u16 s.path.str.length ∧ f.cmp = 0)
        t.Branching) := by
  obtain ⟨h1, c1, p, heq, ht, hole, hkeeps, hpage, hroot, hrest, hstack⟩ :=
    ready.hole room hwf hlink
  have hreplace : Cursor.replaceNode h c f (frames s.path) trie v = createLeaf h1 c1 v := by
    simp only [Cursor.replaceNode, heq, bind, Except.bind]
  rw [hreplace]
  refine (hole.createLeaf room hends ht hroot hrest hbranching).mono fun h' c' t' hw => ?_
  refine (hw.of_keeps (fun _ => hkeeps) hpage).mono id ?_
  rintro ⟨hpre, hpos, hcmp⟩
  rw [hstack, frames_cons, taken, ht.str]
  simp only [Stop.into, ← hpre, ← hpos, ← hcmp, ← hlink]

end Graft

/-- A new page takes the place of a page that is freed. -/
theorem allocNode_free {h : Heap} {a : Addr} {l : List Addr} (hu : h.Uses (a :: l)) {n : Nat}
    (hfits : fitsPage n = true) (node : Node) :
    ∃ b h1, h.allocNode n node = .ok (b, h1) ∧ (h1.free a).Uses (b :: l) ∧
      h.Keeps (h1.free a) ∧ (h1.free a).rd b = node ∧ (h1.free a).needsCow b = false ∧
      ∀ x ∈ a :: l, (h1.free a).page x = h.page x := by
  obtain ⟨b, h1, heq, ha, hrd⟩ := Heap.allocNode_allocates hu hfits node
  have hnew := (List.nodup_cons.mp ha.uses.nodup).1
  refine ⟨b, h1, heq, Heap.free_uses (ha.uses.perm (List.Perm.swap _ _ _)),
    ha.keeps.trans (Heap.free_keeps ha.uses.recycle a), hrd, ha.owned, ?_⟩
  intro x hx
  exact ha.page x (fun heq => hnew (heq ▸ hx))

/-- The trie with another node at the end of the path. -/
structure Replaces (h : Heap) (p : Path) (u' : Tree) (o : List Addr) (h' : Heap) (root' : Addr)
    (p' : Path) : Prop where
  twin : p.Twin p'
  holds : h'.Holds (p'.plug u') o
  keeps : h.Keeps h'
  page : ∀ b ∈ o, h'.page b = h.page b
  root : root' = (p'.plug u').addr

theorem relink_replaces {h : Heap} {p : Path} {u : Tree} {o : List Addr} {old root : Addr}
    (hu : h.Uses (p.addrs ++ (u.addrs ++ o))) (hst : p.Stored h.rd old)
    (hst' : Tree.Stored h.rd u) (hwf : p.WF) (hfits : p.Fits u) (hwf' : u.WF)
    (hroot : root = p.top old) :
    ∃ h' root' p', relink h root (frames p) u.addr = .ok (h', root', frames p') ∧
      Replaces h p u o h' root' p' := by
  obtain ⟨h', root', fs', p', heq, hr⟩ :=
    relink_relinked (a := u.addr) hu hst (carries_frames p) hroot
  rw [hr.frames, readdress_frames hr.twin] at heq
  have hst2 : Tree.Stored h'.rd u :=
    hst'.congr (fun b hb => by rw [Heap.rd, hr.page b (by simp [hb])]; rfl)
  refine ⟨h', root', p', heq, hr.twin, .of_plug hr.uses hr.stored hst2 ?_, hr.keeps, ?_, ?_⟩
  . exact Path.wf_plug.mpr ⟨hr.twin.wf.mpr hwf, (hr.twin.fits _).mpr hfits, hwf'⟩
  . exact fun b hb => hr.page b (by simp [hb])
  . rw [Path.addr_plug]
    exact hr.root

section Exec

variable {h : Heap} {c : Cursor} {f : Transition} {s : Stop} {t : Tree} {K : Key} {o : List Addr}
  {v : Value}

/-- The leaf of the key is replaced. -/
theorem changeLeaf_hit (hh : h.Holds t o) (hends : s.Ends t K) (hc : c.Stopped s)
    (hroot : c.root = t.addr) {a : Addr} {v0 : Value} (htree : s.tree = .leaf a s.suffix v0)
    (hrest : s.rest = []) (hnode : f.node = a) (hcmp : f.cmp = 0) (hpre : f.prefixLen = s.suffix.length)
    (hpos : f.keypos = u16 s.path.str.length)
    (hfits : fitsPage (LeafNode.sizeOf s.suffix.length v.bytes.length) = true) :
    ∃ h' c' t', changeLeaf h c f (frames s.path) ⟨s.suffix, v0.big, v0.bytes⟩ v = .ok (h', c') ∧
      Writes h t.entries K v o True True t.Branching h' c' t' := by
  have hplug := hends.plug
  rw [htree] at hplug
  subst hplug
  have hu := hh.uses_plug
  obtain ⟨hst, -⟩ := Path.stored_plug.mp hh.stored
  obtain ⟨hpwf, hpfits, hlwf⟩ := Path.wf_plug.mp hh.wf
  rw [Tree.addrs_leaf] at hu
  obtain ⟨b, h1, halloc, hu1, hkeeps, hrd, -, hpage⟩ :=
    allocNode_free (hu.perm List.perm_middle) hfits (.leaf ⟨s.suffix, v.big, v.bytes⟩)
  have hst1 : s.path.Stored (h1.free a).rd a :=
    hst.congr (fun x hx => by rw [Heap.rd, hpage x (by simp [hx])]; rfl)
  obtain ⟨h2, root', p, heq, hr⟩ :=
    relink_replaces (u := .leaf b s.suffix v) (hu1.perm List.perm_middle.symm) hst1
      (Tree.stored_leaf.mpr hrd) hpwf (hpfits.congr rfl fun _ => rfl)
      (Tree.wf_leaf.mpr ⟨(Tree.wf_leaf.mp hlwf).1, hfits⟩) (hroot.trans (Path.addr_plug _ _))
  have hkey : s.path.str ++ s.suffix = K := hends.key.symm
  refine ⟨h2, { c with root := root', stack := { f with node := b } :: frames p },
    p.plug (.leaf b s.suffix v), ?_, fun _ => hkeeps.trans hr.keeps, ?_, hr.holds, ?_, hr.root,
    ⟨⟨p, b, s.suffix, f.linkIdx, frames p, rfl, ?_, known_twin hr.twin hc.known, length_frames p, ?_,
      fun _ => rfl⟩, ?_, ?_⟩, fun hold _ => ?_⟩
  . rw [changeLeaf, if_pos hcmp, hnode]
    simp only [fillLeaf, halloc, bind, Except.bind, updateOffset]
    rw [show b = (Tree.leaf b s.suffix v).addr from rfl, heq]
  . intro x hx
    rw [hr.page x (by simp [hx]), hpage x (by simp [hx])]
  . have hasc := Tree.ascending_entries hr.holds.wf
    have hold := Path.entries_plug s.path (.leaf a s.suffix v0)
    have hnew := hr.twin.entries_plug (.leaf b s.suffix v)
    simp only [Tree.entries_leaf, Tree.behind, List.map_cons, List.map_nil, hkey, List.append_assoc,
      List.singleton_append] at hold hnew
    rw [hnew] at hasc
    rw [hold, hnew, OrdMap.insert_append_cons hasc.around.1 hasc.around.2]
  . rw [hr.twin.str]
    exact hkey
  . rw [hr.twin.str, ← hpos, ← hpre, ← hcmp]
  . have hcur := hc.currentKey
    have hsuf : s.tree.label.take s.prefixLen = s.suffix := by
      rw [Stop.suffix, hrest, List.append_nil]
    rw [hsuf] at hcur
    exact hcur.trans hkey
  . rw [← hrest]
    exact hc.restKey
  . rw [Path.branching_plug] at hold
    exact Path.branching_plug.mpr ⟨hr.twin.branching.mpr hold.1, Tree.branching_leaf _ _ _⟩

theorem index2_eq (okey key : Branch) (u : Tree) :
    TrieNode.index2 okey key = (Branches.below [(okey, u)] key).length := by
  simp only [TrieNode.index2, Branches.below, List.filter_cons]
  split <;> rfl

/-- The old leaf is copied and the node for both keys written. -/
theorem changeLeaf_ready (hh : h.Holds t o) (hends : s.Ends t K) (hc : c.Stopped s)
    (hroot : c.root = t.addr) {a : Addr} {k : Key} {v0 : Value} (htree : s.tree = .leaf a k v0)
    (hne : s.suffix ≠ k) {okey : Branch} (hokey : okey = (k.drop s.prefixLen).head?) :
    ∃ copy h1 trie h2,
      copyReducedLeaf h a ⟨k, v0.big, v0.bytes⟩ s.prefixLen = .ok (copy, h1) ∧
      h1.allocNode (TrieNode.size2 s.prefixLen okey s.rest.head?)
        (.trie (TrieNode.create2 (k.take s.prefixLen) okey copy s.rest.head?)) = .ok (trie, h2) ∧
      s.Room (k.take s.prefixLen) [(okey, .leaf copy (k.drop s.prefixLen) v0)] s.rest.head? ∧
      Ready (h2.free a) (c.setBranchKey (frames s.path).length (s.rest.head?.getD 255)) s
        (k.take s.prefixLen) [(okey, .leaf copy (k.drop s.prefixLen) v0)] s.rest.head? trie o ∧
      ((v0.big = true → h.needsCow a = false) → h.Keeps (h2.free a)) ∧
      (∀ x, (h2.free a).Free x → h.Free x) ∧ h2.txnId = h.txnId ∧
      (∀ x ∈ s.path.addrs ++ (a :: o), h1.page x =
        if x = a ∧ v0.big = true then { h.page a with node := .leaf ⟨k, false, v0.bytes⟩ }
        else h.page x) ∧
      ∀ x ∈ s.path.addrs ++ (a :: o), h2.page x = h1.page x := by
  have hplug := hends.plug
  rw [htree] at hplug
  have hlabel : s.tree.label = k := by rw [htree]; rfl
  have hle : s.prefixLen ≤ k.length := hlabel ▸ hends.le
  obtain ⟨hst, -⟩ := Path.stored_plug.mp (hplug ▸ hh.stored)
  obtain ⟨-, -, hlwf⟩ := Path.wf_plug.mp (hplug ▸ hh.wf)
  obtain ⟨hklen, hkfits⟩ := Tree.wf_leaf.mp hlwf
  have hu := (hplug ▸ hh).uses_plug
  rw [Tree.addrs_leaf, List.singleton_append] at hu
  have hsize : fitsPage (LeafNode.sizeOf (k.length - s.prefixLen) v0.bytes.length) = true := by
    refine fitsPage_mono hkfits ?_
    rw [LeafNode.sizeOf, LeafNode.sizeOf]
    omega
  obtain ⟨copy, h0, halloc1, ha1, hrd1⟩ := Heap.allocNode_allocates hu hsize
    (.leaf ⟨k.drop s.prefixLen, v0.big, v0.bytes⟩)
  have hnew := (List.nodup_cons.mp ha1.uses.nodup).1
  have hnea : copy ≠ a := fun heq => hnew (heq ▸ by simp)
  -- the flag of the old leaf is cleared in place
  obtain ⟨h1, hh1⟩ : ∃ h1, h1 =
      if v0.big then h0.setNode a (.leaf ⟨k, false, v0.bytes⟩) else h0 := ⟨_, rfl⟩
  have hu1 : h1.Uses (copy :: (s.path.addrs ++ (a :: o))) := by
    rw [hh1]
    split
    . exact Heap.setNode_uses ha1.uses _ _
    . exact ha1.uses
  have hfree1 : ∀ x, h1.Free x → h.Free x := by
    intro x hx
    refine ha1.keeps.free x ?_
    rw [hh1] at hx
    split at hx
    . exact hx
    . exact hx
  have htxn1 : h1.txnId = h.txnId := by
    rw [hh1, ← ha1.keeps.txnId]
    split <;> rfl
  have hold : h0.page a = h.page a := ha1.page a (Ne.symm hnea)
  have hpage1 : ∀ x, h1.page x =
      if x = a ∧ v0.big = true then { h.page a with node := .leaf ⟨k, false, v0.bytes⟩ }
      else h0.page x := by
    intro x
    rw [hh1]
    cases v0.big with
    | true => simp [hold]
    | false => simp
  have hkeeps1 : (v0.big = true → h.needsCow a = false) → h.Keeps h1 := by
    intro hclean
    refine ha1.keeps.trans ?_
    rw [hh1]
    split
    next hbig =>
      refine Heap.setNode_keeps ?_ _
      rw [Heap.needsCow, hold, ha1.keeps.txnId]
      exact hclean hbig
    next => exact .refl _
  have room := Stop.room_leaf hends hh.wf copy htree hne
  rw [← hokey] at room
  obtain ⟨trie, h2, halloc2, hu2, hkeeps2, hrd2, hown2, hpage2⟩ :=
    allocNode_free (a := a) (l := copy :: (s.path.addrs ++ o))
      (hu1.perm (List.perm_iff_count.mpr fun x => by
        simp only [List.count_cons, List.count_append]; omega))
      (n := TrieNode.size2 s.prefixLen okey s.rest.head?)
      (fitsPage_iff.mpr ((TrieNode.size2_le (by omega) _ _).trans (by decide)))
      (.trie (TrieNode.create2 (k.take s.prefixLen) okey copy s.rest.head?))
  have hna : a ∉ s.path.addrs ++ o := (List.nodup_cons.mp (hu.perm List.perm_middle).nodup).1
  have hsame1 : ∀ x ∈ s.path.addrs ++ (a :: o), h0.page x = h.page x :=
    fun x hx => ha1.page x fun heq => hnew (heq ▸ hx)
  have hsame2 : ∀ x ∈ s.path.addrs ++ (a :: o), h2.page x = h1.page x := by
    intro x hx
    refine hpage2 x ?_
    simp only [List.mem_append, List.mem_cons] at hx ⊢
    tauto
  have hpath : ∀ x ∈ s.path.addrs, (h2.free a).rd x = h.rd x := by
    intro x hx
    have hmem : x ∈ s.path.addrs ++ (a :: o) := List.mem_append_left _ hx
    have hxa : x ≠ a := by
      rintro rfl
      exact hna (List.mem_append_left _ hx)
    rw [Heap.rd, Heap.page_free, hsame2 x hmem, hpage1, if_neg (fun heq => hxa heq.1),
      hsame1 x hmem]
    rfl
  refine ⟨copy, h1, trie, h2, ?_, halloc2, room, ⟨?_, ⟨a, ?_, ?_⟩, ?_, hrd2, hown2, ?_, hc.restKey,
    ?_, ?_⟩, fun hclean => (hkeeps1 hclean).trans hkeeps2,
    fun x hx => hfree1 x (hkeeps2.free x hx), hkeeps2.txnId.trans htxn1, ?_, hsame2⟩
  . simp only [copyReducedLeaf, LeafNode.vsize, halloc1, bind, Except.bind, hh1]
  . refine hu2.perm (List.perm_iff_count.mpr fun x => ?_)
    simp only [Tree.branchAddrs_cons, Tree.branchAddrs_nil, Tree.addrs_leaf, List.count_cons,
      List.count_append, List.count_nil]
    omega
  . exact hst.congr hpath
  . rw [root_setBranchKey, hroot, ← hplug, Path.addr_plug]
    rfl
  . simp only [List.mem_singleton, forall_eq, Tree.stored_leaf]
    rw [Heap.rd, hpage2 copy (by simp), hpage1, if_neg (fun heq => hnea heq.1)]
    exact hrd1
  . rw [currentKey_setBranchKey, hc.currentKey, hlabel]
  . refine hc.known.set_of_le ?_
    rw [length_frames]
  . intro b hb
    rw [branchKey_setBranchKey, length_frames, if_pos rfl, hb]
    rfl
  . intro x hx
    rw [hpage1, hsame1 x hx]

/-- The leaf of another key becomes a node with both keys. -/
theorem changeLeaf_miss (hh : h.Holds t o) (hends : s.Ends t K) (hc : c.Stopped s)
    (hroot : c.root = t.addr) {a : Addr} {k : Key} {v0 : Value} (htree : s.tree = .leaf a k v0)
    (hne : s.suffix ≠ k) (hnode : f.node = a) (hcmp : f.cmp ≠ 0) (hpre : f.prefixLen = s.prefixLen)
    (hpos : f.keypos = u16 s.path.str.length) :
    Outcome (changeLeaf h c f (frames s.path) ⟨k, v0.big, v0.bytes⟩ v)
      (fitsPage (LeafNode.sizeOf (lastPart s.rest).length v.bytes.length))
      (Writes h t.entries K v o (v0.big = true → h.needsCow a = false) True t.Branching) := by
  have hplug := hends.plug
  rw [htree] at hplug
  have hle : s.prefixLen ≤ k.length := by
    have := hends.le
    rwa [htree] at this
  obtain ⟨hpwf, -, -⟩ := Path.wf_plug.mp (hplug ▸ hh.wf)
  have hu := (hplug ▸ hh).uses_plug
  rw [Tree.addrs_leaf, List.singleton_append] at hu
  obtain ⟨okey, hokey⟩ : ∃ okey, okey = (k.drop s.prefixLen).head? := ⟨_, rfl⟩
  obtain ⟨copy, h1, trie, h2, hcopy, halloc, room, ready, hkeeps, -, -, hpage1, hpage2⟩ :=
    changeLeaf_ready hh hends hc hroot htree hne hokey
  have hres := Ready.replaceNode (v := v)
    (f := { f with cmp := 0, linkIdx := TrieNode.index2 okey s.rest.head? })
    (by rw [hnode]; exact ready) room hends hpwf (index2_eq _ _ _) (fun _ => by simp)
  have heq : changeLeaf h c f (frames s.path) ⟨k, v0.big, v0.bytes⟩ v =
      Cursor.replaceNode h2 (c.setBranchKey (frames s.path).length (s.rest.head?.getD 255))
        { f with cmp := 0, linkIdx := TrieNode.index2 okey s.rest.head? } (frames s.path) trie v := by
    rw [changeLeaf, if_neg hcmp]
    simp only [hpre, hnode, hcopy, bind, Except.bind, ← hokey, hc.restKey, halloc]
  rw [heq]
  refine hres.mono fun h' c' t' hw => ?_
  rw [hnode] at hw
  refine (hw.of_keeps hkeeps ?_).mono id fun _ => ⟨?_, hpos, rfl⟩
  . intro x hx
    have hxa : x ≠ a := by
      rintro rfl
      exact (List.nodup_cons.mp (hu.perm List.perm_middle).nodup).1 (List.mem_append_right _ hx)
    rw [Heap.page_free, hpage2 x (by simp [hx]), hpage1 x (by simp [hx]),
      if_neg (fun heq => hxa heq.1)]
  . rw [List.length_take, Nat.min_eq_left hle]
    exact hpre

theorem noteBranch_fields {p : Path} (key : Branch) (hknown : Known c.branchKey p) :
    (c.noteBranch p.length key).root = c.root ∧
      (c.noteBranch p.length key).currentKey = c.currentKey ∧
      (c.noteBranch p.length key).restKey = c.restKey ∧
      Known (c.noteBranch p.length key).branchKey p ∧
      ∀ b, key = some b → (c.noteBranch p.length key).branchKey p.length = b := by
  cases key with
  | none => exact ⟨rfl, rfl, rfl, hknown, by simp⟩
  | some b =>
    refine ⟨rfl, rfl, rfl, hknown.set_of_le (Nat.le_refl _), ?_⟩
    intro b' hb'
    rw [noteBranch, branchKey_setBranchKey, if_pos rfl]
    exact Option.some.inj hb'

/-- The second part of the string gets a node of its own, and the node for both branches is written.
-/
theorem splitCompressed_ready (hh : h.Holds t o) (hends : s.Ends t K) (hc : c.Stopped s)
    (hroot : c.root = t.addr) {a : Addr} {k : Key} {arr : List (Branch × Tree)}
    (htree : s.tree = .node a k arr) (hlt : s.prefixLen < k.length) {okey : Branch}
    (hokey : okey = (k.drop s.prefixLen).head?) :
    ∃ child h1 trie h2,
      h.allocNode (TrieNode.changedLen ⟨k, Branches.mapSnd Tree.addr arr⟩ (k.length - s.prefixLen))
        (.trie ⟨k.drop s.prefixLen, Branches.mapSnd Tree.addr arr⟩) = .ok (child, h1) ∧
      h1.allocNode (TrieNode.size2 s.prefixLen okey s.rest.head?)
        (.trie (TrieNode.create2 (k.take s.prefixLen) okey child s.rest.head?)) = .ok (trie, h2) ∧
      s.Room (k.take s.prefixLen) [(okey, .node child (k.drop s.prefixLen) arr)] s.rest.head? ∧
      Ready (h2.free a) (c.noteBranch (frames s.path).length s.rest.head?) s (k.take s.prefixLen)
        [(okey, .node child (k.drop s.prefixLen) arr)] s.rest.head? trie o ∧
      h.Keeps (h2.free a) ∧
      (∀ x ∈ s.path.addrs ++ (a :: (Tree.branchAddrs arr ++ o)), h1.page x = h.page x) ∧
      ∀ x ∈ s.path.addrs ++ (a :: (Tree.branchAddrs arr ++ o)), h2.page x = h.page x := by
  have hplug := hends.plug
  rw [htree] at hplug
  have hlabel : s.tree.label = k := by rw [htree]; rfl
  obtain ⟨hst, hnst⟩ := Path.stored_plug.mp (hplug ▸ hh.stored)
  obtain ⟨-, hchild⟩ := Tree.stored_node.mp hnst
  obtain ⟨-, -, hnwf⟩ := Path.wf_plug.mp (hplug ▸ hh.wf)
  obtain ⟨hklen, -, hsort, -, -⟩ := Tree.wf_node.mp hnwf
  have hu := (hplug ▸ hh).uses_plug
  rw [Tree.addrs_node, List.cons_append] at hu
  have hcount : TrieNode.count ⟨k, Branches.mapSnd Tree.addr arr⟩ ≤ 257 := by
    rw [TrieNode.count, Branches.length_mapSnd]
    exact Branches.length_le hsort
  obtain ⟨child, h1, halloc1, ha1, hrd1⟩ := Heap.allocNode_allocates hu
    (n := TrieNode.changedLen ⟨k, Branches.mapSnd Tree.addr arr⟩ (k.length - s.prefixLen))
    (fitsPage_iff.mpr ((TrieNode.changedLen_le _ (by omega) hcount).trans (by decide)))
    (.trie ⟨k.drop s.prefixLen, Branches.mapSnd Tree.addr arr⟩)
  have hnew := (List.nodup_cons.mp ha1.uses.nodup).1
  have room := Stop.room_short hends hh.wf child htree hlt
  rw [← hokey] at room
  obtain ⟨trie, h2, halloc2, hu2, hkeeps2, hrd2, hown2, hpage2⟩ :=
    allocNode_free (a := a) (l := child :: (s.path.addrs ++ (Tree.branchAddrs arr ++ o)))
      (ha1.uses.perm (List.perm_iff_count.mpr fun x => by
        simp only [List.count_cons, List.count_append]; omega))
      (n := TrieNode.size2 s.prefixLen okey s.rest.head?)
      (fitsPage_iff.mpr ((TrieNode.size2_le (by omega) _ _).trans (by decide)))
      (.trie (TrieNode.create2 (k.take s.prefixLen) okey child s.rest.head?))
  have hsame1 : ∀ x ∈ s.path.addrs ++ (a :: (Tree.branchAddrs arr ++ o)), h1.page x = h.page x :=
    fun x hx => ha1.page x fun heq => hnew (heq ▸ hx)
  have hsame2 : ∀ x ∈ s.path.addrs ++ (a :: (Tree.branchAddrs arr ++ o)),
      h2.page x = h.page x := by
    intro x hx
    rw [← hsame1 x hx]
    refine hpage2 x ?_
    simp only [List.mem_append, List.mem_cons] at hx ⊢
    tauto
  have hrd : ∀ x ∈ s.path.addrs ++ (a :: (Tree.branchAddrs arr ++ o)),
      (h2.free a).rd x = h.rd x := by
    intro x hx
    rw [Heap.rd, Heap.page_free, hsame2 x hx]
    rfl
  obtain ⟨hc1, hc2, hc3, hc4, hc5⟩ := noteBranch_fields s.rest.head? hc.known
  obtain ⟨c1, hnote⟩ : ∃ c1, c1 = c.noteBranch (frames s.path).length s.rest.head? := ⟨_, rfl⟩
  rw [← length_frames, ← hnote] at hc1 hc2 hc3 hc4 hc5
  rw [← hnote]
  refine ⟨child, h1, trie, h2, halloc1, halloc2, room, ⟨?_, ⟨a, ?_, ?_⟩, ?_, hrd2, hown2, ?_,
    hc3.trans hc.restKey, hc4, ?_⟩, ha1.keeps.trans hkeeps2, hsame1, hsame2⟩
  . refine hu2.perm (List.perm_iff_count.mpr fun x => ?_)
    simp only [Tree.branchAddrs_cons, Tree.branchAddrs_nil, Tree.addrs_node, List.count_cons,
      List.count_append, List.count_nil]
    omega
  . exact hst.congr fun x hx => hrd x (List.mem_append_left _ hx)
  . rw [hc1, hroot, ← hplug, Path.addr_plug]
    rfl
  . simp only [List.mem_singleton, forall_eq, Tree.stored_node]
    refine ⟨?_, Tree.stored_congr_branches hchild fun x hx => hrd x (by simp [hx])⟩
    rw [Heap.rd, hpage2 child (by simp)]
    exact hrd1
  . rw [hc2, hc.currentKey, hlabel]
  . rwa [← length_frames]

/-- The string of a node is split where the key leaves it. -/
theorem splitCompressed_short (hh : h.Holds t o) (hends : s.Ends t K) (hc : c.Stopped s)
    (hroot : c.root = t.addr) {a : Addr} {k : Key} {arr : List (Branch × Tree)}
    (htree : s.tree = .node a k arr) (hlt : s.prefixLen < k.length) (hnode : f.node = a)
    (hpre : f.prefixLen = s.prefixLen) :
    Outcome (splitCompressed h c f (frames s.path) ⟨k, Branches.mapSnd Tree.addr arr⟩ v)
      (fitsPage (LeafNode.sizeOf (lastPart s.rest).length v.bytes.length))
      (Writes h t.entries K v o True False t.Branching) := by
  have hplug := hends.plug
  rw [htree] at hplug
  obtain ⟨hpwf, -, -⟩ := Path.wf_plug.mp (hplug ▸ hh.wf)
  obtain ⟨okey, hokey⟩ : ∃ okey, okey = (k.drop s.prefixLen).head? := ⟨_, rfl⟩
  obtain ⟨child, h1, trie, h2, halloc1, halloc2, room, ready, hkeeps, -, hpage⟩ :=
    splitCompressed_ready hh hends hc hroot htree hlt hokey
  have hres := Ready.replaceNode (v := v)
    (f := { f with linkIdx := TrieNode.index2 okey s.rest.head? })
    (by rw [hnode]; exact ready) room hends hpwf (index2_eq _ _ _) (fun hold => by
      rw [← hplug, Path.branching_plug] at hold
      simpa using hold.2)
  have heq : splitCompressed h c f (frames s.path) ⟨k, Branches.mapSnd Tree.addr arr⟩ v =
      Cursor.replaceNode h2 (c.noteBranch (frames s.path).length s.rest.head?)
        { f with linkIdx := TrieNode.index2 okey s.rest.head? } (frames s.path) trie v := by
    simp only [splitCompressed, hpre, TrieNode.len, TrieNode.createPrefix, halloc1, bind,
      Except.bind, ← hokey, hc.restKey, halloc2]
  rw [heq]
  refine hres.mono fun h' c' t' hw => ?_
  rw [hnode] at hw
  exact (hw.of_keeps (fun _ => hkeeps) (fun x hx => hpage x (by simp [hx]))).mono id False.elim

/-- The new branch is added to the node in place. -/
theorem inPlace_hole (hh : h.Holds t o) (hends : s.Ends t K) (hc : c.Stopped s) {a : Addr} {k : Key}
    {arr : List (Branch × Tree)} (htree : s.tree = .node a k arr) (room : s.Room k arr s.rest.head?)
    (hlen : s.prefixLen = k.length)
    (hbranch : ∀ b, s.rest.head? = some b → c.branchKey s.path.length = b)
    (hnode : f.node = a) (hidx : f.linkIdx = (Branches.below arr s.rest.head?).length)
    (howned : h.needsCow a = false) (page : Page) (htxn : page.txnId = (h.page a).txnId)
    (hslot : page.slotId = (h.page a).slotId)
    (hpage : page.node =
      .trie (TrieNode.createAdd ⟨k, Branches.mapSnd Tree.addr arr⟩ s.rest.head?)) :
    Hole (h.setPage a page) { c with stack := f :: frames s.path }
        (Stop.into a k arr s.rest.head?) s.path o ∧
      ∀ x ∈ o, (h.setPage a page).page x = h.page x := by
  have hplug := hends.plug
  rw [htree] at hplug
  have hlabel : s.tree.label = k := by rw [htree]; rfl
  obtain ⟨hst, hnst⟩ := Path.stored_plug.mp (hplug ▸ hh.stored)
  obtain ⟨-, hchild⟩ := Tree.stored_node.mp hnst
  obtain ⟨hpwf, -, -⟩ := Path.wf_plug.mp (hplug ▸ hh.wf)
  have hu := (hplug ▸ hh).uses_plug
  rw [Tree.addrs_node] at hu
  have hnd := (List.nodup_cons.mp (hu.perm List.perm_middle).nodup).1
  have hu1 : (h.setPage a page).Uses (s.path.addrs ++ (a :: Tree.branchAddrs arr ++ o)) :=
    Heap.setPage_uses hu hslot
  have hkeep : ∀ x ∈ s.path.addrs ++ (Tree.branchAddrs arr ++ o),
      (h.setPage a page).page x = h.page x := by
    intro x hx
    rw [Heap.page_setPage, if_neg]
    rintro rfl
    exact hnd hx
  have hchild1 : ∀ x ∈ arr, Tree.Stored (h.setPage a page).rd x.2 :=
    Tree.stored_congr_branches hchild fun x hx => by
      rw [Heap.rd, hkeep x (List.mem_append_right _ (List.mem_append_left _ hx))]
      rfl
  refine ⟨⟨?_, ⟨?_, ?_, ?_, ?_⟩, room.wf_into (.refl _) hpwf a, ?_, ?_, ?_, ?_, ?_⟩, ?_⟩
  . refine hu1.perm (List.perm_iff_count.mpr fun x => ?_)
    have harr := Branches.below_append_above room.sorted room.unset
    have hcount := congrArg (fun l => List.count x (Tree.branchAddrs l)) harr
    simp only [Tree.branchAddrs_append, List.count_append] at hcount
    simp only [Path.addrs_cons, List.count_append, List.count_cons, Stop.into]
    omega
  . rw [Heap.rd, Stop.into, Heap.page_setPage, if_pos rfl, hpage]
    simp [TrieNode.createAdd, Branches.insert]
  . exact fun x hx => hchild1 x (Branches.mem_below.mp hx).1
  . exact fun x hx => hchild1 x (Branches.mem_above.mp hx).1
  . refine hst.congr fun x hx => ?_
    rw [Heap.rd, hkeep x (List.mem_append_left _ hx)]
    rfl
  . rw [Heap.needsCow, Stop.into, Heap.page_setPage, if_pos rfl, htxn]
    exact howned
  . exact ⟨f, frames s.path, rfl, hnode, hidx, length_frames _⟩
  . rw [Path.str_cons]
    refine hc.currentKey.trans ?_
    rw [hlabel, hlen, List.take_length]
    rfl
  . exact hc.known.cons hbranch
  . exact congrArg List.head? hc.restKey
  . exact fun x hx => hkeep x (List.mem_append_right _ (List.mem_append_right _ hx))

/-- The branch that is missing, as `addToArray` computes it. -/
theorem missing_branch (hc : c.Stopped s)
    (hbranch : ∀ b, s.rest.head? = some b → c.branchKey s.path.length = b) :
    (if c.restKey = [] then none else some (c.branchKey (frames s.path).length)) =
      s.rest.head? := by
  rw [hc.restKey, length_frames]
  cases hr : s.rest with
  | nil => rfl
  | cons b w => simp [hbranch b (by simp [hr])]

/-- The copy of the node with the new branch is written. -/
theorem addToArray_ready (hh : h.Holds t o) (hends : s.Ends t K) (hc : c.Stopped s)
    (hroot : c.root = t.addr) {a : Addr} {k : Key} {arr : List (Branch × Tree)}
    (htree : s.tree = .node a k arr) (hlen : s.prefixLen = k.length)
    (hset : Branches.isset arr s.rest.head? = false)
    (hbranch : ∀ b, s.rest.head? = some b → c.branchKey s.path.length = b) :
    ∃ trie h1,
      h.allocNode (TrieNode.incrementSize ⟨k, Branches.mapSnd Tree.addr arr⟩ s.rest.head?)
        (.trie (TrieNode.createAdd ⟨k, Branches.mapSnd Tree.addr arr⟩ s.rest.head?)) =
          .ok (trie, h1) ∧
      Ready (h1.free a) c s k arr s.rest.head? trie o ∧ h.Keeps (h1.free a) ∧
      ∀ x ∈ s.path.addrs ++ (a :: (Tree.branchAddrs arr ++ o)), h1.page x = h.page x := by
  have hplug := hends.plug
  rw [htree] at hplug
  have hlabel : s.tree.label = k := by rw [htree]; rfl
  obtain ⟨hst, hnst⟩ := Path.stored_plug.mp (hplug ▸ hh.stored)
  obtain ⟨-, hchild⟩ := Tree.stored_node.mp hnst
  obtain ⟨-, -, hnwf⟩ := Path.wf_plug.mp (hplug ▸ hh.wf)
  obtain ⟨hklen, -, hsort, -, -⟩ := Tree.wf_node.mp hnwf
  have hu := (hplug ▸ hh).uses_plug
  rw [Tree.addrs_node, List.cons_append] at hu
  have hcount : TrieNode.count ⟨k, Branches.mapSnd Tree.addr arr⟩ ≤ 256 := by
    rw [TrieNode.count, Branches.length_mapSnd]
    exact Branches.length_lt_of_unset hsort hset
  obtain ⟨trie, h1, halloc, hu1, hkeeps, hrd, hown, hpage⟩ :=
    allocNode_free (hu.perm List.perm_middle)
      (n := TrieNode.incrementSize ⟨k, Branches.mapSnd Tree.addr arr⟩ s.rest.head?)
      (fitsPage_iff.mpr ((TrieNode.incrementSize_le ⟨k, _⟩ _ hklen hcount).trans (by decide)))
      (.trie (TrieNode.createAdd ⟨k, Branches.mapSnd Tree.addr arr⟩ s.rest.head?))
  have hsame : ∀ x ∈ s.path.addrs ++ (a :: (Tree.branchAddrs arr ++ o)), h1.page x = h.page x := by
    intro x hx
    refine hpage x ?_
    simp only [List.mem_append, List.mem_cons] at hx ⊢
    tauto
  have hrd' : ∀ x ∈ s.path.addrs ++ (a :: (Tree.branchAddrs arr ++ o)),
      (h1.free a).rd x = h.rd x := by
    intro x hx
    rw [Heap.rd, Heap.page_free, hsame x hx]
    rfl
  refine ⟨trie, h1, halloc, ⟨hu1.perm List.perm_middle.symm, ⟨a, ?_, ?_⟩, ?_, hrd, hown, ?_,
    hc.restKey, hc.known, hbranch⟩, hkeeps, hsame⟩
  . exact hst.congr fun x hx => hrd' x (List.mem_append_left _ hx)
  . rw [hroot, ← hplug, Path.addr_plug]
    rfl
  . exact Tree.stored_congr_branches hchild fun x hx => hrd' x (by simp [hx])
  . rw [hc.currentKey, hlabel, hlen, List.take_length]

/-- The node gets a new branch, in place or in a copy. -/
theorem addToArray_missing (hh : h.Holds t o) (hends : s.Ends t K) (hc : c.Stopped s)
    (hroot : c.root = t.addr) {a : Addr} {k : Key} {arr : List (Branch × Tree)}
    (htree : s.tree = .node a k arr) (hlen : s.prefixLen = k.length)
    (hset : Branches.isset arr s.rest.head? = false)
    (hbranch : ∀ b, s.rest.head? = some b → c.branchKey s.path.length = b) (hnode : f.node = a)
    (hpre : f.prefixLen = s.prefixLen) (hpos : f.keypos = u16 s.path.str.length) :
    Outcome (addToArray h c f (frames s.path) ⟨k, Branches.mapSnd Tree.addr arr⟩ v)
      (fitsPage (LeafNode.sizeOf (lastPart s.rest).length v.bytes.length))
      (Writes h t.entries K v o True True t.Branching) := by
  have hplug := hends.plug
  rw [htree] at hplug
  obtain ⟨hpwf, -, -⟩ := Path.wf_plug.mp (hplug ▸ hh.wf)
  have room := Stop.room_missing hends hh.wf htree hlen hset
  have hbranching : t.Branching → arr ≠ [] ∧ ∀ x ∈ arr, x.2.Branching := by
    intro hold
    rw [← hplug, Path.branching_plug, Tree.branching_node] at hold
    refine ⟨?_, hold.2.2⟩
    apply List.length_pos_iff.mp
    omega
  obtain ⟨f1, hf1⟩ : ∃ f1 : Transition, f1 =
      { f with cmp := 0, linkIdx := (Branches.below arr s.rest.head?).length } := ⟨_, rfl⟩
  have hidx : f1.linkIdx = (Branches.below arr s.rest.head?).length := by rw [hf1]
  have hnode1 : f1.node = a := by rw [hf1]; exact hnode
  have hexact : f1.prefixLen = k.length ∧ f1.keypos = u16 s.path.str.length ∧ f1.cmp = 0 := by
    rw [hf1]
    exact ⟨hpre.trans hlen, hpos, rfl⟩
  have hadd : TrieNode.addIndex ⟨k, Branches.mapSnd Tree.addr arr⟩ s.rest.head? =
      (Branches.below arr s.rest.head?).length := by
    simp [TrieNode.addIndex]
  rw [addToArray, missing_branch hc hbranch, hadd, ← hf1]
  simp only [hnode1]
  split
  next hown =>
    obtain ⟨hole, hpage⟩ := inPlace_hole (f := f1) hh hends hc htree room hlen hbranch hnode1 hidx
      hown.1 ({ h.page a with
        used := TrieNode.incrementSize ⟨k, Branches.mapSnd Tree.addr arr⟩ s.rest.head?,
        node := .trie (TrieNode.createAdd ⟨k, Branches.mapSnd Tree.addr arr⟩ s.rest.head?) })
      rfl rfl rfl
    have hroot' : c.root = s.path.top a := by
      rw [hroot, ← hplug, Path.addr_plug]
      rfl
    refine (hole.createLeaf room hends (.refl _) hroot' hc.restKey hbranching).mono
      fun h' c' t' hw => ?_
    refine (hw.of_keeps (fun _ => Heap.setPage_keeps hown.1 _) hpage).mono id fun _ => ?_
    rw [frames_cons, taken]
    simp only [Stop.into, ← hexact.1, ← hexact.2.1, ← hexact.2.2, ← hidx, ← hnode1]
  next =>
    obtain ⟨trie, h1, halloc, ready, hkeeps, hpage⟩ :=
      addToArray_ready hh hends hc hroot htree hlen hset hbranch
    rw [← hnode1] at ready
    simp only [halloc, bind, Except.bind]
    refine (ready.replaceNode room hends hpwf hidx hbranching).mono fun h' c' t' hw => ?_
    rw [hnode1] at hw
    exact (hw.of_keeps (fun _ => hkeeps) fun x hx => hpage x (by simp [hx])).mono id
      fun _ => hexact

end Exec

section Value

variable {h : Heap} {c : Cursor} {s : Stop} {t : Tree} {K : Key} {o : List Addr} {v : Value}

/-- The end of the key that is stored in the leaf that `value` writes. -/
def newLeafKey (s : Stop) : Key := if s.cmp = 0 then s.tree.label else lastPart s.rest

/-- No leaf of an earlier transaction loses its flag, see `copyReducedLeaf`. -/
def KeepsFlag (h : Heap) (s : Stop) : Prop :=
  match s.tree with
  | .leaf a _ v => s.cmp ≠ 0 → v.big = true → h.needsCow a = false
  | .node _ _ _ => True

/-- The search has not ended inside the string of a trie node. -/
def AtEnd (s : Stop) : Prop := s.tree.isLeaf = true ∨ s.prefixLen = s.tree.label.length

section Cases

variable {f : Transition} {fs : List Transition}

theorem value_leaf (hstack : c.stack = f :: fs) {l : LeafNode} (hrd : h.rd f.node = .leaf l) :
    value h c v = changeLeaf h c f fs l v := by
  rw [value, hstack]
  simp only [insertExec, hrd]

theorem value_add (hstack : c.stack = f :: fs) {n : TrieNode} (hrd : h.rd f.node = .trie n)
    (hlen : f.prefixLen = n.len) : value h c v = addToArray h c f fs n v := by
  rw [value, hstack]
  simp only [insertExec, hrd, hlen, ↓reduceIte]

theorem value_split (hstack : c.stack = f :: fs) {n : TrieNode} (hrd : h.rd f.node = .trie n)
    (hlen : f.prefixLen ≠ n.len) : value h c v = splitCompressed h c f fs n v := by
  rw [value, hstack]
  simp only [insertExec, hrd, hlen, ↓reduceIte]

end Cases

/-- Every search ends at the leaf of the key, or at a place with room for it. -/
theorem value_outcome (hh : h.Holds t o) (hends : s.Ends t K) (hc : c.Stopped s)
    (hroot : c.root = t.addr) :
    Outcome (value h c v) (fitsPage (LeafNode.sizeOf (newLeafKey s).length v.bytes.length))
      (Writes h t.entries K v o (KeepsFlag h s) (AtEnd s) t.Branching) := by
  obtain ⟨idx, hstack⟩ := hc.stack
  have hst := (Path.stored_plug.mp (hends.plug ▸ hh.stored)).2
  have hneq : s.suffix = s.tree.label → s.prefixLen = s.tree.label.length := by
    intro heq
    rw [hends.prefixLen, heq, getPrefix_self]
  match htree : s.tree with
  | .leaf a k v0 =>
    rw [htree] at hst hstack
    rw [value_leaf hstack (Tree.stored_leaf.mp hst)]
    by_cases hkey : s.suffix = k
    . obtain ⟨hcmp, hrest⟩ := hends.hit htree hkey
      have hlabel : newLeafKey s = s.suffix := by
        rw [newLeafKey, if_pos hcmp, htree, hkey]
        rfl
      have hpre : s.prefixLen = s.suffix.length := by
        have hlen := hneq (by rw [htree]; exact hkey)
        rwa [htree, Tree.label, ← hkey] at hlen
      rw [hlabel, Outcome]
      rw [← hkey] at htree ⊢
      split
      next hfits =>
        obtain ⟨h', c', t', heq, hw⟩ := changeLeaf_hit (v := v) hh hends hc hroot htree hrest
          (f := ⟨a, s.prefixLen, u16 s.path.str.length, s.cmp, idx⟩) rfl hcmp hpre rfl hfits
        exact ⟨h', c', t', heq, hw.mono (fun _ => trivial) (fun _ => trivial)⟩
      next hfits =>
        rw [Bool.not_eq_true] at hfits
        rw [changeLeaf, if_pos hcmp]
        simp only [fillLeaf, Heap.allocNode_of_not_fits h hfits, bind, Except.bind]
    . have hcmp : s.cmp ≠ 0 := hends.miss htree hkey
      rw [newLeafKey, if_neg hcmp]
      refine (changeLeaf_miss hh hends hc hroot htree hkey rfl hcmp rfl rfl).mono
        fun h' c' t' hw => hw.mono (fun hkeeps => ?_) (fun _ => trivial)
      rw [KeepsFlag, htree] at hkeeps
      exact hkeeps hcmp
  | .node a k arr =>
    rw [htree] at hst hstack
    have hrd := (Tree.stored_node.mp hst).1
    have hcmp : s.cmp ≠ 0 := hends.cmp_ne_zero htree
    rw [newLeafKey, if_neg hcmp]
    by_cases hlen : s.prefixLen = k.length
    . rw [value_add hstack hrd hlen]
      refine (addToArray_missing hh hends hc hroot htree hlen (hends.unset htree hlen) ?_ rfl rfl
        rfl).mono fun h' c' t' hw => hw.mono (fun _ => trivial) (fun _ => trivial)
      intro b hb
      obtain ⟨w, hw⟩ : ∃ w, s.rest = b :: w := by
        cases hr : s.rest with
        | nil => simp [hr] at hb
        | cons b' w => exact ⟨w, by simp_all⟩
      exact hc.missing b w (hends.cmp_missing htree hlen hw) hw
    . rw [value_split hstack hrd hlen]
      have hlt : s.prefixLen < k.length := by
        have hle := hends.le
        rw [htree, Tree.label] at hle
        omega
      refine (splitCompressed_short hh hends hc hroot htree hlt rfl rfl).mono
        fun h' c' t' hw => hw.mono (fun _ => trivial) ?_
      rw [AtEnd, htree]
      rintro (hleaf | hend)
      . simp [Tree.isLeaf] at hleaf
      . exact hlen hend

/-- The root of the first trie has a chain of nodes below it if the key is long. -/
theorem firstBigkey_hole (hu : h.Uses o) (hcur : c.currentKey = []) (hlen : 255 < c.restKey.length) :
    ∃ trie h1 s1, h.allocNode (TrieNode.sizeMax 255 1) (bigkeyNode c.restKey) = .ok (trie, h1) ∧
      ∀ f : Transition, Hole h1 (c.enterRoot f trie).fillBigkey s1 [] o ∧ h.Keeps h1 ∧
        (∀ x ∈ o, h1.page x = h.page x) ∧ s1.addr = trie ∧ Path.str [s1] = c.restKey.take 255 ∧
        Path.before [s1] = [] ∧ Path.after [s1] = [] ∧
        (f.keypos = 0 → (c.enterRoot f trie).fillBigkey.stack = frames [s1]) := by
  obtain ⟨trie, h1, halloc, ha, hrd⟩ := Heap.allocNode_allocates hu
    (n := TrieNode.sizeMax 255 1) (by decide) (bigkeyNode c.restKey)
  have hnew := (List.nodup_cons.mp ha.uses.nodup).1
  have hrest : (c.restKey.take 255).length = 255 := by
    rw [List.length_take]
    omega
  obtain ⟨b, hb⟩ : ∃ b, (c.restKey.drop 255).head? = some b := by
    cases hd : c.restKey.drop 255 with
    | nil =>
      have := List.drop_eq_nil_iff.mp hd
      omega
    | cons b w => exact ⟨b, rfl⟩
  refine ⟨trie, h1, ⟨trie, c.restKey.take 255, [], (c.restKey.drop 255).head?, []⟩, halloc, ?_⟩
  intro f
  refine ⟨⟨?_, ⟨hrd, by simp, by simp, trivial⟩, ?_, ha.owned, ⟨_, [], rfl, rfl, rfl, rfl⟩, ?_,
    ?_, ?_⟩, ha.keeps, ?_, rfl, by simp, by simp [Path.before], by simp [Path.after], ?_⟩
  . refine ha.uses.perm (List.perm_iff_count.mpr fun x => ?_)
    simp
  . exact ⟨by simp only [hrest, Nat.le_refl], by simp [Branches.Sorted], by simp, by simp,
      fun _ => trivial, trivial⟩
  . simp [fillBigkey, enterRoot, hcur]
  . refine (known_nil _).cons ?_
    intro b' hb'
    have hb'' : (c.restKey.drop 255).head? = some b' := hb'
    simp [fillBigkey, enterRoot, hb'']
  . simp [fillBigkey, enterRoot]
  . exact fun x hx => ha.page x (fun heq => hnew (heq ▸ hx))
  . intro hpos
    simp [fillBigkey, enterRoot, taken, hrest, hpos, u16]

/-- The very first value. -/
theorem value_first (hu : h.Uses o) (hroot : c.root = 0) (hstack : c.stack = [])
    (hcur : c.currentKey = []) :
    Outcome (value h c v)
      (fitsPage (LeafNode.sizeOf (lastPart c.restKey).length v.bytes.length))
      (Writes h [] c.restKey v o True True True) := by
  have hpos : u16 c.currentKey.length = 0 := by simp [hcur, u16]
  have hpush : (c.push 0).restKey = c.restKey := rfl
  have hvalue : value h c v =
      firstExec h (c.push 0) ⟨0, 0, u16 c.currentKey.length, UNDEFINED, NO_LINK⟩ v := by
    rw [value, hstack]
    simp only [hroot, ↓reduceIte]
  rw [hvalue, firstExec, hpos, hpush]
  by_cases hlen : 255 < c.restKey.length
  . rw [if_pos hlen]
    obtain ⟨trie, h1, s1, halloc, hhole⟩ := firstBigkey_hole (c := c.push 0) hu hcur hlen
    obtain ⟨hole, hkeeps, hpage, haddr, hstr, hbefore, hafter, hframes⟩ :=
      hhole ⟨0, 0, 0, UNDEFINED, NO_LINK⟩
    rw [hpush] at halloc
    simp only [halloc, bind, Except.bind]
    obtain ⟨c1, hc1⟩ : ∃ c1, c1 =
        ((c.push 0).enterRoot ⟨0, 0, 0, UNDEFINED, NO_LINK⟩ trie).fillBigkey := ⟨_, rfl⟩
    have hc1rest : c1.restKey = c.restKey.drop 255 := by rw [hc1]; rfl
    have hc1root : c1.root = trie := by rw [hc1]; rfl
    rw [← hc1] at hole hframes ⊢
    rw [← lastPart_drop hlen, ← hc1rest, Outcome]
    have hkey : Path.str [s1] ++ c1.restKey = c.restKey := by
      rw [hstr, hc1rest, hpush, List.take_append_drop]
    split
    next hfits =>
      obtain ⟨h', c', q, a, heq, hp⟩ := createLeaf_planted hole hfits
      refine ⟨h', c', _, heq, fun _ => hkeeps.trans hp.keeps, ?_, ⟨hp.uses, hp.stored, hp.wf⟩, ?_,
        ?_, ⟨⟨_, a, _, NO_LINK, framesOn q [s1] ++ c1.stack, rfl, ?_, hp.known, ?_, hp.stack, ?_⟩,
          ?_, hp.restKey⟩, fun _ hshort => by omega⟩
      . exact fun x hx => (hp.page x hx).trans (hpage x hx)
      . rw [hp.entries, hbefore, hafter, hkey]
        rfl
      . rw [hp.root, hc1root, Path.addr_plug, top_append, ← haddr]
        rfl
      . rw [hp.key, hkey]
      . rw [hframes rfl]
        simp [length_framesOn]
      . intro _
        rw [hframes rfl, frames_append]
      . rw [hp.currentKey, hkey]
    next hfits =>
      rw [Bool.not_eq_true] at hfits
      exact createLeaf_overflow hole hfits
  . rw [if_neg hlen, lastPart_of_le (by omega), Outcome]
    split
    next hfits =>
      obtain ⟨a, h1, halloc, ha, hrd⟩ := Heap.allocNode_allocates hu hfits
        (.leaf ⟨c.restKey, v.big, v.bytes⟩)
      have hnew := (List.nodup_cons.mp ha.uses.nodup).1
      refine ⟨h1, ((c.push 0).enterRoot ⟨0, 0, 0, UNDEFINED, NO_LINK⟩ a).enterLeaf,
        .leaf a c.restKey v, ?_, fun _ => ha.keeps, ?_, ⟨ha.uses, ?_, ?_⟩, rfl, rfl,
        ⟨⟨[], a, c.restKey, NO_LINK, [], rfl, rfl, known_nil _, rfl, rfl, fun _ => rfl⟩, ?_, ?_⟩,
        fun _ _ => Tree.branching_leaf _ _ _⟩
      . simp only [fillLeaf, halloc, bind, Except.bind]
      . exact fun x hx => ha.page x (fun heq => hnew (heq ▸ hx))
      . exact Tree.stored_leaf.mpr hrd
      . exact Tree.wf_leaf.mpr ⟨by omega, hfits⟩
      . simp [enterLeaf, enterRoot, hcur]
      . simp [enterLeaf, enterRoot]
    next hfits =>
      rw [Bool.not_eq_true] at hfits
      simp only [fillLeaf, Heap.allocNode_of_not_fits h hfits, bind, Except.bind]

end Value

end Cursor
end Leaves
