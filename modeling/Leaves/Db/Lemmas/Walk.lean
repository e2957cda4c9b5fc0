import Leaves.Db.Lemmas.Find

/-!
`first` and `last` go down to the outermost leaf of a node, `next` and `prev` up to a node with
something beside the path.
-/

namespace Leaves
namespace Cursor

/-- From the node at the end of `p` the cursor has gone down along `r` to a leaf. -/
structure Lands (c c' : Cursor) (p r : Path) (a : Addr) (k : Key) : Prop where
  stack : ∃ idx, c'.stack =
    { node := a, prefixLen := k.length, keypos := u16 (Path.str (r ++ p)).length, cmp := 0,
      linkIdx := idx } :: frames (r ++ p)
  root : c'.root = c.root
  restKey : c'.restKey = c.restKey
  currentKey : c'.currentKey = p.str ++ (r.str ++ k)
  below : ∀ i < p.length, c'.branchKey i = c.branchKey i
  known : Known (fun i => c'.branchKey (p.length + i)) r

theorem leafStep_lands {c : Cursor} {p : Path} {f : Transition} {l : LeafNode} (hkeypos : f.keypos = u16 p.str.length)
    (hpos : p.str.length < 65536) (hkey : c.currentKey = p.str) :
    c.Lands (c.leafStep f (frames p) l) p [] f.node l.key := by
  refine ⟨⟨f.linkIdx, ?_⟩, rfl, rfl, ?_, fun _ _ => rfl, known_nil _⟩
  . simp [leafStep, hkeypos]
  . simp [leafStep, hkeypos, u16_eq hpos, hkey]

/-- From a child back to its node: only the branch key of the node may be set again. -/
theorem Lands.step {c c1 c' : Cursor} {p r : Path} {s : Step} {a : Addr} {k : Key} {b : UInt8}
    (h : c1.Lands c' (s :: p) r a k) (hroot : c1.root = c.root) (hrest : c1.restKey = c.restKey)
    (hbranch : ∀ i < p.length, c1.branchKey i = c.branchKey i)
    (hs : ∀ b', s.branch = some b' → b = b') :
    c.Lands (c'.setBranchKey p.length b) p (r ++ [s]) a k := by
  refine ⟨?_, h.root.trans hroot, h.restKey.trans hrest, ?_, ?_, ?_⟩
  . simpa using h.stack
  . rw [currentKey_setBranchKey, h.currentKey]
    simp [Path.str_append]
  . intro i hi
    rw [branchKey_setBranchKey, if_neg (by omega), h.below i (by rw [List.length_cons]; omega)]
    exact hbranch i hi
  . rw [known_append, known_singleton]
    refine ⟨?_, ?_⟩
    . simpa using hs
    . have hne : ∀ i, ¬ (p.length + (1 + i) = p.length) := by omega
      have := h.known
      simpa [hne, Nat.add_assoc] using this

theorem setBranchKey_self (c : Cursor) (depth : Nat) :
    c.setBranchKey depth (c.branchKey depth) = c := by
  have h : (fun i => if i = depth then c.branchKey depth else c.branchKey i) = c.branchKey := by
    funext i
    split
    next h => rw [h]
    next => rfl
  rw [setBranchKey, h]

/-- The first byte behind a branch. -/
theorem head_of_plug_leaf {r : Path} {a : Addr} {k : Key} {v : Value} {x : Branch × Tree} {b : UInt8}
    (hplug : r.plug (.leaf a k v) = x.2) (hx : Tree.Hangs x) (hb : x.1 = some b) :
    (r.str ++ k).head? = some b := by
  refine Tree.head_of_mem_entries (t := x.2) (v := v) (hx.1.trans hb) ?_
  rw [← hplug, Path.entries_plug]
  simp [Tree.mem_behind]

theorem charAt_append {c : Cursor} {p : Path} {w : Key} {b : UInt8} (hkey : c.currentKey = p.str ++ w)
    (hw : w.head? = some b) : c.charAt p.str.length = b := by
  rw [charAt, hkey, List.getElem?_append_right (Nat.le_refl _), Nat.sub_self,
    ← List.head?_eq_getElem?, hw]
  rfl

section Child

variable {c c1 c' : Cursor} {p r : Path} {s : Step} {a : Addr} {k : Key} {v : Value} {u : Tree}

/-- Back at its node the branch key is set to the first byte below the branch. -/
theorem Lands.parent (h : c1.Lands c' (s :: p) r a k) (hplug : r.plug (.leaf a k v) = u)
    (hu : Tree.Hangs (s.branch, u)) (hroot : c1.root = c.root) (hrest : c1.restKey = c.restKey)
    (hbranch : ∀ i < p.length, c1.branchKey i = c.branchKey i) :
    c.Lands (c'.setBranchKey p.length (c'.charAt (Path.str (s :: p)).length)) p (r ++ [s]) a k := by
  refine h.step hroot hrest hbranch ?_
  intro b hb
  exact charAt_append h.currentKey (head_of_plug_leaf (x := (s.branch, u)) hplug hu hb)

theorem Lands.parent_of_lt (h : c1.Lands c' (s :: p) r a k) (hplug : r.plug (.leaf a k v) = u)
    (hu : Tree.Hangs (s.branch, u)) (hroot : c1.root = c.root) (hrest : c1.restKey = c.restKey)
    (hbranch : ∀ i < p.length, c1.branchKey i = c.branchKey i) :
    c.Lands
      (if (Path.str (s :: p)).length < c'.currentKey.length then
        c'.setBranchKey p.length (c'.charAt (Path.str (s :: p)).length)
      else c') p (r ++ [s]) a k := by
  split
  next => exact h.parent hplug hu hroot hrest hbranch
  next hlt =>
    rw [← setBranchKey_self c' p.length]
    refine h.step hroot hrest hbranch ?_
    intro b hb
    have hhead := head_of_plug_leaf (x := (s.branch, u)) hplug hu hb
    rw [h.currentKey, List.length_append] at hlt
    have hnil : r.str ++ k = [] := List.length_eq_zero_iff.mp (by omega)
    simp [hnil] at hhead

end Child

theorem height_le_maxDepth {t : Tree} (hwf : t.WF) (hshallow : t.Shallow) : t.height ≤ MAX_DEPTH := by
  have := Tree.height_le_deepest hwf
  rw [Tree.Shallow] at hshallow
  rw [MAX_DEPTH, MAX_KEY_SIZE]
  omega

/-- `first` goes to the leaf with nothing left of it. -/
theorem firstTop_lands {rd : Addr → Node} {t u : Tree} {c : Cursor} {p : Path} {n : Nat}
    (h : c.Arrives p u) (hplug : p.plug u = t) (hstored : Tree.Stored rd u) (hwf : u.WF)
    (hshallow : t.Shallow) (hfuel : u.height ≤ n) :
    ∃ r a k v, r.plug (.leaf a k v) = u ∧ r.before = [] ∧
      c.Lands (firstTop rd n c) p r a k := by
  induction u using Tree.induct generalizing c p n with
  | leaf a k v =>
    cases n with
    | zero => simp [Tree.height] at hfuel
    | succ n =>
      obtain ⟨f, hstack, hnode, hkeypos⟩ := h.stack
      have hrd : rd f.node = .leaf ⟨k, v.big, v.bytes⟩ := by
        rw [hnode]
        exact rd_leaf hstored
      refine ⟨[], a, k, v, rfl, rfl, ?_⟩
      have := leafStep_lands (l := ⟨k, v.big, v.bytes⟩) hkeypos (hshallow.str_lt hplug)
        h.currentKey
      rw [firstTop]
      simp only [hstack, hrd]
      rwa [hnode] at this
  | node a k arr ih =>
    cases n with
    | zero => simp [Tree.height] at hfuel
    | succ n =>
      obtain ⟨-, hne, hsort, hh, hw⟩ := Tree.wf_node.mp hwf
      obtain ⟨x, arr, rfl⟩ := List.exists_cons_of_ne_nil hne
      obtain ⟨f, hstack, hnode, hkeypos⟩ := h.stack
      have hrd : rd f.node = .trie ⟨k, Branches.mapSnd Tree.addr (x :: arr)⟩ := by
        rw [hnode]
        exact rd_node hstored
      have hlink := link_append_cons (c := k) (l := []) (r := arr) (x := x)
      rw [List.length_nil, List.nil_append] at hlink
      let s : Step := ⟨a, k, [], x.1, arr⟩
      have hplug' : Path.plug (s :: p) x.2 = t := hplug
      let c1 : Cursor :=
        { c.appendKey k with stack := { f with prefixLen := k.length, cmp := 0, linkIdx := 0 } :: frames p }
      have harr : (c1.push x.2.addr).Arrives (s :: p) x.2 := by
        refine push_arrives ?_ ?_
        . simp [c1, s, taken, hnode, hkeypos, Tree.addr]
        . simp [c1, s, h.currentKey]
      have hheight := Tree.height_lt_of_mem (a := a) (c := k) (l := x :: arr) (x := x) (by simp)
      obtain ⟨r, a', k', v', hr, hbefore, hlands⟩ := ih x (by simp) (n := n) harr hplug'
        (hstored.child (by simp)) (hw x (by simp)) (by omega)
      refine ⟨r ++ [s], a', k', v', ?_, ?_, ?_⟩
      . rw [Path.plug_append, hr]
        rfl
      . simp [Path.before_append, hbefore, Path.before, s]
      . have hkeypos' : u16 (c.currentKey ++ k).length = (Path.str (s :: p)).length := by
          rw [h.currentKey, ← Path.str_cons s p, u16_eq (hshallow.str_lt hplug')]
        rw [firstTop]
        simp only [hstack, hrd, TrieNode.len, hlink, currentKey_appendKey, hkeypos', length_frames]
        exact hlands.parent_of_lt hr (hh x (by simp)) rfl rfl (fun _ _ => rfl)

theorem root_firstTop (rd : Addr → Node) (n : Nat) (c : Cursor) :
    (firstTop rd n c).root = c.root := by
  induction n generalizing c with
  | zero => rfl
  | succ n ih =>
    rw [firstTop]
    split
    . rfl
    . split
      . rfl
      . dsimp only
        split
        . rw [root_setBranchKey, ih]
          rfl
        . rw [ih]
          rfl

/-- `last` goes to the leaf with nothing right of it. -/
theorem lastTop_lands {rd : Addr → Node} {t u : Tree} {c : Cursor} {p : Path} {n : Nat}
    (h : c.Arrives p u) (hplug : p.plug u = t) (hstored : Tree.Stored rd u) (hwf : u.WF)
    (hshallow : t.Shallow) (hfuel : u.height ≤ n) :
    ∃ r a k v, r.plug (.leaf a k v) = u ∧ r.after = [] ∧
      c.Lands (lastTop rd n c) p r a k := by
  induction u using Tree.induct generalizing c p n with
  | leaf a k v =>
    cases n with
    | zero => simp [Tree.height] at hfuel
    | succ n =>
      obtain ⟨f, hstack, hnode, hkeypos⟩ := h.stack
      have hrd : rd f.node = .leaf ⟨k, v.big, v.bytes⟩ := by
        rw [hnode]
        exact rd_leaf hstored
      refine ⟨[], a, k, v, rfl, rfl, ?_⟩
      have := leafStep_lands (l := ⟨k, v.big, v.bytes⟩) hkeypos (hshallow.str_lt hplug) h.currentKey
      rw [lastTop]
      simp only [hstack, hrd]
      rwa [hnode] at this
  | node a k arr ih =>
    cases n with
    | zero => simp [Tree.height] at hfuel
    | succ n =>
      obtain ⟨-, hne, hsort, hh, hw⟩ := Tree.wf_node.mp hwf
      obtain ⟨l, x, rfl⟩ := (List.eq_nil_or_concat' arr).resolve_left hne
      obtain ⟨f, hstack, hnode, hkeypos⟩ := h.stack
      have hrd : rd f.node = .trie ⟨k, Branches.mapSnd Tree.addr (l ++ [x])⟩ := by
        rw [hnode]
        exact rd_node hstored
      have hidx : u16 (TrieNode.count ⟨k, Branches.mapSnd Tree.addr (l ++ [x])⟩ - 1) = l.length := by
        have hlen := Branches.length_le hsort
        rw [TrieNode.count, Branches.length_mapSnd]
        rw [List.length_append, List.length_singleton] at hlen ⊢
        rw [u16_eq (by omega)]
        omega
      let s : Step := ⟨a, k, l, x.1, []⟩
      have hplug' : Path.plug (s :: p) x.2 = t := hplug
      let c1 : Cursor :=
        { c.appendKey k with
          stack := { f with prefixLen := k.length, cmp := 0, linkIdx := l.length } :: frames p }
      have harr : (c1.push x.2.addr).Arrives (s :: p) x.2 := by
        refine push_arrives ?_ ?_
        . simp [c1, s, taken, hnode, hkeypos, Tree.addr]
        . simp [c1, s, h.currentKey]
      have hheight := Tree.height_lt_of_mem (a := a) (c := k) (l := l ++ [x]) (x := x) (by simp)
      obtain ⟨r, a', k', v', hr, hafter, hlands⟩ := ih x (by simp) (n := n) harr hplug'
        (hstored.child (by simp)) (hw x (by simp)) (by omega)
      refine ⟨r ++ [s], a', k', v', ?_, ?_, ?_⟩
      . rw [Path.plug_append, hr]
        rfl
      . simp [Path.after_append, hafter, Path.after, s]
      . have hkeypos' : u16 (c.currentKey ++ k).length = (Path.str (s :: p)).length := by
          rw [h.currentKey, ← Path.str_cons s p, u16_eq (hshallow.str_lt hplug')]
        rw [lastTop]
        simp only [hstack, hrd, TrieNode.len, hidx, link_append_cons, currentKey_appendKey, hkeypos',
          length_frames]
        exact hlands.parent hr (hh x (by simp)) rfl rfl (fun _ _ => rfl)

end Cursor
end Leaves
