import Leaves.Db.Lemmas.Walk

/-!
`next`: from where a search has ended to the next leaf of the trie.
-/

namespace Leaves
namespace Cursor

theorem Lands.stopped {c c' : Cursor} {p r : Path} {a : Addr} {k : Key} (h : c.Lands c' p r a k)
    (hknown : Known c.branchKey p) (hrest : c.restKey = []) (v : Value) :
    c'.Stopped ⟨r ++ p, .leaf a k v, k.length, 0, []⟩ := by
  refine ⟨h.stack, h.restKey.trans hrest, ?_, ?_, ?_⟩
  . rw [h.currentKey]
    simp [Path.str_append, Tree.label]
  . rw [known_append]
    refine ⟨?_, h.known⟩
    intro q s r' b hp hb
    have hlen : r'.length < p.length := by
      simp only [hp, List.length_append, List.length_cons]
      omega
    rw [h.below _ hlen]
    exact hknown q s r' b hp hb
  . intro b w hcmp
    simp [NOT_FOUND] at hcmp

/-- A subtree is done, the cursor is back at the node it hangs under. -/
structure Returns (c : Cursor) (p : Path) : Prop where
  stack : c.stack = frames p
  currentKey : c.currentKey = p.str
  restKey : c.restKey = []
  known : Known c.branchKey p

theorem pop_returns {c : Cursor} {f : Transition} {p : Path} (hstack : c.stack = f :: frames p)
    (hpos : f.keypos = p.str.length) (hkey : p.str <+: c.currentKey) (hrest : c.restKey = [])
    (hknown : Known c.branchKey p) : c.pop.Returns p := by
  obtain ⟨w, hw⟩ := hkey
  rw [pop, hstack]
  refine ⟨rfl, ?_, hrest, hknown⟩
  simp [hpos, ← hw]

theorem root_pop (c : Cursor) : c.pop.root = c.root := by
  rw [pop]
  split <;> rfl

theorem root_nextTop (rd : Addr → Node) (c : Cursor) : (nextTop rd c).2.root = c.root := by
  rw [nextTop]
  split
  . rfl
  . split
    . split <;> rfl
    . dsimp only
      split
      . split
        . rfl
        . rw [root_setBranchKey, root_firstTop]
          rfl
      . split
        . split
          . rfl
          . rw [root_firstTop]
            rfl
        . split
          . rfl
          . rw [root_firstTop]
            rfl

theorem root_nextLoop (rd : Addr → Node) (n : Nat) (c : Cursor) :
    (nextLoop rd n c).root = c.root := by
  induction n generalizing c with
  | zero => rfl
  | succ n ih =>
    have htop := root_nextTop rd c
    rw [nextLoop]
    split
    . rfl
    . split
      next c' heq =>
        rw [heq] at htop
        exact htop
      next c' heq =>
        rw [heq] at htop
        rw [ih, root_pop]
        exact htop

theorem root_next (rd : Addr → Node) (c : Cursor) : (c.next rd).root = c.root := by
  rw [next, root_nextLoop]

/-- A leaf the cursor has come to. -/
structure OnLeaf (c : Cursor) (t : Tree) (q : Path) (a : Addr) (k : Key) (v : Value) : Prop where
  plug : q.plug (.leaf a k v) = t
  stopped : c.Stopped ⟨q, .leaf a k v, k.length, 0, []⟩

/-- A cursor that is on a leaf or nowhere. -/
def Rests (c : Cursor) (m : Trie) : Prop :=
  c.stack = [] ∨ ∃ t q a k v, m = some t ∧ c.OnLeaf t q a k v

/-- The cursor has left the entries `l` behind: it is on the next leaf, or there is none. -/
def Comes (c : Cursor) (m : Trie) (l : List (Key × Value)) : Prop :=
  l = m.entries ∧ c.stack = [] ∨ ∃ t q a k v, m = some t ∧ c.OnLeaf t q a k v ∧ q.before = l

theorem Comes.rests {c : Cursor} {m : Trie} {l : List (Key × Value)} (h : c.Comes m l) :
    c.Rests m := by
  rcases h with ⟨-, hnil⟩ | ⟨t, q, a, k, v, hm, hleaf, -⟩
  . exact Or.inl hnil
  . exact Or.inr ⟨t, q, a, k, v, hm, hleaf⟩

section Next

variable {rd : Addr → Node} {t : Tree}

/-- The branch behind the one the cursor comes from. -/
theorem nextTop_returns {c : Cursor} {s : Step} {p : Path} {u : Tree} (h : c.Returns (s :: p))
    (hplug : Path.plug (s :: p) u = t) (hstored : Tree.Stored rd t) (hwf : t.WF)
    (hshallow : t.Shallow) :
    (s.right = [] ∧ ∃ c', nextTop rd c = (false, c') ∧ c'.root = c.root ∧ c'.pop.Returns p) ∨
    (∃ c' q a k v, nextTop rd c = (true, c') ∧ c'.root = c.root ∧ c'.OnLeaf t q a k v ∧
      q.before = Path.before (s :: p) ++ Tree.behind (Path.str (s :: p)) u.entries) := by
  have hstored' : Tree.Stored rd (s.tree u) := (Path.stored_plug (p := p).mp (hplug ▸ hstored)).2
  have hwf' : (s.tree u).WF := (Path.wf_plug (p := p).mp (hplug ▸ hwf)).2.2
  obtain ⟨-, -, hsort, hh, hw⟩ := Tree.wf_node.mp hwf'
  have hlen := Branches.length_le hsort
  have hpos : u16 p.str.length = p.str.length := u16_eq (hshallow.str_lt (u := s.tree u) hplug)
  have hposs : u16 (Path.str (s :: p)).length = (Path.str (s :: p)).length :=
    u16_eq (hshallow.str_lt hplug)
  have hrd : rd s.addr =
      .trie ⟨s.compressed, Branches.mapSnd Tree.addr (s.left ++ (s.branch, u) :: s.right)⟩ :=
    rd_node hstored'
  rw [List.length_append, List.length_cons] at hlen
  have hidx : u16 (s.left.length + 1) = s.left.length + 1 := u16_eq (by omega)
  rw [nextTop]
  simp only [h.stack, frames_cons, taken, hrd, ↓reduceIte, hidx, TrieNode.count,
    Branches.length_mapSnd, List.length_append, List.length_cons]
  cases hright : s.right with
  | nil =>
    left
    let f : Transition := { taken s p with linkIdx := s.left.length + 1 }
    refine ⟨rfl, { c with stack := f :: frames p }, ?_, rfl,
      pop_returns (f := f) rfl hpos ?_ h.restKey h.known.tail⟩
    . rw [if_pos (by simp)]
      rfl
    . rw [h.currentKey, Path.str_cons]
      exact List.prefix_append _ _
  | cons y right =>
    right
    have harr : s.left ++ (s.branch, u) :: s.right = (s.left ++ [(s.branch, u)]) ++ y :: right := by
      simp [hright]
    have hlink := link_append_cons (c := s.compressed) (l := s.left ++ [(s.branch, u)]) (r := right)
      (x := y)
    rw [List.length_append, List.length_singleton, ← harr, hright] at hlink
    let s' : Step := ⟨s.addr, s.compressed, s.left ++ [(s.branch, u)], y.1, right⟩
    have hplug' : Path.plug (s' :: p) y.2 = t := by
      rw [← hplug, Path.plug_cons, Path.plug_cons]
      simp [s', Step.tree, hright]
    have hmem : y ∈ s.left ++ (s.branch, u) :: s.right := by simp [hright]
    let c1 : Cursor :=
      { c with
        stack := { taken s p with linkIdx := s.left.length + 1 } :: frames p }
    have harrives : (c1.push y.2.addr).Arrives (s' :: p) y.2 := by
      refine push_arrives ?_ ?_
      . simp [c1, s', taken]
      . simp [c1, s', h.currentKey]
    have hheight := Tree.height_le_deepest (hw y hmem)
    have hdeep := Tree.deepest_plug (s' :: p) y.2
    rw [hplug'] at hdeep
    rw [Tree.Shallow] at hshallow
    obtain ⟨r, a, k, v, hr, hbefore, hlands⟩ := firstTop_lands (n := MAX_DEPTH) harrives hplug'
      (hstored'.child hmem) (hw y hmem) hshallow (by rw [MAX_DEPTH, MAX_KEY_SIZE]; omega)
    have hparent := hlands.parent (c := c) hr (hh y hmem) rfl rfl (fun _ _ => rfl)
    have hkeypos : u16 c.currentKey.length = (Path.str (s' :: p)).length := by
      rw [h.currentKey]
      exact hposs
    rw [if_neg (by simp), hlink, hkeypos, length_frames]
    refine ⟨_, r ++ [s'] ++ p, a, k, v, rfl, ?_, ⟨?_, ?_⟩, ?_⟩
    . exact hparent.root
    . rw [List.append_assoc, Path.plug_append, hr]
      exact hplug'
    . exact hparent.stopped h.known.tail h.restKey v
    . simp [Path.before_append, hbefore, Path.before, s']

/-- Going up until there is a leaf behind. -/
theorem nextLoop_returns {n : Nat} {c : Cursor} {p : Path} {u : Tree} (h : c.Returns p)
    (hn : p.length ≤ n) (hplug : p.plug u = t) (hstored : Tree.Stored rd t) (hwf : t.WF)
    (hshallow : t.Shallow) :
    (nextLoop rd n c).root = c.root ∧
    (p.after = [] ∧ (nextLoop rd n c).stack = [] ∨
    ∃ q a k v, (nextLoop rd n c).OnLeaf t q a k v ∧
      q.before = p.before ++ Tree.behind p.str u.entries) := by
  induction p generalizing n c u with
  | nil =>
    have hstack : c.stack = [] := h.stack
    have hloop : nextLoop rd n c = c := by
      cases n <;> simp [nextLoop, hstack]
    rw [hloop]
    exact ⟨rfl, Or.inl ⟨rfl, hstack⟩⟩
  | cons s p ih =>
    obtain ⟨n, rfl⟩ : ∃ m, n = m + 1 := ⟨n - 1, by rw [List.length_cons] at hn; omega⟩
    have hne : c.stack ≠ [] := by simp [h.stack]
    rw [nextLoop, if_neg hne]
    rcases nextTop_returns h hplug hstored hwf hshallow with
      ⟨hright, c', htop, hroot, hret⟩ | ⟨c', q, a, k, v, htop, hroot, hleaf, hbefore⟩
    . simp only [htop]
      obtain ⟨h1, h2⟩ := ih (n := n) hret (by rw [List.length_cons] at hn; omega) (u := s.tree u) hplug
      refine ⟨by rw [h1, root_pop, hroot], ?_⟩
      have hafter : Path.after (s :: p) = Path.after p := by simp [Path.after, hright]
      have hbefore : Path.before p ++ Tree.behind (Path.str p) (s.tree u).entries =
          Path.before (s :: p) ++ Tree.behind (Path.str (s :: p)) u.entries := by
        simp [Step.tree, Path.before, hright]
      rwa [hafter, ← hbefore]
    . simp only [htop]
      exact ⟨hroot, Or.inr ⟨q, a, k, v, hleaf, hbefore⟩⟩

/-- `next` is done with the first look, or goes up from there. -/
theorem next_comes {c : Cursor} {p : Path} {u : Tree} {l : List (Key × Value)}
    (hlen : p.length ≤ c.stack.length - 1) (hne : c.stack ≠ [])
    (htop : (∃ c', nextTop rd { c with restKey := [] } = (false, c') ∧ c'.pop.Returns p ∧
        p.before ++ Tree.behind p.str u.entries = l) ∨
      ∃ c' q a k v, nextTop rd { c with restKey := [] } = (true, c') ∧ c'.OnLeaf t q a k v ∧
        q.before = l)
    (hplug : p.plug u = t) (hstored : Tree.Stored rd t) (hwf : t.WF) (hshallow : t.Shallow) :
    (c.next rd).Comes (some t) l := by
  obtain ⟨n, hn⟩ : ∃ n, c.stack.length = n + 1 :=
    Nat.exists_eq_succ_of_ne_zero (fun h => hne (List.length_eq_zero_iff.mp h))
  rw [next, hn, nextLoop, if_neg hne]
  rcases htop with ⟨c', htop, hret, hl⟩ | ⟨c', q, a, k, v, htop, hleaf, hl⟩
  . simp only [htop]
    rcases (nextLoop_returns hret (n := n) (by omega) hplug hstored hwf hshallow).2 with
      ⟨hafter, hnil⟩ | ⟨q, a, k, v, hleaf, hq⟩
    . refine Or.inl ⟨?_, hnil⟩
      rw [Trie.entries, ← hplug, Path.entries_plug, hafter, List.append_nil, hl]
    . exact Or.inr ⟨t, q, a, k, v, rfl, hleaf, hq.trans hl⟩
  . simp only [htop]
    exact Or.inr ⟨t, q, a, k, v, rfl, hleaf, hl⟩

/-- Between two branches of a node the cursor goes to the next branch there is. -/
theorem nextTop_missing {c : Cursor} {f : Transition} {p : Path} {a : Addr} {k : Key}
    {arr left right : List (Branch × Tree)} (hstack : c.stack = f :: frames p)
    (hnode : f.node = a) (hkeypos : f.keypos = p.str.length) (hcmp : f.cmp ≠ 0)
    (hlen : f.prefixLen = k.length) (hkey : p.str <+: c.currentKey) (hrest : c.restKey = [])
    (hknown : Known c.branchKey p) (hplug : p.plug (.node a k arr) = t)
    (hstored : Tree.Stored rd t) (hwf : t.WF) (hshallow : t.Shallow)
    (harr : left ++ right = arr)
    (habove : Branches.above arr (some (c.branchKey p.length)) = right) :
    (right = [] ∧
      ∃ c', nextTop rd c = (false, c') ∧ c'.root = c.root ∧ c'.pop.Returns p) ∨
    (∃ c' q a k' v, nextTop rd c = (true, c') ∧ c'.root = c.root ∧ c'.OnLeaf t q a k' v ∧
      q.before =
        p.before ++ Tree.behind (p.str ++ k) (Tree.branchEntries left)) := by
  have hstored' := (Path.stored_plug.mp (hplug ▸ hstored)).2
  have hwf' := (Path.wf_plug.mp (hplug ▸ hwf)).2.2
  obtain ⟨-, -, hsort, hh, hw⟩ := Tree.wf_node.mp hwf'
  have hrd : rd f.node = .trie ⟨k, Branches.mapSnd Tree.addr arr⟩ := by
    rw [hnode]
    exact rd_node hstored'
  have hpos : u16 p.str.length = p.str.length := u16_eq (hshallow.str_lt hplug)
  have hnext : TrieNode.next ⟨k, Branches.mapSnd Tree.addr arr⟩ (some (c.branchKey p.length)) =
      right.head?.map (·.1) := by
    rw [TrieNode.next, Branches.next_mapSnd, Branches.next, habove]
  obtain ⟨w, hcur⟩ := hkey
  rw [nextTop]
  simp only [hstack, hrd, hcmp, ↓reduceIte, TrieNode.len, hlen, Nat.lt_irrefl, length_frames,
    branchKey_appendKey, branchKey_resizeKey, hnext]
  cases right with
  | nil =>
    left
    refine ⟨rfl, _, rfl, rfl, pop_returns (f := f) hstack hkeypos ?_ hrest hknown⟩
    simp [hkeypos, ← hcur]
  | cons y right =>
    right
    let s : Step := ⟨a, k, left, y.1, right⟩
    have hsplit : left ++ (y.1, y.2) :: right = arr := harr
    have hs : s.tree y.2 = .node a k arr := congrArg (Tree.node a k) hsplit
    have hmem : y ∈ arr := by
      rw [← harr]
      simp
    have hplug' : Path.plug (s :: p) y.2 = t := by rw [Path.plug_cons, hs, hplug]
    have hidx : TrieNode.arrayIndex ⟨k, Branches.mapSnd Tree.addr arr⟩ y.1 =
        some left.length := by
      have h := Branches.arrayIndex_append_cons (hsplit.symm ▸ hsort)
      rw [hsplit] at h
      rw [TrieNode.arrayIndex, Branches.arrayIndex_mapSnd, h]
    have hlink : TrieNode.link ⟨k, Branches.mapSnd Tree.addr arr⟩ left.length =
        y.2.addr := by
      rw [← link_append_cons (c := k) (l := left) (r := right) (x := y), hsplit]
    let c1 : Cursor :=
      { ((c.resizeKey f.keypos).appendKey k).setBranchKey p.length (y.1.getD 255) with
        stack :=
          { f with prefixLen := k.length, cmp := 0, linkIdx := left.length } ::
            frames p }
    have harrives : (c1.push y.2.addr).Arrives (s :: p) y.2 := by
      refine push_arrives ?_ ?_
      . simp [c1, s, taken, hnode, hkeypos, hpos]
      . simp [c1, s, hkeypos, ← hcur]
    have hheight := Tree.height_le_deepest (hw y hmem)
    have hdeep := Tree.deepest_plug (s :: p) y.2
    rw [hplug'] at hdeep
    rw [Tree.Shallow] at hshallow
    obtain ⟨r, a', k', v, hr, hbefore, hlands⟩ := firstTop_lands (n := MAX_DEPTH) harrives hplug'
      (hstored'.child hmem) (hw y hmem) hshallow (by rw [MAX_DEPTH, MAX_KEY_SIZE]; omega)
    have hstep := hlands.step (c := c)
      (b := (firstTop rd MAX_DEPTH (c1.push y.2.addr)).branchKey p.length) rfl rfl
      (by intro i hi; simp [c1, Nat.ne_of_lt hi])
      (by intro b' hb'; rw [hlands.below _ (by simp)]; simp [c1, s] at hb' ⊢; simp [hb'])
    rw [setBranchKey_self] at hstep
    simp only [List.head?_cons, Option.map_some, hidx, Option.getD_some, hlink]
    refine ⟨_, r ++ [s] ++ p, a', k', v, rfl, hstep.root, ⟨?_, hstep.stopped hknown hrest v⟩, ?_⟩
    . rw [List.append_assoc, Path.plug_append, hr]
      exact hplug'
    . simp [Path.before_append, hbefore, Path.before, s]

/-- A leaf and the inside of a node's string are left behind or ahead as a whole. -/
theorem nextTop_whole {c : Cursor} {f : Transition} {p : Path} {u : Tree}
    (hstack : c.stack = f :: frames p) (hnode : f.node = u.addr) (hkeypos : f.keypos = p.str.length)
    (hlen : u.isLeaf = true ∨ f.prefixLen < u.label.length) (hcmp : f.cmp = -1 ∨ f.cmp = 1)
    (hkey : p.str <+: c.currentKey) (hrest : c.restKey = []) (hknown : Known c.branchKey p)
    (hplug : p.plug u = t) (hstored : Tree.Stored rd t) (hwf : t.WF) (hshallow : t.Shallow) :
    (f.cmp = 1 ∧ ∃ c', nextTop rd c = (false, c') ∧ c'.root = c.root ∧ c'.pop.Returns p) ∨
    (f.cmp = -1 ∧ ∃ c' q a k v, nextTop rd c = (true, c') ∧ c'.root = c.root ∧
      c'.OnLeaf t q a k v ∧ q.before = p.before) := by
  have hstored' := (Path.stored_plug.mp (hplug ▸ hstored)).2
  have hwf' := (Path.wf_plug.mp (hplug ▸ hwf)).2.2
  have hpos : u16 p.str.length = p.str.length := u16_eq (hshallow.str_lt hplug)
  have hlt := hshallow.str_lt hplug
  have hroot := hstored'.root
  rw [← hnode] at hroot
  have hcur := hkey
  obtain ⟨w, hcur⟩ := hcur
  match u with
  | .leaf a k v =>
    rw [nextTop]
    simp only [hstack, hroot, Tree.root]
    rcases hcmp with hcmp | hcmp
    . right
      rw [if_pos (by omega)]
      have hlands : c.Lands (c.leafStep f (frames p) ⟨k, v.big, v.bytes⟩) p [] a k := by
        refine ⟨⟨f.linkIdx, ?_⟩, rfl, rfl, ?_, fun _ _ => rfl, known_nil _⟩
        . simp [leafStep, hkeypos, hpos, hnode, Tree.addr]
        . simp [leafStep, hkeypos, ← hcur]
      exact ⟨hcmp, _, p, a, k, v, rfl, rfl, ⟨hplug, hlands.stopped hknown hrest v⟩, rfl⟩
    . left
      rw [if_neg (by omega)]
      exact ⟨hcmp, _, rfl, rfl, pop_returns hstack hkeypos hkey hrest hknown⟩
  | .node a k arr =>
    have hshort : f.prefixLen < k.length := by
      rcases hlen with hlen | hlen
      . simp [Tree.isLeaf] at hlen
      . exact hlen
    have hne : f.cmp ≠ 0 := by omega
    rw [nextTop]
    simp only [hstack, hroot, Tree.root, hne, ↓reduceIte, TrieNode.len, hshort]
    rcases hcmp with hcmp | hcmp
    . right
      rw [if_neg (by omega)]
      have harrives : (c.resizeKey f.keypos).Arrives p (.node a k arr) := by
        refine ⟨⟨f, hstack, hnode, hkeypos.trans hpos.symm⟩, ?_⟩
        simp [hkeypos, ← hcur]
      have hheight := Tree.height_le_deepest hwf'
      have hdeep := Tree.deepest_plug p (.node a k arr)
      rw [hplug] at hdeep
      rw [Tree.Shallow] at hshallow
      obtain ⟨r, a', k', v, hr, hbefore, hlands⟩ := firstTop_lands (n := MAX_DEPTH) harrives hplug
        hstored' hwf' hshallow (by rw [MAX_DEPTH, MAX_KEY_SIZE]; omega)
      refine ⟨hcmp, _, r ++ p, a', k', v, rfl, hlands.root, ⟨?_, ?_⟩, ?_⟩
      . rw [Path.plug_append, hr, hplug]
      . exact hlands.stopped hknown hrest v
      . simp [Path.before_append, hbefore]
    . left
      rw [if_pos (by omega)]
      refine ⟨hcmp, _, rfl, rfl, pop_returns (f := f) hstack hkeypos ?_ hrest hknown⟩
      simp [hkeypos, ← hcur]

end Next

/-- The node on top of the stack where the key has ended, with the branch key of the transition. -/
def endedAt (rd : Addr → Node) (c : Cursor) : Option (TrieNode × UInt8) :=
  match c.stack with
  | [] => none
  | f :: fs =>
    match rd f.node with
    | .leaf _ => none
    | .trie t => if f.cmp = -1 ∧ f.prefixLen = t.len then some (t, c.branchKey fs.length) else none

/-- Where the key has ended the branch key is in front of every branch. -/
def NextOk (rd : Addr → Node) (c : Cursor) : Prop :=
  ∀ e ∈ endedAt rd c, ∀ x ∈ e.1.array, Branch.toInt (some e.2) < x.1.toInt

instance (rd : Addr → Node) (c : Cursor) : Decidable (NextOk rd c) :=
  inferInstanceAs (Decidable (∀ e ∈ endedAt rd c, ∀ x ∈ e.1.array, _))

theorem Stopped.endedAt {rd : Addr → Node} {c : Cursor} {p : Path} {a : Addr} {k rest : Key}
    {arr : List (Branch × Tree)} (h : c.Stopped ⟨p, .node a k arr, k.length, -1, rest⟩)
    (hstored : Tree.Stored rd (.node a k arr)) :
    endedAt rd c = some (⟨k, Branches.mapSnd Tree.addr arr⟩, c.branchKey p.length) := by
  obtain ⟨idx, hstack⟩ := h.stack
  rw [Cursor.endedAt, hstack]
  simp [Tree.addr, rd_node hstored, TrieNode.len]

/-- Where the key has ended everything is behind a branch key that is in front. -/
theorem above_of_forall_lt {arr : List (Branch × Tree)} {b : UInt8}
    (h : ∀ x ∈ arr, Branch.toInt (some b) < x.1.toInt) :
    Branches.above arr (some b) = Branches.above arr none := by
  have hnone : ∀ x ∈ arr, Branch.toInt none < x.1.toInt := by
    intro x hx
    have h1 := h x hx
    have h2 := Branch.neg_one_le_toInt (some b)
    rw [Branch.toInt_none]
    omega
  rw [Branches.above, Branches.above]
  rw [List.filter_eq_self.mpr (fun x hx => decide_eq_true (h x hx))]
  rw [List.filter_eq_self.mpr (fun x hx => decide_eq_true (hnone x hx))]

/-- A key between the branches of a node. -/
theorem nextTop_between {rd : Addr → Node} {t : Tree} {c : Cursor} {f : Transition} {p : Path}
    {a : Addr} {k w K : Key} {arr : List (Branch × Tree)} (hstack : c.stack = f :: frames p)
    (hnode : f.node = a) (hkeypos : f.keypos = p.str.length) (hcmp : f.cmp ≠ 0)
    (hlen : f.prefixLen = k.length) (hkey : p.str <+: c.currentKey) (hrest : c.restKey = [])
    (hknown : Known c.branchKey p) (hplug : p.plug (.node a k arr) = t)
    (hstored : Tree.Stored rd t) (hwf : t.WF) (hshallow : t.Shallow)
    (hset : Branches.isset arr w.head? = false)
    (habove : Branches.above arr (some (c.branchKey p.length)) = Branches.above arr w.head?)
    (hcut : ∀ l r, OrdMap.CutAbove (Tree.node a k arr).entries (k ++ w) l r →
      OrdMap.CutAbove t.entries K (p.before ++ Tree.behind p.str l)
        (Tree.behind p.str r ++ p.after)) :
    (∃ c', nextTop rd c = (false, c') ∧ c'.root = c.root ∧ c'.pop.Returns p ∧
      OrdMap.CutAbove t.entries K
        (p.before ++ Tree.behind p.str (Tree.node a k arr).entries) p.after) ∨
    (∃ c' q a k v r, nextTop rd c = (true, c') ∧ c'.root = c.root ∧ c'.OnLeaf t q a k v ∧
      OrdMap.CutAbove t.entries K q.before r) := by
  obtain ⟨-, -, hsort, hh, -⟩ := Tree.wf_node.mp (Path.wf_plug.mp (hplug ▸ hwf)).2.2
  have hcut := hcut _ _ (Tree.cutAbove_missing hsort hh hset a k)
  rcases nextTop_missing hstack hnode hkeypos hcmp hlen hkey hrest hknown hplug hstored hwf hshallow
    (Branches.below_append_above hsort hset) habove with
    ⟨hnil, c', htop, hroot, hret⟩ | ⟨c', q, a', k', v, htop, hroot, hleaf, hq⟩
  . left
    have hentries := Tree.entries_of_not_isset hsort hset a k
    rw [hnil, Tree.branchEntries_nil, Tree.behind_nil, List.append_nil] at hentries
    rw [hnil, ← hentries] at hcut
    exact ⟨c', htop, hroot, hret, by simpa using hcut⟩
  . right
    rw [Tree.behind_behind, ← hq] at hcut
    exact ⟨c', q, a', k', v, _, htop, hroot, hleaf, hcut⟩

/-- What the first look at the node on top of the stack comes to. -/
theorem nextTop_stopped {rd : Addr → Node} {t : Tree} {c : Cursor} {s : Stop} {K : Key}
    (h : c.Stopped s) (hends : s.Ends t K) (hok : NextOk rd c) (hstored : Tree.Stored rd t)
    (hwf : t.WF) (hshallow : t.Shallow) :
    (∃ c', nextTop rd { c with restKey := [] } = (false, c') ∧ c'.root = c.root ∧
      c'.pop.Returns s.path ∧
      OrdMap.CutAbove t.entries K (s.path.before ++ Tree.behind s.path.str s.tree.entries)
        s.path.after) ∨
    (∃ c' q a k v r, nextTop rd { c with restKey := [] } = (true, c') ∧ c'.root = c.root ∧
      c'.OnLeaf t q a k v ∧ OrdMap.CutAbove t.entries K q.before r) := by
  obtain ⟨p, u, pre, cmp, rest⟩ := s
  obtain ⟨idx, hstack⟩ := h.stack
  have hplug : p.plug u = t := hends.plug
  have hpos : u16 p.str.length = p.str.length := u16_eq (hshallow.str_lt hplug)
  have hstored' := (Path.stored_plug.mp (hplug ▸ hstored)).2
  have hwf' := (Path.wf_plug.mp (hplug ▸ hwf)).2.2
  have hkey : p.str <+: c.currentKey := by
    rw [h.currentKey]
    exact List.prefix_append _ _
  have hcut := fun l r => hends.cutAbove (l := l) (r := r) hwf
  have hverdict := hends.verdict
  generalize Stop.suffix _ = suf at hcut hverdict
  have hall : (∀ e ∈ u.entries, e.1 ≤ suf) →
      OrdMap.CutAbove t.entries K (p.before ++ Tree.behind p.str u.entries) p.after := fun hle =>
    hcut u.entries [] ⟨by simp, hle, by simp⟩
  have hnone : (∀ e ∈ u.entries, suf < e.1) →
      OrdMap.CutAbove t.entries K p.before (Tree.behind p.str u.entries ++ p.after) := fun hlt => by
    simpa using hcut [] u.entries ⟨by simp, by simp, hlt⟩
  cases hverdict with
  | hit a v htree hlen hcmp hrest =>
    left
    simp only at htree hlen hcmp hrest
    subst htree hlen hcmp hrest
    have hrd : rd a = .leaf ⟨_, v.big, v.bytes⟩ := rd_leaf hstored'
    refine ⟨{ c with restKey := [] }, ?_, rfl, pop_returns hstack hpos hkey rfl h.known, hall ?_⟩
    . rw [nextTop]
      simp only [hstack, Tree.addr, hrd]
      rw [if_neg (by omega)]
    . intro e he
      rw [Tree.entries_leaf, List.mem_singleton] at he
      exact le_of_eq (by rw [he])
  | ahead hlen hcmp hlt =>
    simp only at hcmp
    subst hcmp
    rcases nextTop_whole (c := { c with restKey := [] }) hstack rfl hpos hlen (Or.inl rfl) hkey rfl
      h.known hplug hstored hwf hshallow with ⟨hcmp, -⟩ | ⟨-, c', q, a, k, v, htop, hroot, hleaf, hq⟩
    . simp at hcmp
    . right
      exact ⟨c', q, a, k, v, _, htop, hroot, hleaf, hq ▸ hnone hlt⟩
  | behind hlen hcmp hlt =>
    simp only at hcmp
    subst hcmp
    rcases nextTop_whole (c := { c with restKey := [] }) hstack rfl hpos hlen (Or.inr rfl) hkey rfl
      h.known hplug hstored hwf hshallow with ⟨-, c', htop, hroot, hret⟩ | ⟨hcmp, -⟩
    . left
      exact ⟨c', htop, hroot, hret, hall (fun e he => le_of_lt (hlt e he))⟩
    . simp at hcmp
  | exhausted a arr htree hlen hcmp hrest hset =>
    simp only at htree hlen hcmp hrest
    subst htree hlen hcmp hrest
    have habove : Branches.above arr (some (c.branchKey p.length)) = Branches.above arr none := by
      refine above_of_forall_lt ?_
      intro x hx
      refine hok _ (h.endedAt hstored') (x.1, x.2.addr) ?_
      exact List.mem_map_of_mem (f := fun y => (y.1, y.2.addr)) hx
    exact nextTop_between (c := { c with restKey := [] }) (w := []) hstack rfl hpos (by simp) rfl
      hkey rfl h.known hplug hstored hwf hshallow hset habove (by simpa using hcut)
  | missing a k arr b w htree hlen hcmp hrest hsuf hset =>
    simp only at htree hlen hcmp hrest
    subst htree hlen hcmp hrest hsuf
    have hb : c.branchKey p.length = b := h.missing b w rfl rfl
    exact nextTop_between (c := { c with restKey := [] }) (w := b :: w) hstack rfl hpos
      (by simp [NOT_FOUND]) rfl hkey rfl h.known hplug hstored hwf hshallow hset
      (by rw [← hb]; rfl) hcut

/-- `next` from where a search has ended. -/
theorem next_stopped {rd : Addr → Node} {t : Tree} {c : Cursor} {s : Stop} {K : Key}
    (h : c.Stopped s) (hends : s.Ends t K) (hok : NextOk rd c) (hstored : Tree.Stored rd t)
    (hwf : t.WF) (hshallow : t.Shallow) :
    (next rd c).root = c.root ∧ ∃ l r, OrdMap.CutAbove t.entries K l r ∧
      (r = [] ∧ (next rd c).stack = [] ∨
      ∃ q a k v, (next rd c).OnLeaf t q a k v ∧ q.before = l) := by
  obtain ⟨idx, hstack⟩ := h.stack
  have hne : c.stack ≠ [] := by simp [hstack]
  have hlen : c.stack.length = s.path.length + 1 := by simp [hstack]
  rw [next, hlen, nextLoop, if_neg hne]
  rcases nextTop_stopped h hends hok hstored hwf hshallow with
    ⟨c', htop, hroot, hret, hcut⟩ | ⟨c', q, a, k, v, r, htop, hroot, hleaf, hcut⟩
  . simp only [htop]
    obtain ⟨h1, h2⟩ :=
      nextLoop_returns hret (Nat.le_refl _) hends.plug hstored hwf hshallow
    refine ⟨by rw [h1, root_pop, hroot], _, _, hcut, h2⟩
  . simp only [htop]
    exact ⟨hroot, _, _, hcut, Or.inr ⟨q, a, k, v, hleaf, rfl⟩⟩

end Cursor
end Leaves
