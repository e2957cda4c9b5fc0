import Leaves.Db.Lemmas.Next

/-!
`prev`: from where a search has ended to the leaf in front of it.
-/

namespace Leaves
namespace Cursor

section Prev

variable {rd : Addr → Node} {t : Tree}

/-- The branch in front of the one the cursor comes from. -/
theorem prevTop_returns {c : Cursor} {s : Step} {p : Path} {u : Tree} (h : c.Returns (s :: p))
    (hplug : Path.plug (s :: p) u = t) (hstored : Tree.Stored rd t) (hwf : t.WF)
    (hshallow : t.Shallow) :
    (s.left = [] ∧ ∃ c', prevTop rd c = (false, c') ∧ c'.root = c.root ∧ c'.pop.Returns p) ∨
    (∃ c' q a k v, prevTop rd c = (true, c') ∧ c'.root = c.root ∧ c'.OnLeaf t q a k v ∧
      q.after = Tree.behind (Path.str (s :: p)) u.entries ++ Path.after (s :: p)) := by
  have hstored' : Tree.Stored rd (s.tree u) := (Path.stored_plug (p := p).mp (hplug ▸ hstored)).2
  have hwf' : (s.tree u).WF := (Path.wf_plug (p := p).mp (hplug ▸ hwf)).2.2
  obtain ⟨-, -, hsort, hh, hw⟩ := Tree.wf_node.mp hwf'
  have hpos : u16 p.str.length = p.str.length := u16_eq (hshallow.str_lt (u := s.tree u) hplug)
  have hposs : u16 (Path.str (s :: p)).length = (Path.str (s :: p)).length :=
    u16_eq (hshallow.str_lt hplug)
  have hrd : rd s.addr =
      .trie ⟨s.compressed, Branches.mapSnd Tree.addr (s.left ++ (s.branch, u) :: s.right)⟩ :=
    rd_node hstored'
  rw [prevTop]
  simp only [h.stack, frames_cons, taken, hrd, ↓reduceIte]
  rcases List.eq_nil_or_concat' s.left with hleft | ⟨left, y, hleft⟩
  . left
    let f : Transition := { taken s p with linkIdx := NO_LINK }
    refine ⟨hleft, { c with stack := f :: frames p }, ?_, rfl,
      pop_returns (f := f) rfl hpos ?_ h.restKey h.known.tail⟩
    . rw [if_pos (by simp [hleft])]
      rfl
    . rw [h.currentKey, Path.str_cons]
      exact List.prefix_append _ _
  . right
    have harr : s.left ++ (s.branch, u) :: s.right = left ++ y :: (s.branch, u) :: s.right := by
      simp [hleft]
    have hlink := link_append_cons (c := s.compressed) (l := left) (r := (s.branch, u) :: s.right)
      (x := y)
    rw [← harr] at hlink
    have hidx : s.left.length - 1 = left.length := by simp [hleft]
    let s' : Step := ⟨s.addr, s.compressed, left, y.1, (s.branch, u) :: s.right⟩
    have hplug' : Path.plug (s' :: p) y.2 = t := by
      rw [← hplug, Path.plug_cons, Path.plug_cons]
      simp [s', Step.tree, hleft]
    have hmem : y ∈ s.left ++ (s.branch, u) :: s.right := by simp [hleft]
    let c1 : Cursor := { c with stack := { taken s p with linkIdx := left.length } :: frames p }
    have harrives : (c1.push y.2.addr).Arrives (s' :: p) y.2 := by
      refine push_arrives ?_ ?_
      . simp [c1, s', taken]
      . simp [c1, s', h.currentKey]
    have hheight := Tree.height_le_deepest (hw y hmem)
    have hdeep := Tree.deepest_plug (s' :: p) y.2
    rw [hplug'] at hdeep
    rw [Tree.Shallow] at hshallow
    obtain ⟨r, a, k, v, hr, hafter, hlands⟩ := lastTop_lands (n := MAX_DEPTH) harrives hplug'
      (hstored'.child hmem) (hw y hmem) hshallow (by rw [MAX_DEPTH, MAX_KEY_SIZE]; omega)
    have hparent := hlands.parent_of_lt (c := c) hr (hh y hmem) rfl rfl (fun _ _ => rfl)
    have hkeypos : u16 c.currentKey.length = (Path.str (s' :: p)).length := by
      rw [h.currentKey]
      exact hposs
    rw [if_neg (by simp [hleft]), hidx, hlink, hkeypos, length_frames]
    refine ⟨_, r ++ [s'] ++ p, a, k, v, rfl, ?_, ⟨?_, ?_⟩, ?_⟩
    . exact hparent.root
    . rw [List.append_assoc, Path.plug_append, hr]
      exact hplug'
    . exact hparent.stopped h.known.tail h.restKey v
    . simp [Path.after_append, hafter, Path.after, s']

/-- Going up until there is a leaf in front. -/
theorem prevLoop_returns {n : Nat} {c : Cursor} {p : Path} {u : Tree} (h : c.Returns p)
    (hn : p.length ≤ n) (hplug : p.plug u = t) (hstored : Tree.Stored rd t) (hwf : t.WF)
    (hshallow : t.Shallow) :
    (prevLoop rd n c).root = c.root ∧
    (p.before = [] ∧ (prevLoop rd n c).stack = [] ∨
    ∃ q a k v, (prevLoop rd n c).OnLeaf t q a k v ∧
      q.after = Tree.behind p.str u.entries ++ p.after) := by
  induction p generalizing n c u with
  | nil =>
    have hstack : c.stack = [] := h.stack
    have hloop : prevLoop rd n c = c := by
      cases n <;> simp [prevLoop, hstack]
    rw [hloop]
    exact ⟨rfl, Or.inl ⟨rfl, hstack⟩⟩
  | cons s p ih =>
    obtain ⟨n, rfl⟩ : ∃ m, n = m + 1 := ⟨n - 1, by rw [List.length_cons] at hn; omega⟩
    have hne : c.stack ≠ [] := by simp [h.stack]
    rw [prevLoop, if_neg hne]
    rcases prevTop_returns h hplug hstored hwf hshallow with
      ⟨hleft, c', htop, hroot, hret⟩ | ⟨c', q, a, k, v, htop, hroot, hleaf, hafter⟩
    . simp only [htop]
      obtain ⟨h1, h2⟩ := ih (n := n) hret (by rw [List.length_cons] at hn; omega) (u := s.tree u) hplug
      refine ⟨by rw [h1, root_pop, hroot], ?_⟩
      have hbefore : Path.before (s :: p) = Path.before p := by simp [Path.before, hleft]
      have hafter : Tree.behind (Path.str p) (s.tree u).entries ++ Path.after p =
          Tree.behind (Path.str (s :: p)) u.entries ++ Path.after (s :: p) := by
        simp [Step.tree, Path.after, hleft]
      rwa [hbefore, ← hafter]
    . simp only [htop]
      exact ⟨hroot, Or.inr ⟨q, a, k, v, hleaf, hafter⟩⟩

/-- Between two branches of a node the cursor goes back to the branch in front. -/
theorem prevTop_missing {c : Cursor} {f : Transition} {p : Path} {a : Addr} {k : Key}
    {arr left right : List (Branch × Tree)} (hstack : c.stack = f :: frames p)
    (hnode : f.node = a) (hkeypos : f.keypos = p.str.length) (hcmp : f.cmp ≠ 0)
    (hlen : f.prefixLen = k.length) (hkey : p.str <+: c.currentKey) (hrest : c.restKey = [])
    (hknown : Known c.branchKey p) (hplug : p.plug (.node a k arr) = t)
    (hstored : Tree.Stored rd t) (hwf : t.WF) (hshallow : t.Shallow)
    (harr : left ++ right = arr)
    (hbelow : Branches.below arr (some (c.branchKey p.length)) = left) :
    (left = [] ∧
      ∃ c', prevTop rd c = (false, c') ∧ c'.root = c.root ∧ c'.pop.Returns p) ∨
    (∃ c' q a k' v, prevTop rd c = (true, c') ∧ c'.root = c.root ∧ c'.OnLeaf t q a k' v ∧
      q.after =
        Tree.behind (p.str ++ k) (Tree.branchEntries right) ++ p.after) := by
  have hstored' := (Path.stored_plug.mp (hplug ▸ hstored)).2
  have hwf' := (Path.wf_plug.mp (hplug ▸ hwf)).2.2
  obtain ⟨-, -, hsort, hh, hw⟩ := Tree.wf_node.mp hwf'
  have hrd : rd f.node = .trie ⟨k, Branches.mapSnd Tree.addr arr⟩ := by
    rw [hnode]
    exact rd_node hstored'
  have hpos : u16 p.str.length = p.str.length := u16_eq (hshallow.str_lt hplug)
  have hprev : TrieNode.prev ⟨k, Branches.mapSnd Tree.addr arr⟩ (some (c.branchKey p.length)) =
      left.getLast?.map (·.1) := by
    rw [TrieNode.prev, Branches.prev_mapSnd, Branches.prev, hbelow]
  obtain ⟨w, hcur⟩ := hkey
  rw [prevTop]
  simp only [hstack, hrd, hcmp, ↓reduceIte, TrieNode.len, hlen, Nat.lt_irrefl, length_frames,
    branchKey_appendKey, branchKey_resizeKey, hprev]
  rcases List.eq_nil_or_concat' left with hnil | ⟨left, y, hleft⟩
  . left
    rw [hnil]
    refine ⟨rfl, _, rfl, rfl, pop_returns (f := f) hstack hkeypos ?_ hrest hknown⟩
    simp [hkeypos, ← hcur]
  . right
    let s : Step := ⟨a, k, left, y.1, right⟩
    have hsplit : left ++ (y.1, y.2) :: right = arr := by
      have h := hleft ▸ harr
      rwa [List.append_assoc, List.singleton_append] at h
    have hs : s.tree y.2 = .node a k arr := congrArg (Tree.node a k) hsplit
    have hmem : y ∈ arr := by
      rw [← hsplit]
      simp
    have hplug' : Path.plug (s :: p) y.2 = t := by rw [Path.plug_cons, hs, hplug]
    have hidx : TrieNode.arrayIndex ⟨k, Branches.mapSnd Tree.addr arr⟩ y.1 =
        some left.length := by
      have h := Branches.arrayIndex_append_cons (hsplit.symm ▸ hsort)
      rw [hsplit] at h
      rw [TrieNode.arrayIndex, Branches.arrayIndex_mapSnd, h]
    have hlink : TrieNode.link ⟨k, Branches.mapSnd Tree.addr arr⟩ left.length = y.2.addr := by
      rw [← link_append_cons (c := k) (l := left) (r := right) (x := y), hsplit]
    let c1 : Cursor :=
      { ((c.resizeKey f.keypos).appendKey k).setBranchKey p.length (y.1.getD 255) with
        stack := { f with prefixLen := k.length, cmp := 0, linkIdx := left.length } :: frames p }
    have harrives : (c1.push y.2.addr).Arrives (s :: p) y.2 := by
      refine push_arrives ?_ ?_
      . simp [c1, s, taken, hnode, hkeypos, hpos]
      . simp [c1, s, hkeypos, ← hcur]
    have hheight := Tree.height_le_deepest (hw y hmem)
    have hdeep := Tree.deepest_plug (s :: p) y.2
    rw [hplug'] at hdeep
    rw [Tree.Shallow] at hshallow
    obtain ⟨r, a', k', v, hr, hafter, hlands⟩ := lastTop_lands (n := MAX_DEPTH) harrives hplug'
      (hstored'.child hmem) (hw y hmem) hshallow (by rw [MAX_DEPTH, MAX_KEY_SIZE]; omega)
    have hstep := hlands.step (c := c)
      (b := (lastTop rd MAX_DEPTH (c1.push y.2.addr)).branchKey p.length) rfl rfl
      (by intro i hi; simp [c1, Nat.ne_of_lt hi])
      (by intro b' hb'; rw [hlands.below _ (by simp)]; simp [c1, s] at hb' ⊢; simp [hb'])
    rw [setBranchKey_self] at hstep
    simp only [hleft, List.getLast?_append, List.getLast?_singleton, Option.some_or, Option.map_some,
      hidx, Option.getD_some, hlink]
    refine ⟨_, r ++ [s] ++ p, a', k', v, rfl, hstep.root, ⟨?_, hstep.stopped hknown hrest v⟩, ?_⟩
    . rw [List.append_assoc, Path.plug_append, hr]
      exact hplug'
    . simp [Path.after_append, hafter, Path.after, s]

/-- A leaf and the inside of a node's string are in front or still ahead as a whole. -/
theorem prevTop_whole {c : Cursor} {f : Transition} {p : Path} {u : Tree}
    (hstack : c.stack = f :: frames p) (hnode : f.node = u.addr) (hkeypos : f.keypos = p.str.length)
    (hlen : u.isLeaf = true ∨ f.prefixLen < u.label.length) (hcmp : f.cmp = -1 ∨ f.cmp = 1)
    (hkey : p.str <+: c.currentKey) (hrest : c.restKey = []) (hknown : Known c.branchKey p)
    (hplug : p.plug u = t) (hstored : Tree.Stored rd t) (hwf : t.WF) (hshallow : t.Shallow) :
    (f.cmp = -1 ∧ ∃ c', prevTop rd c = (false, c') ∧ c'.root = c.root ∧ c'.pop.Returns p) ∨
    (f.cmp = 1 ∧ ∃ c' q a k v, prevTop rd c = (true, c') ∧ c'.root = c.root ∧
      c'.OnLeaf t q a k v ∧ q.after = p.after) := by
  have hstored' := (Path.stored_plug.mp (hplug ▸ hstored)).2
  have hwf' := (Path.wf_plug.mp (hplug ▸ hwf)).2.2
  have hpos : u16 p.str.length = p.str.length := u16_eq (hshallow.str_lt hplug)
  have hroot := hstored'.root
  rw [← hnode] at hroot
  have hcur := hkey
  obtain ⟨w, hcur⟩ := hcur
  match u with
  | .leaf a k v =>
    rw [prevTop]
    simp only [hstack, hroot, Tree.root]
    rcases hcmp with hcmp | hcmp
    . left
      rw [if_neg (by omega)]
      exact ⟨hcmp, _, rfl, rfl, pop_returns hstack hkeypos hkey hrest hknown⟩
    . right
      rw [if_pos (by omega)]
      have hlands : c.Lands (c.leafStep f (frames p) ⟨k, v.big, v.bytes⟩) p [] a k := by
        refine ⟨⟨f.linkIdx, ?_⟩, rfl, rfl, ?_, fun _ _ => rfl, known_nil _⟩
        . simp [leafStep, hkeypos, hpos, hnode, Tree.addr]
        . simp [leafStep, hkeypos, ← hcur]
      exact ⟨hcmp, _, p, a, k, v, rfl, rfl, ⟨hplug, hlands.stopped hknown hrest v⟩, rfl⟩
  | .node a k arr =>
    have hshort : f.prefixLen < k.length := by
      rcases hlen with hlen | hlen
      . simp [Tree.isLeaf] at hlen
      . exact hlen
    have hne : f.cmp ≠ 0 := by omega
    rw [prevTop]
    simp only [hstack, hroot, Tree.root, hne, ↓reduceIte, TrieNode.len, hshort]
    rcases hcmp with hcmp | hcmp
    . left
      rw [if_pos (by omega)]
      refine ⟨hcmp, _, rfl, rfl, pop_returns (f := f) hstack hkeypos ?_ hrest hknown⟩
      simp [hkeypos, ← hcur]
    . right
      rw [if_neg (by omega)]
      have harrives : (c.resizeKey f.keypos).Arrives p (.node a k arr) := by
        refine ⟨⟨f, hstack, hnode, hkeypos.trans hpos.symm⟩, ?_⟩
        simp [hkeypos, ← hcur]
      have hheight := Tree.height_le_deepest hwf'
      have hdeep := Tree.deepest_plug p (.node a k arr)
      rw [hplug] at hdeep
      rw [Tree.Shallow] at hshallow
      obtain ⟨r, a', k', v, hr, hafter, hlands⟩ := lastTop_lands (n := MAX_DEPTH) harrives hplug
        hstored' hwf' hshallow (by rw [MAX_DEPTH, MAX_KEY_SIZE]; omega)
      refine ⟨hcmp, _, r ++ p, a', k', v, rfl, hlands.root, ⟨?_, ?_⟩, ?_⟩
      . rw [Path.plug_append, hr, hplug]
      . exact hlands.stopped hknown hrest v
      . simp [Path.after_append, hafter]

end Prev

/-- Where the key has ended no branch is in front of the branch key. -/
def PrevOk (rd : Addr → Node) (c : Cursor) : Prop :=
  ∀ e ∈ endedAt rd c, ∀ x ∈ e.1.array, Branch.toInt (some e.2) ≤ x.1.toInt

instance (rd : Addr → Node) (c : Cursor) : Decidable (PrevOk rd c) :=
  inferInstanceAs (Decidable (∀ e ∈ endedAt rd c, ∀ x ∈ e.1.array, _))

/-- Where the key has ended nothing is in front of a branch key that is not behind a branch. -/
theorem below_of_forall_le {arr : List (Branch × Tree)} {b : UInt8}
    (h : ∀ x ∈ arr, Branch.toInt (some b) ≤ x.1.toInt) :
    Branches.below arr (some b) = Branches.below arr none := by
  rw [Branches.below, Branches.below]
  rw [List.filter_eq_nil_iff.mpr, List.filter_eq_nil_iff.mpr]
  . intro x hx
    have := Branch.neg_one_le_toInt x.1
    rw [decide_eq_true_eq, Branch.toInt_none]
    omega
  . intro x hx
    have := h x hx
    rw [decide_eq_true_eq]
    omega

/-- A key between the branches of a node. -/
theorem prevTop_between {rd : Addr → Node} {t : Tree} {c : Cursor} {f : Transition} {p : Path}
    {a : Addr} {k w K : Key} {arr : List (Branch × Tree)} (hstack : c.stack = f :: frames p)
    (hnode : f.node = a) (hkeypos : f.keypos = p.str.length) (hcmp : f.cmp ≠ 0)
    (hlen : f.prefixLen = k.length) (hkey : p.str <+: c.currentKey) (hrest : c.restKey = [])
    (hknown : Known c.branchKey p) (hplug : p.plug (.node a k arr) = t)
    (hstored : Tree.Stored rd t) (hwf : t.WF) (hshallow : t.Shallow)
    (hset : Branches.isset arr w.head? = false)
    (hbelow : Branches.below arr (some (c.branchKey p.length)) = Branches.below arr w.head?)
    (hcut : ∀ l r, OrdMap.CutBelow (Tree.node a k arr).entries (k ++ w) l r →
      OrdMap.CutBelow t.entries K (p.before ++ Tree.behind p.str l)
        (Tree.behind p.str r ++ p.after)) :
    (∃ c', prevTop rd c = (false, c') ∧ c'.root = c.root ∧ c'.pop.Returns p ∧
      OrdMap.CutBelow t.entries K p.before
        (Tree.behind p.str (Tree.node a k arr).entries ++ p.after)) ∨
    (∃ c' q a k v l, prevTop rd c = (true, c') ∧ c'.root = c.root ∧ c'.OnLeaf t q a k v ∧
      OrdMap.CutBelow t.entries K l q.after) := by
  obtain ⟨-, -, hsort, hh, -⟩ := Tree.wf_node.mp (Path.wf_plug.mp (hplug ▸ hwf)).2.2
  have hcut := hcut _ _ (Tree.cutBelow_missing hsort hh hset a k)
  rcases prevTop_missing hstack hnode hkeypos hcmp hlen hkey hrest hknown hplug hstored hwf hshallow
    (Branches.below_append_above hsort hset) hbelow with
    ⟨hnil, c', htop, hroot, hret⟩ | ⟨c', q, a', k', v, htop, hroot, hleaf, hq⟩
  . left
    have hentries := Tree.entries_of_not_isset hsort hset a k
    rw [hnil, Tree.branchEntries_nil, Tree.behind_nil, List.nil_append] at hentries
    rw [hnil, ← hentries] at hcut
    exact ⟨c', htop, hroot, hret, by simpa using hcut⟩
  . right
    rw [Tree.behind_behind p.str k (Tree.branchEntries (Branches.above _ _)), ← hq] at hcut
    exact ⟨c', q, a', k', v, _, htop, hroot, hleaf, hcut⟩

/-- What the first look at the node on top of the stack comes to. -/
theorem prevTop_stopped {rd : Addr → Node} {t : Tree} {c : Cursor} {s : Stop} {K : Key}
    (h : c.Stopped s) (hends : s.Ends t K) (hok : PrevOk rd c) (hstored : Tree.Stored rd t)
    (hwf : t.WF) (hshallow : t.Shallow) :
    (∃ c', prevTop rd { c with restKey := [] } = (false, c') ∧ c'.root = c.root ∧
      c'.pop.Returns s.path ∧
      OrdMap.CutBelow t.entries K s.path.before
        (Tree.behind s.path.str s.tree.entries ++ s.path.after)) ∨
    (∃ c' q a k v l, prevTop rd { c with restKey := [] } = (true, c') ∧ c'.root = c.root ∧
      c'.OnLeaf t q a k v ∧ OrdMap.CutBelow t.entries K l q.after) := by
  obtain ⟨p, u, pre, cmp, rest⟩ := s
  obtain ⟨idx, hstack⟩ := h.stack
  have hplug : p.plug u = t := hends.plug
  have hpos : u16 p.str.length = p.str.length := u16_eq (hshallow.str_lt hplug)
  have hstored' := (Path.stored_plug.mp (hplug ▸ hstored)).2
  have hkey : p.str <+: c.currentKey := by
    rw [h.currentKey]
    exact List.prefix_append _ _
  have hcut := fun l r => hends.cutBelow (l := l) (r := r) hwf
  have hverdict := hends.verdict
  generalize Stop.suffix _ = suf at hcut hverdict
  have hall : (∀ e ∈ u.entries, suf ≤ e.1) →
      OrdMap.CutBelow t.entries K p.before (Tree.behind p.str u.entries ++ p.after) := fun hle => by
    simpa using hcut [] u.entries ⟨by simp, by simp, hle⟩
  have hnone : (∀ e ∈ u.entries, e.1 < suf) →
      OrdMap.CutBelow t.entries K (p.before ++ Tree.behind p.str u.entries) p.after := fun hlt =>
    hcut u.entries [] ⟨by simp, hlt, by simp⟩
  cases hverdict with
  | hit a v htree hlen hcmp hrest =>
    left
    simp only at htree hlen hcmp hrest
    subst htree hlen hcmp hrest
    have hrd : rd a = .leaf ⟨_, v.big, v.bytes⟩ := rd_leaf hstored'
    refine ⟨{ c with restKey := [] }, ?_, rfl, pop_returns hstack hpos hkey rfl h.known, hall ?_⟩
    . rw [prevTop]
      simp only [hstack, Tree.addr, hrd]
      rw [if_neg (by omega)]
    . intro e he
      rw [Tree.entries_leaf, List.mem_singleton] at he
      exact le_of_eq (by rw [he])
  | ahead hlen hcmp hlt =>
    simp only at hcmp
    subst hcmp
    rcases prevTop_whole (c := { c with restKey := [] }) hstack rfl hpos hlen (Or.inl rfl) hkey rfl
      h.known hplug hstored hwf hshallow with ⟨-, c', htop, hroot, hret⟩ | ⟨hcmp, -⟩
    . left
      exact ⟨c', htop, hroot, hret, hall (fun e he => le_of_lt (hlt e he))⟩
    . simp at hcmp
  | behind hlen hcmp hlt =>
    simp only at hcmp
    subst hcmp
    rcases prevTop_whole (c := { c with restKey := [] }) hstack rfl hpos hlen (Or.inr rfl) hkey rfl
      h.known hplug hstored hwf hshallow with ⟨hcmp, -⟩ | ⟨-, c', q, a, k, v, htop, hroot, hleaf, hq⟩
    . simp at hcmp
    . right
      exact ⟨c', q, a, k, v, _, htop, hroot, hleaf, hq ▸ hnone hlt⟩
  | exhausted a arr htree hlen hcmp hrest hset =>
    simp only at htree hlen hcmp hrest
    subst htree hlen hcmp hrest
    have hbelow : Branches.below arr (some (c.branchKey p.length)) = Branches.below arr none := by
      refine below_of_forall_le ?_
      intro x hx
      refine hok _ (h.endedAt hstored') (x.1, x.2.addr) ?_
      exact List.mem_map_of_mem (f := fun y => (y.1, y.2.addr)) hx
    exact prevTop_between (c := { c with restKey := [] }) (w := []) hstack rfl hpos (by simp) rfl
      hkey rfl h.known hplug hstored hwf hshallow hset hbelow (by simpa using hcut)
  | missing a k arr b w htree hlen hcmp hrest hsuf hset =>
    simp only at htree hlen hcmp hrest
    subst htree hlen hcmp hrest hsuf
    have hb : c.branchKey p.length = b := h.missing b w rfl rfl
    exact prevTop_between (c := { c with restKey := [] }) (w := b :: w) hstack rfl hpos
      (by simp [NOT_FOUND]) rfl hkey rfl h.known hplug hstored hwf hshallow hset
      (by rw [← hb]; rfl) hcut

/-- `prev` from where a search has ended. -/
theorem prev_stopped {rd : Addr → Node} {t : Tree} {c : Cursor} {s : Stop} {K : Key}
    (h : c.Stopped s) (hends : s.Ends t K) (hok : PrevOk rd c) (hstored : Tree.Stored rd t)
    (hwf : t.WF) (hshallow : t.Shallow) :
    (prev rd c).root = c.root ∧ ∃ l r, OrdMap.CutBelow t.entries K l r ∧
      (l = [] ∧ (prev rd c).stack = [] ∨
      ∃ q a k v, (prev rd c).OnLeaf t q a k v ∧ q.after = r) := by
  obtain ⟨idx, hstack⟩ := h.stack
  have hne : c.stack ≠ [] := by simp [hstack]
  have hlen : c.stack.length = s.path.length + 1 := by simp [hstack]
  rw [prev, hlen, prevLoop, if_neg hne]
  rcases prevTop_stopped h hends hok hstored hwf hshallow with
    ⟨c', htop, hroot, hret, hcut⟩ | ⟨c', q, a, k, v, l, htop, hroot, hleaf, hcut⟩
  . simp only [htop]
    obtain ⟨h1, h2⟩ :=
      prevLoop_returns hret (Nat.le_refl _) hends.plug hstored hwf hshallow
    refine ⟨by rw [h1, root_pop, hroot], _, _, hcut, h2⟩
  . simp only [htop]
    exact ⟨hroot, _, _, hcut, Or.inr ⟨q, a, k, v, hleaf, rfl⟩⟩

end Cursor
end Leaves
