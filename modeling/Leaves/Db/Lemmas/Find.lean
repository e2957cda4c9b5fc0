import Leaves.Db.Lemmas.Frames

/-!
`find` ends where the search in the trie ends, from a new cursor as well as from a stack that is
kept.
-/

namespace Leaves
namespace Cursor

/-- The search stops at a node after `size` bytes of its string. -/
theorem stopped_of_advance {c : Cursor} {p : Path} {u : Tree} (pre : Nat) (cmp : Int) (c' : Cursor)
    (h : c.Enters p u) (hpre : c.restKey.take pre = u.label.take pre)
    (hstack : ∃ idx, c'.stack =
      { node := u.addr, prefixLen := pre, keypos := u16 p.str.length, cmp, linkIdx := idx } ::
        frames p)
    (hrest : c'.restKey = c.restKey.drop pre)
    (hkey : c'.currentKey = c.currentKey ++ c.restKey.take pre)
    (hknown : Known c'.branchKey p)
    (hmissing : ∀ b w, cmp = NOT_FOUND → c.restKey.drop pre = b :: w → c'.branchKey p.length = b) :
    c'.Stopped ⟨p, u, pre, cmp, c.restKey.drop pre⟩ := by
  refine ⟨hstack, hrest, ?_, hknown, hmissing⟩
  rw [hkey, hpre, h.currentKey]

/-- The comparison of a key with a string is never `NOT_FOUND`. -/
theorem getPrefix_ne_notFound (s c : Key) : (getPrefix s c).2 ≠ NOT_FOUND := by
  rcases getPrefix_cases s c with ⟨r, -, h⟩ | ⟨-, h, -⟩ | ⟨-, h, -⟩
  . rw [h]
    simp only [NOT_FOUND]
    split <;> simp
  . simp [h, NOT_FOUND]
  . simp [h, NOT_FOUND]

theorem findTop_leaf {rd : Addr → Node} {c : Cursor} {p : Path} {a : Addr} {k : Key} {v : Value}
    {fuel : Nat} (h : c.Enters p (.leaf a k v)) (hstored : Tree.Stored rd (.leaf a k v)) :
    (findTop rd (fuel + 1) c).Stopped ((Tree.leaf a k v).search p c.restKey) := by
  obtain ⟨f, hstack, hnode, hkeypos⟩ := h.stack
  have hrd : rd f.node = .leaf ⟨k, v.big, v.bytes⟩ := by
    rw [hnode]
    exact rd_leaf hstored
  rw [Tree.search_leaf, findTop]
  simp only [hstack, hrd]
  refine stopped_of_advance _ _ _ h (take_getPrefix _ _) ⟨f.linkIdx, ?_⟩ rfl rfl h.known ?_
  . simp [← hnode, ← hkeypos]
  . intro b w hcmp
    exact absurd hcmp (getPrefix_ne_notFound _ _)

/-- A search that reaches the branches of a node. -/
theorem findTop_node {rd : Addr → Node} {c : Cursor} {p : Path} {a : Addr} {k r : Key}
    {arr : List (Branch × Tree)} {fuel : Nat} (h : c.Enters p (.node a k arr))
    (hstored : Tree.Stored rd (.node a k arr)) (hsort : Branches.Sorted arr)
    (hr : c.restKey = k ++ r)
    (ih : ∀ x ∈ arr, ∀ s : Step, s.tree x.2 = .node a k arr → s.branch = x.1 →
      ∀ c' : Cursor, c'.Enters (s :: p) x.2 → c'.restKey = r →
      (findTop rd fuel c').Stopped (x.2.search (s :: p) r)) :
    (findTop rd (fuel + 1) c).Stopped ((Tree.node a k arr).search p c.restKey) := by
  obtain ⟨f, hstack, hnode, hkeypos⟩ := h.stack
  have hrd : rd f.node = .trie ⟨k, Branches.mapSnd Tree.addr arr⟩ := by
    rw [hnode]
    exact rd_node hstored
  have hpre : (getPrefix (k ++ r) k).1 = k.length := Tree.getPrefix_self_append k r
  rw [findTop]
  simp only [hstack, hrd, hr, hpre, TrieNode.len, Nat.lt_irrefl, ↓reduceIte, restKey_advanceKey,
    List.drop_left]
  match r with
  | [] =>
    cases hset : Branches.isset arr none with
    | false =>
      rw [Tree.search_missing (by simpa using hset)]
      simp only [TrieNode.hasNone, Branches.isset_mapSnd, hset, Bool.false_eq_true, ↓reduceIte]
      have := stopped_of_advance k.length (-1) { c with
          stack := ⟨f.node, k.length, f.keypos, -1, f.linkIdx⟩ :: frames p
          currentKey := c.currentKey ++ k
          restKey := [] } h (by simp [hr, Tree.label])
        ⟨f.linkIdx, by simp [hnode, hkeypos]⟩ (by simp [hr]) (by simp [hr]) h.known
        (by simp [NOT_FOUND])
      simpa [hr, advanceKey] using this
    | true =>
      obtain ⟨l, x, r', rfl⟩ := Branches.exists_split hset
      have hl := left_eq_nil hsort
      subst hl
      simp only [TrieNode.hasNone, Branches.isset_mapSnd, hset, ↓reduceIte]
      have hlink := link_append_cons (c := k) (l := []) (r := r') (x := (none, x))
      rw [List.length_nil] at hlink
      rw [hlink]
      let s : Step := ⟨a, k, [], none, r'⟩
      have hsearch := Tree.search_branch (s := s) (t := x) (p := p) (k := []) hsort rfl
      have htree : s.tree x = .node a k ([] ++ (none, x) :: r') := rfl
      rw [htree] at hsearch
      simp only [s] at hsearch
      rw [hsearch]
      refine ih (none, x) (by simp) s htree rfl _ (push_enters ?_ ?_ ?_) ?_
      . simp [s, taken, hnode, hkeypos, Tree.addr]
      . simp [s, h.currentKey]
      . exact h.known.cons (by simp [s])
      . simp
  | b :: w =>
    cases hset : Branches.isset arr (some b) with
    | false =>
      rw [Tree.search_missing (by simpa using hset)]
      simp only [TrieNode.arrayIndex, Branches.arrayIndex_mapSnd,
        Branches.arrayIndex_of_not_isset hset, reduceCtorEq, ↓reduceIte]
      have := stopped_of_advance k.length NOT_FOUND { (c.setBranchKey (frames p).length b) with
          stack := ⟨f.node, k.length, f.keypos, NOT_FOUND, f.linkIdx⟩ :: frames p
          currentKey := c.currentKey ++ k
          restKey := b :: w } h (by simp [hr, Tree.label])
        ⟨f.linkIdx, by simp [hnode, hkeypos]⟩ (by simp [hr]) (by simp [hr])
        (h.known.set_of_le (by simp)) (by simp [hr])
      simpa [hr, advanceKey, setBranchKey] using this
    | true =>
      obtain ⟨l, x, r', rfl⟩ := Branches.exists_split hset
      simp only [TrieNode.arrayIndex, Branches.arrayIndex_mapSnd,
        Branches.arrayIndex_append_cons hsort, link_append_cons]
      let s : Step := ⟨a, k, l, some b, r'⟩
      have hsearch := Tree.search_branch (s := s) (t := x) (p := p) (k := b :: w) hsort rfl
      have htree : s.tree x = .node a k (l ++ (some b, x) :: r') := rfl
      rw [htree] at hsearch
      simp only [s] at hsearch
      rw [hsearch]
      refine ih (some b, x) (by simp) s htree rfl _ (push_enters ?_ ?_ ?_) ?_
      . simp [s, taken, hnode, hkeypos, Tree.addr]
      . simp [s, h.currentKey]
      . refine (h.known.set_of_le (by simp)).cons ?_
        intro b' hb'
        simp only [s, Option.some.injEq] at hb'
        simp [hb']
      . simp

/--
The transitions that are left to push: every node below the root takes at least one byte of the key,
except for a last empty leaf.
-/
def Reaches (fuel : Nat) (u : Tree) (key : Key) : Prop :=
  0 < fuel ∧ (u.isLeaf = false → key.length + 2 ≤ fuel + min u.label.length 1)

theorem Reaches.child {fuel : Nat} {a : Addr} {k r : Key} {arr : List (Branch × Tree)}
    (h : Reaches (fuel + 1) (.node a k arr) (k ++ r)) {x : Branch × Tree} (hx : Tree.Hangs x) :
    Reaches fuel x.2 r := by
  have hle := h.2 rfl
  rw [Tree.label, List.length_append] at hle
  refine ⟨by omega, ?_⟩
  intro hleaf
  have hne : x.2.label ≠ [] := by
    intro hnil
    have hnone : x.1 = none := by
      rw [← hx.1, Tree.head, hnil]
      rfl
    rw [hx.2 hnone] at hleaf
    exact absurd hleaf (by decide)
  have := List.length_pos_iff.mpr hne
  omega

/-- From any node on, the cursor finds what the search finds. -/
theorem findTop_stopped {rd : Addr → Node} {u : Tree} {c : Cursor} {p : Path} {fuel : Nat}
    (h : c.Enters p u) (hstored : Tree.Stored rd u) (hwf : u.WF)
    (hfuel : Reaches fuel u c.restKey) : (findTop rd fuel c).Stopped (u.search p c.restKey) := by
  induction u using Tree.induct generalizing c p fuel with
  | leaf a k v =>
    match fuel with
    | 0 => exact absurd hfuel.1 (by decide)
    | fuel + 1 => exact findTop_leaf h hstored
  | node a k arr ih =>
    match fuel with
    | 0 => exact absurd hfuel.1 (by decide)
    | fuel + 1 =>
      obtain ⟨-, -, hsort, hh, hw⟩ := Tree.wf_node.mp hwf
      by_cases hshort : (getPrefix c.restKey k).1 < k.length
      . obtain ⟨f, hstack, hnode, hkeypos⟩ := h.stack
        have hrd : rd f.node = .trie ⟨k, Branches.mapSnd Tree.addr arr⟩ := by
          rw [hnode]
          exact rd_node hstored
        rw [Tree.search_short a arr p hshort, findTop]
        simp only [hstack, hrd, TrieNode.len, hshort, ↓reduceIte]
        refine stopped_of_advance _ _ _ h (take_getPrefix _ _) ⟨f.linkIdx, ?_⟩ rfl rfl h.known ?_
        . simp [← hnode, ← hkeypos]
        . intro b w hcmp
          exact absurd hcmp (getPrefix_ne_notFound _ _)
      . obtain ⟨r, hr⟩ : ∃ r, c.restKey = k ++ r := by
          rcases getPrefix_cases c.restKey k with ⟨r, hr, -⟩ | ⟨h1, -⟩ | ⟨h1, -⟩
          . exact ⟨r, hr⟩
          . exact absurd h1 hshort
          . exact absurd h1 hshort
        refine findTop_node h hstored hsort hr ?_
        intro x hx s hs _ c' hc' hrest
        rw [← hrest]
        refine ih x hx hc' (hstored.child hx) (hw x hx) ?_
        rw [hrest]
        exact Reaches.child (hr ▸ hfuel) (hh x hx)

theorem Enters.findTop {rd : Addr → Node} {t u : Tree} {c : Cursor} {p : Path} {key : Key}
    (h : c.Enters p u) (hplug : p.plug u = t) (hstored : Tree.Stored rd t) (hwf : t.WF)
    (hlen : key.length ≤ MAX_KEY_SIZE) (hleads : p.Leads c.restKey)
    (hkey : p.str ++ c.restKey = key) :
    (findTop rd MAX_DEPTH c).Stopped (t.search [] key) := by
  have hwf' := Path.wf_plug.mp (hplug ▸ hwf)
  have hstored' := (Path.stored_plug.mp (hplug ▸ hstored)).2
  have hle : p.str.length + c.restKey.length = key.length := by
    rw [← hkey, List.length_append]
  rw [← hkey, ← hplug, Tree.search_plug hwf'.1 hleads]
  refine findTop_stopped h hstored' hwf'.2.2 ⟨?_, ?_⟩
  . rw [MAX_DEPTH]
    omega
  . rw [MAX_DEPTH]
    omega

theorem root_findTop (rd : Addr → Node) (fuel : Nat) (c : Cursor) :
    (Cursor.findTop rd fuel c).root = c.root := by
  induction fuel generalizing c with
  | zero => rfl
  | succ fuel ih =>
    rw [Cursor.findTop]
    split
    . rfl
    . split
      . rfl
      . dsimp only
        split
        . rfl
        . split
          . split
            . rw [ih]
              rfl
            . rfl
          . split
            . rfl
            . rw [ih]
              rfl

/-- The part of a path's transitions that starts before a position of the key. -/
theorem dropWhile_frames {t u : Tree} {p : Path} (same : Nat) (hplug : p.plug u = t)
    (hshallow : t.Shallow) :
    (frames p).dropWhile (fun f => same ≤ f.keypos) = [] ∨
    ∃ (q : Path) (s : Step) (r : Path), p = q ++ s :: r ∧ r.str.length < same ∧
      (frames p).dropWhile (fun f => same ≤ f.keypos) = frames (s :: r) := by
  induction p generalizing u with
  | nil => exact Or.inl rfl
  | cons s p ih =>
    have hpos : (taken s p).keypos = (Path.str p).length := u16_eq (hshallow.str_lt (u := s.tree u) hplug)
    rw [frames_cons, List.dropWhile_cons]
    by_cases hle : same ≤ (Path.str p).length
    . rw [if_pos (by simpa [hpos] using hle)]
      rcases ih (u := s.tree u) hplug with h | ⟨q, s', r, hp, hlt, h⟩
      . exact Or.inl h
      . exact Or.inr ⟨s :: q, s', r, by simp [hp], hlt, h⟩
    . rw [if_neg (by simpa [hpos] using hle)]
      exact Or.inr ⟨[], s, p, rfl, by omega, rfl⟩

/-- Two strings that share more than `n` bytes. -/
theorem split_of_lt_getPrefix {key cur w p : Key} (hcur : cur = p ++ w)
    (hlt : p.length < (getPrefix key cur).1) :
    p ++ key.drop p.length = key ∧ w ≠ [] ∧ (key.drop p.length).head? = w.head? := by
  have htake := take_getPrefix key cur
  have hle := getPrefix_le_right key cur
  have hlen : cur.length = p.length + w.length := by simp [hcur]
  have hp : key.take p.length = p := by
    have := congrArg (List.take p.length) htake
    rw [List.take_take, List.take_take, Nat.min_eq_left (le_of_lt hlt)] at this
    simpa [hcur] using this
  have hget : key[p.length]? = cur[p.length]? := by
    have := congrArg (fun l => l[p.length]?) htake
    simpa [List.getElem?_take, hlt] using this
  refine ⟨?_, ?_, ?_⟩
  . have := List.take_append_drop p.length key
    rwa [hp] at this
  . intro hnil
    rw [hnil, List.length_nil] at hlen
    omega
  . rw [List.head?_drop, hget, hcur, List.getElem?_append_right (Nat.le_refl _)]
    simp [List.head?_eq_getElem?]

/-- `keep_stack` goes on from a transition above which the keys are the same. -/
theorem keepStack_enters {c : Cursor} {f : Transition} {p : Path} {u : Tree} {w : Key}
    (hne : c.restKey ≠ c.currentKey)
    (hdrop : c.stack.dropWhile (fun f => (getPrefix c.restKey c.currentKey).1 ≤ f.keypos) =
      f :: frames p)
    (hnode : f.node = u.addr) (hpos : f.keypos = p.str.length) (hu : u16 p.str.length = p.str.length)
    (hknown : Known c.branchKey p) (hcur : c.currentKey = p.str ++ w)
    (hlt : p.str.length < (getPrefix c.restKey c.currentKey).1) (hleads : w ≠ [] → p.Leads w) :
    ∃ c', c.keepStack = (false, c') ∧ c'.stack ≠ [] ∧ c'.root = c.root ∧ c'.Enters p u ∧
      p.Leads c'.restKey ∧ p.str ++ c'.restKey = c.restKey := by
  obtain ⟨hkey, hw, hhead⟩ := split_of_lt_getPrefix hcur hlt
  have hcond : ¬ ((getPrefix c.restKey c.currentKey).1 = c.restKey.length ∧
      (getPrefix c.restKey c.currentKey).1 = c.currentKey.length) := by
    rw [getPrefix_eq_length_iff]
    exact hne
  refine ⟨{ c.resizeKey f.keypos with
    stack := { f with prefixLen := 0, cmp := UNDEFINED } :: frames p
    restKey := c.restKey.drop f.keypos }, ?_, ?_⟩
  . rw [keepStack]
    simp only [hcond, ↓reduceIte, hdrop]
  . simp only [hpos]
    refine ⟨by simp, rfl, ⟨⟨⟨_, rfl, hnode, ?_⟩, ?_⟩, hknown⟩, ?_, hkey⟩
    . simp only [hu]
    . simp [hcur]
    . exact (hleads hw).congr hhead.symm

/-- After `keep_stack` the search for the new key goes on at a node it would have come to. -/
theorem keepStack_stopped {t : Tree} {c : Cursor} {s : Stop} {K key : Key} (h : c.Stopped s)
    (hends : s.Ends t K) (hwf : t.WF) (hshallow : t.Shallow) (hne : key ≠ c.currentKey) :
    ∃ c', ({ c with restKey := key } : Cursor).keepStack = (false, c') ∧ c'.root = c.root ∧
      (c'.stack = [] ∧ c'.restKey = key ∨
        c'.stack ≠ [] ∧ ∃ p u, c'.Enters p u ∧ p.plug u = t ∧ p.Leads c'.restKey ∧
          p.str ++ c'.restKey = key) := by
  obtain ⟨idx, hstack⟩ := h.stack
  have hwfp := (Path.wf_plug.mp (hends.plug ▸ hwf)).1
  have hpos : u16 s.path.str.length = s.path.str.length := u16_eq (hshallow.str_lt hends.plug)
  by_cases hle : (getPrefix key c.currentKey).1 ≤ s.path.str.length
  . rcases dropWhile_frames (getPrefix key c.currentKey).1 hends.plug hshallow with
      hdrop | ⟨q, s', r, hp, hlt, hdrop⟩
    . refine ⟨{ c with restKey := key, stack := [] }, ?_, rfl, Or.inl ⟨rfl, rfl⟩⟩
      rw [keepStack]
      have hcond : ¬ ((getPrefix key c.currentKey).1 = key.length ∧
          (getPrefix key c.currentKey).1 = c.currentKey.length) := by
        rw [getPrefix_eq_length_iff]
        exact hne
      simp only [hcond, ↓reduceIte, hstack, List.dropWhile_cons, hpos, hle, decide_true, hdrop]
    . have hplug : r.plug (s'.tree (q.plug s.tree)) = t := by
        rw [← hends.plug, hp, Path.plug_append, Path.plug_cons]
      have hwfr : Path.WF (s' :: r) := (Path.wf_plug (t := q.plug s.tree).mp (hplug ▸ hwf)).1
      have hr : u16 r.str.length = r.str.length := u16_eq (hshallow.str_lt hplug)
      obtain ⟨c', h1, h2, h3, h4, h5, h6⟩ := keepStack_enters (c := { c with restKey := key })
        (f := taken s' r) (p := r) (u := s'.tree (q.plug s.tree))
        (w := s'.compressed ++ q.str ++ s.tree.label.take s.prefixLen) hne
        (by simp only [hstack, List.dropWhile_cons, hpos, hle, decide_true, hdrop]; rfl)
        rfl hr hr ((hp ▸ h.known).drop.tail) (by simp [h.currentKey, hp, Path.str_append]) hlt
        (fun _ => by rw [List.append_assoc]; exact Path.leads_step hwfr _)
      exact ⟨c', h1, h3, Or.inr ⟨h2, _, _, h4, hplug, h5, h6⟩⟩
  . have hlt : s.path.str.length < (getPrefix key c.currentKey).1 := by omega
    obtain ⟨c', h1, h2, h3, h4, h5, h6⟩ := keepStack_enters (c := { c with restKey := key })
      (u := s.tree) hne
      (by simp only [hstack, List.dropWhile_cons, hpos, hle, decide_false]; rfl)
      rfl rfl hpos h.known h.currentKey hlt (fun hw => hends.leads.congr (by
        rw [Stop.suffix, List.head?_append_of_ne_nil _ hw]))
    exact ⟨c', h1, h3, Or.inr ⟨h2, _, _, h4, hends.plug, h5, h6⟩⟩

/-- `find` does not go wrong at a key it has been stuck on before. -/
def FindOk (c : Cursor) (key : Key) : Prop := c.stack = [] ∨ key ≠ c.currentKey ∨ c.restKey = []

instance (c : Cursor) (key : Key) : Decidable (FindOk c key) :=
  inferInstanceAs (Decidable (_ ∨ _ ∨ _))

theorem find_of_le {rd : Addr → Node} {c : Cursor} {key : Key} (hlen : key.length ≤ MAX_KEY_SIZE) :
    c.find rd key =
      if c.stack = [] then some (findRest rd { c with restKey := key })
      else
        match ({ c with restKey := key } : Cursor).keepStack with
        | (true, c) => some c
        | (false, c) => some (findRest rd c) := by
  unfold find
  exact if_neg (Nat.not_lt.mpr hlen)

theorem findRest_of_ne_nil {rd : Addr → Node} {c : Cursor} (h : c.stack ≠ []) :
    c.findRest rd = findTop rd MAX_DEPTH c := by
  rw [findRest, if_neg h]

/-- From an empty stack the search starts at the root. -/
theorem findRest_stopped {rd : Addr → Node} {t : Tree} {c : Cursor} {key : Key}
    (hroot : c.root = t.addr) (haddr : t.addr ≠ 0) (hstack : c.stack = []) (hrest : c.restKey = key)
    (hstored : Tree.Stored rd t) (hwf : t.WF) (hlen : key.length ≤ MAX_KEY_SIZE) :
    (c.findRest rd).Stopped (t.search [] key) ∧ (c.findRest rd).root = c.root := by
  have henters : (({ c with currentKey := [] } : Cursor).push c.root).Enters [] t := by
    rw [hroot]
    exact push_enters hstack rfl (known_nil _)
  rw [findRest, if_pos hstack, if_neg (hroot ▸ haddr)]
  refine ⟨henters.findTop rfl hstored hwf hlen (Path.leads_nil _) ?_, ?_⟩
  . simpa using hrest
  . rw [root_findTop]
    rfl

/-- `find` ends where the search from the root ends, whatever the stack that is kept. -/
theorem find_stopped {rd : Addr → Node} {t : Tree} {c : Cursor} {key : Key}
    (hroot : c.root = t.addr) (haddr : t.addr ≠ 0)
    (hpos : c.stack = [] ∨ ∃ K, c.Stopped (t.search [] K)) (hstored : Tree.Stored rd t)
    (hwf : t.WF) (hshallow : t.Shallow) (hlen : key.length ≤ MAX_KEY_SIZE) (hok : c.FindOk key) :
    ∃ c', c.find rd key = some c' ∧ c'.root = c.root ∧ c'.Stopped (t.search [] key) := by
  rw [find_of_le hlen]
  by_cases hnil : c.stack = []
  . rw [if_pos hnil]
    obtain ⟨h1, h2⟩ := findRest_stopped (c := { c with restKey := key }) hroot haddr hnil rfl hstored
      hwf hlen
    exact ⟨_, rfl, h2, h1⟩
  . rw [if_neg hnil]
    obtain ⟨K, h⟩ := hpos.resolve_left hnil
    have hends : (t.search [] K).Ends t K := Tree.search_root_ends hwf K
    by_cases hkey : key = c.currentKey
    . -- the cursor is already there, nothing has been left to find
      have hrest : c.restKey = [] := (hok.resolve_left hnil).resolve_left (not_not_intro hkey)
      have hK : K = key := by
        rw [hends.key, Stop.suffix, ← h.restKey, hrest, List.append_nil, hkey, h.currentKey]
      have hkeep : ({ c with restKey := key } : Cursor).keepStack = (true, c) := by
        rw [keepStack]
        simp only [← hkey, getPrefix_self, and_self, ↓reduceIte, List.drop_length, ← hrest]
        rw [hkey]
      rw [hkeep]
      exact ⟨c, rfl, rfl, hK ▸ h⟩
    . obtain ⟨c', hkeep, hroot', hcase⟩ := keepStack_stopped h hends hwf hshallow hkey
      rw [hkeep]
      refine ⟨_, rfl, ?_⟩
      rcases hcase with ⟨hstack, hrest⟩ | ⟨hstack, p, u, henters, hplug, hleads, hstr⟩
      . obtain ⟨h1, h2⟩ := findRest_stopped (hroot'.trans hroot) haddr hstack hrest hstored hwf
          hlen
        exact ⟨h2.trans hroot', h1⟩
      . rw [findRest_of_ne_nil hstack]
        refine ⟨?_, henters.findTop hplug hstored hwf hlen hleads hstr⟩
        rw [root_findTop, hroot']

end Cursor
end Leaves
