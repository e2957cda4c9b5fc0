import Leaves.Trie.Path

/-!
Searching a key in a trie: where the way down ends, and how the key compares with what is there.
-/

namespace Leaves

/-- `branch_key` was not found. -/
def NOT_FOUND : Int := 2

/-- The place a search ends at. -/
structure Stop where
  path : Path
  tree : Tree
  /-- count of equal chars in the string of the node -/
  prefixLen : Nat
  /-- how the key compares with the node, see `Transition.cmp` -/
  cmp : Int
  /-- what is left of the key -/
  rest : Key

namespace Tree

/-- The search for `key` from a node that the path leads to. -/
def search : Tree → Path → Key → Stop
  | .leaf a k v, p, key =>
    let (pre, cmp) := getPrefix key k
    ⟨p, .leaf a k v, pre, cmp, key.drop pre⟩
  | .node a c arr, p, key =>
    let (pre, cmp) := getPrefix key c
    let rest := key.drop pre
    if pre < c.length then
      ⟨p, .node a c arr, pre, cmp, rest⟩
    else
      match go a c [] arr p rest with
      | some s => s
      | none => ⟨p, .node a c arr, pre, if rest = [] then -1 else NOT_FOUND, rest⟩
where
  go (a : Addr) (c : Key) (left : List (Branch × Tree)) :
      List (Branch × Tree) → Path → Key → Option Stop
    | [], _, _ => none
    | (b, t) :: right, p, rest =>
      if b = rest.head? then some (t.search (⟨a, c, left, b, right⟩ :: p) rest)
      else go a c (left ++ [(b, t)]) right p rest

theorem search_leaf (a : Addr) (k : Key) (v : Value) (p : Path) (key : Key) :
    (leaf a k v).search p key =
      ⟨p, leaf a k v, (getPrefix key k).1, (getPrefix key k).2, key.drop (getPrefix key k).1⟩ := by
  simp [search]

/-- The search ends inside the string of a node. -/
theorem search_short {c key : Key} (a : Addr) (arr : List (Branch × Tree)) (p : Path)
    (h : (getPrefix key c).1 < c.length) :
    (node a c arr).search p key =
      ⟨p, node a c arr, (getPrefix key c).1, (getPrefix key c).2,
        key.drop (getPrefix key c).1⟩ := by
  simp [search, h]

theorem getPrefix_self_append (c rest : Key) : (getPrefix (c ++ rest) c).1 = c.length := by
  have h := getPrefix_append_left c rest []
  rw [List.append_nil] at h
  rw [h]
  have := getPrefix_le_right rest []
  simp only [List.length_nil, Nat.le_zero_eq] at this
  simp [this]

theorem go_append_cons {a : Addr} {c : Key} {left l r : List (Branch × Tree)} {b : Branch}
    {t : Tree} {p : Path} {rest : Key} (hl : ∀ x ∈ l, x.1 ≠ rest.head?) (hb : b = rest.head?) :
    search.go a c left (l ++ (b, t) :: r) p rest =
      some (t.search (⟨a, c, left ++ l, b, r⟩ :: p) rest) := by
  induction l generalizing left with
  | nil => simp [search.go, hb]
  | cons x l ih =>
    obtain ⟨b', t'⟩ := x
    simp only [List.mem_cons, forall_eq_or_imp] at hl
    rw [List.cons_append, search.go, if_neg hl.1, ih hl.2]
    simp

/-- The search goes on below a branch. -/
theorem search_branch {s : Step} {t : Tree} {p : Path} {k : Key}
    (hs : Branches.Sorted (s.left ++ (s.branch, t) :: s.right)) (hb : k.head? = s.branch) :
    (s.tree t).search p (s.compressed ++ k) = t.search (s :: p) k := by
  have hl : ∀ x ∈ s.left, x.1 ≠ k.head? := by
    intro x hx heq
    have := (Branches.sorted_append_cons.mp hs).2.2.1 x hx
    rw [heq, hb] at this
    omega
  rw [Step.tree, search]
  simp only [getPrefix_self_append, List.drop_left, Nat.lt_irrefl, ↓reduceIte]
  rw [go_append_cons hl hb.symm]
  simp

theorem go_eq_none {a : Addr} {c : Key} {left arr : List (Branch × Tree)} {p : Path} {rest : Key}
    (h : Branches.isset arr rest.head? = false) : search.go a c left arr p rest = none := by
  induction arr generalizing left with
  | nil => simp [search.go]
  | cons x arr ih =>
    obtain ⟨b, t⟩ := x
    simp only [Branches.isset, List.any_cons, Bool.or_eq_false_iff, beq_eq_false_iff_ne] at h
    rw [search.go, if_neg h.1]
    exact ih h.2

/-- The search ends at a node without the branch. -/
theorem search_missing {a : Addr} {c : Key} {arr : List (Branch × Tree)} {p : Path} {rest : Key}
    (h : Branches.isset arr rest.head? = false) :
    (node a c arr).search p (c ++ rest) =
      ⟨p, node a c arr, c.length, if rest = [] then -1 else NOT_FOUND, rest⟩ := by
  rw [search]
  simp only [getPrefix_self_append, List.drop_left, Nat.lt_irrefl, ↓reduceIte]
  rw [go_eq_none h]

/-- A search from the root comes along the path. -/
theorem search_plug {p : Path} {t : Tree} {rest : Key} (hwf : Path.WF p) (hk : Path.Leads p rest) :
    (p.plug t).search [] (p.str ++ rest) = t.search p rest := by
  induction p generalizing t rest with
  | nil => simp
  | cons s p ih =>
    rw [Path.plug_cons, Path.str_cons, List.append_assoc]
    rw [ih hwf.2.2.2.2.2 (Path.leads_step hwf rest)]
    exact search_branch (Branches.sorted_replace hwf.2.1) hk

end Tree

/-- What the search for `key` has found at a place. -/
inductive Stop.Verdict (s : Stop) (key : Key) : Prop
  | hit (a : Addr) (v : Value) (htree : s.tree = .leaf a key v) (hlen : s.prefixLen = key.length)
      (hcmp : s.cmp = 0) (hrest : s.rest = [])
  | ahead (hlen : s.tree.isLeaf = true ∨ s.prefixLen < s.tree.label.length) (hcmp : s.cmp = -1)
      (hlt : ∀ e ∈ s.tree.entries, key < e.1)
  | behind (hlen : s.tree.isLeaf = true ∨ s.prefixLen < s.tree.label.length) (hcmp : s.cmp = 1)
      (hlt : ∀ e ∈ s.tree.entries, e.1 < key)
  | exhausted (a : Addr) (arr : List (Branch × Tree)) (htree : s.tree = .node a key arr)
      (hlen : s.prefixLen = key.length) (hcmp : s.cmp = -1) (hrest : s.rest = [])
      (hset : Branches.isset arr none = false)
  | missing (a : Addr) (c : Key) (arr : List (Branch × Tree)) (b : UInt8) (w : Key)
      (htree : s.tree = .node a c arr) (hlen : s.prefixLen = c.length) (hcmp : s.cmp = NOT_FOUND)
      (hrest : s.rest = b :: w) (hkey : key = c ++ b :: w)
      (hset : Branches.isset arr (some b) = false)

/-- The part of the key that the search has not left behind on the path. -/
def Stop.suffix (s : Stop) : Key := s.tree.label.take s.prefixLen ++ s.rest

/-- The end of a search for `key` in the trie `t`. -/
structure Stop.Ends (s : Stop) (t : Tree) (key : Key) : Prop where
  plug : s.path.plug s.tree = t
  prefixLen : s.prefixLen = (getPrefix s.suffix s.tree.label).1
  key : key = s.path.str ++ s.suffix
  leads : s.path.Leads s.suffix
  verdict : s.Verdict s.suffix

namespace Tree

theorem take_append_drop_getPrefix (key c : Key) :
    c.take (getPrefix key c).1 ++ key.drop (getPrefix key c).1 = key := by
  rw [← take_getPrefix, List.take_append_drop]

theorem lt_of_before {c key : Key} (h : Lex.Before key c) {es : List (Key × Value)}
    (hc : ∀ e ∈ es, c <+: e.1) : ∀ e ∈ es, key < e.1 := by
  intro e he
  obtain ⟨w, hw⟩ := hc e he
  rw [← hw]
  exact h w

theorem lt_of_behind {c key : Key} (h : Lex.Behind key c) {es : List (Key × Value)}
    (hc : ∀ e ∈ es, c <+: e.1) : ∀ e ∈ es, e.1 < key := by
  intro e he
  obtain ⟨w, hw⟩ := hc e he
  rw [← hw]
  exact h w

/-- The suffix of a search that ends at the comparison with a string. -/
theorem suffix_getPrefix (p : Path) (u : Tree) (key : Key) :
    Stop.suffix ⟨p, u, (getPrefix key u.label).1, (getPrefix key u.label).2,
      key.drop (getPrefix key u.label).1⟩ = key :=
  take_append_drop_getPrefix key u.label

theorem search_ends_leaf {t : Tree} {p : Path} {key : Key} {a : Addr} {k : Key} {v : Value}
    (hplug : p.plug (leaf a k v) = t) (hk : p.Leads key) :
    ((leaf a k v).search p key).Ends t (p.str ++ key) := by
  have hsuf := suffix_getPrefix p (leaf a k v) key
  rw [label] at hsuf
  rw [search_leaf]
  refine ⟨hplug, by rw [hsuf]; rfl, by rw [hsuf], by rw [hsuf]; exact hk, ?_⟩
  rw [hsuf]
  rcases getPrefix_cases key k with ⟨r, rfl, h⟩ | ⟨h1, h2, h3⟩ | ⟨h1, h2, h3⟩
  . cases r with
    | nil =>
      rw [List.append_nil] at h ⊢
      exact .hit a v rfl (by simp) (by simp) (by simp)
    | cons b r =>
      refine .behind (Or.inl rfl) (by simp [h]) ?_
      simp only [entries_leaf, List.mem_singleton, forall_eq]
      have hlt := (Lex.append_lt_append_iff k [] (b :: r)).mpr (by simp)
      rwa [List.append_nil] at hlt
  . exact .ahead (Or.inl rfl) h2 (lt_of_before h3 (by simp))
  . exact .behind (Or.inl rfl) h2 (lt_of_behind h3 (by simp))

/-- What a search finds. -/
theorem search_ends {t u : Tree} {p : Path} {key : Key} (hplug : p.plug u = t) (hwf : t.WF)
    (hk : p.Leads key) : (u.search p key).Ends t (p.str ++ key) := by
  induction u using Tree.induct generalizing p key with
  | leaf a k v => exact search_ends_leaf hplug hk
  | node a c arr ih =>
    have hprefix : ∀ e ∈ (node a c arr).entries, c <+: e.1 := fun e he =>
      prefix_of_mem_entries (t := node a c arr) he
    have hsuf := suffix_getPrefix p (node a c arr) key
    rw [label] at hsuf
    rcases getPrefix_cases key c with ⟨r, rfl, -⟩ | ⟨h1, h2, h3⟩ | ⟨h1, h2, h3⟩
    . cases hset : Branches.isset arr r.head? with
      | false =>
        rw [search_missing hset]
        have hsuf : Stop.suffix ⟨p, node a c arr, c.length, if r = [] then -1 else NOT_FOUND, r⟩ =
            c ++ r := by simp [Stop.suffix, label]
        refine ⟨hplug, ?_, by rw [hsuf], by rw [hsuf]; exact hk, ?_⟩
        . rw [hsuf]
          exact (getPrefix_self_append c r).symm
        rw [hsuf]
        cases r with
        | nil => exact .exhausted a arr (by simp) (by simp) (by simp) rfl hset
        | cons b w => exact .missing a c arr b w rfl rfl (by simp) rfl rfl hset
      | true =>
        obtain ⟨l, x, r', rfl⟩ := Branches.exists_split hset
        let s : Step := ⟨a, c, l, r.head?, r'⟩
        have hwf' := (Path.wf_plug.mp (hplug ▸ hwf)).2.2
        have hsort := (wf_node.mp hwf').2.2.1
        have hsearch : (node a c (l ++ (r.head?, x) :: r')).search p (c ++ r) =
            x.search (s :: p) r := search_branch (s := s) hsort rfl
        rw [hsearch]
        have := ih (r.head?, x) (by simp) (p := s :: p) hplug rfl
        rwa [Path.str_cons, List.append_assoc] at this
    . rw [search_short a arr p h1]
      refine ⟨hplug, by rw [hsuf]; rfl, by rw [hsuf], by rw [hsuf]; exact hk, ?_⟩
      rw [hsuf]
      exact .ahead (Or.inr h1) h2 (lt_of_before h3 hprefix)
    . rw [search_short a arr p h1]
      refine ⟨hplug, by rw [hsuf]; rfl, by rw [hsuf], by rw [hsuf]; exact hk, ?_⟩
      rw [hsuf]
      exact .behind (Or.inr h1) h2 (lt_of_behind h3 hprefix)

end Tree

namespace Stop

variable {s : Stop} {t : Tree} {K : Key}

theorem Ends.le (h : s.Ends t K) : s.prefixLen ≤ s.tree.label.length := by
  rw [h.prefixLen]
  exact getPrefix_le_right _ _

theorem Ends.hit (h : s.Ends t K) {a : Addr} {k : Key} {v : Value} (htree : s.tree = .leaf a k v)
    (hkey : s.suffix = k) : s.cmp = 0 ∧ s.rest = [] := by
  cases h.verdict with
  | hit _ _ _ _ hcmp hrest => exact ⟨hcmp, hrest⟩
  | ahead _ _ hlt =>
    rw [htree, hkey] at hlt
    exact absurd (hlt (k, v) (by simp)) (lt_irrefl k)
  | behind _ _ hlt =>
    rw [htree, hkey] at hlt
    exact absurd (hlt (k, v) (by simp)) (lt_irrefl k)
  | exhausted _ _ htree' => simp [htree] at htree'
  | missing _ _ _ _ _ htree' => simp [htree] at htree'

theorem Ends.prefixLen_leaf (h : s.Ends t K) {a : Addr} {v : Value}
    (htree : s.tree = .leaf a s.suffix v) : s.prefixLen = s.suffix.length := by
  rw [h.prefixLen, htree, Tree.label, getPrefix_self]

theorem Ends.entries_leaf (h : s.Ends t K) {a : Addr} {v : Value}
    (htree : s.tree = .leaf a s.suffix v) :
    t.entries = s.path.before ++ (K, v) :: s.path.after := by
  rw [← h.plug, htree, Path.entries_plug, h.key]
  simp [Tree.behind]

theorem Ends.miss (h : s.Ends t K) {a : Addr} {k : Key} {v : Value} (htree : s.tree = .leaf a k v)
    (hkey : s.suffix ≠ k) : s.cmp ≠ 0 := by
  cases h.verdict with
  | hit _ _ htree' =>
    rw [htree, Tree.leaf.injEq] at htree'
    exact absurd htree'.2.1.symm hkey
  | ahead _ hcmp _ => rw [hcmp]; decide
  | behind _ hcmp _ => rw [hcmp]; decide
  | exhausted _ _ htree' => simp [htree] at htree'
  | missing _ _ _ _ _ htree' => simp [htree] at htree'

section Node

variable {a : Addr} {k : Key} {arr : List (Branch × Tree)}

theorem Ends.cmp_ne_zero (h : s.Ends t K) (htree : s.tree = .node a k arr) : s.cmp ≠ 0 := by
  cases h.verdict with
  | hit _ _ htree' => simp [htree] at htree'
  | ahead _ hcmp _ => rw [hcmp]; decide
  | behind _ hcmp _ => rw [hcmp]; decide
  | exhausted _ _ _ _ hcmp _ _ => rw [hcmp]; decide
  | missing _ _ _ _ _ _ _ hcmp _ _ _ => rw [hcmp]; decide

/-- Past the string of a node, the search ends where the branch is missing. -/
theorem Ends.unset (h : s.Ends t K) (htree : s.tree = .node a k arr) (hlen : s.prefixLen = k.length) :
    Branches.isset arr s.rest.head? = false := by
  have hshort : ¬ (s.tree.isLeaf = true ∨ s.prefixLen < s.tree.label.length) := by
    simp [htree, Tree.isLeaf, Tree.label, hlen]
  cases h.verdict with
  | hit _ _ htree' => simp [htree] at htree'
  | ahead hlen' _ _ => exact absurd hlen' hshort
  | behind hlen' _ _ => exact absurd hlen' hshort
  | exhausted _ _ htree' _ _ hrest hset =>
    rw [htree, Tree.node.injEq] at htree'
    rw [hrest, htree'.2.2]
    exact hset
  | missing _ _ _ _ _ htree' _ _ hrest _ hset =>
    rw [htree, Tree.node.injEq] at htree'
    rw [hrest, htree'.2.2]
    exact hset

theorem Ends.cmp_missing (h : s.Ends t K) (htree : s.tree = .node a k arr)
    (hlen : s.prefixLen = k.length) {b : UInt8} {w : Key} (hrest : s.rest = b :: w) :
    s.cmp = NOT_FOUND := by
  have hshort : ¬ (s.tree.isLeaf = true ∨ s.prefixLen < s.tree.label.length) := by
    simp [htree, Tree.isLeaf, Tree.label, hlen]
  cases h.verdict with
  | hit _ _ htree' => simp [htree] at htree'
  | ahead hlen' _ _ => exact absurd hlen' hshort
  | behind hlen' _ _ => exact absurd hlen' hshort
  | exhausted _ _ _ _ _ hrest' _ => simp [hrest] at hrest'
  | missing _ _ _ _ _ _ _ hcmp _ _ _ => exact hcmp

end Node

/-- The entries of the trie around the node a search ends at. -/
theorem Ends.entries (h : s.Ends t K) :
    t.entries = s.path.before ++ Tree.behind s.path.str s.tree.entries ++ s.path.after := by
  rw [← Path.entries_plug, h.plug]

theorem Ends.before_lt (h : s.Ends t K) (hwf : t.WF) : ∀ e ∈ s.path.before, e.1 < K := by
  intro e he
  rw [h.key]
  exact Path.before_lt (Path.wf_plug.mp (h.plug ▸ hwf)).1 h.leads e he

theorem Ends.lt_after (h : s.Ends t K) (hwf : t.WF) : ∀ e ∈ s.path.after, K < e.1 := by
  intro e he
  rw [h.key]
  exact Path.lt_after (Path.wf_plug.mp (h.plug ▸ hwf)).1 h.leads e he

theorem lt_behind {p k : Key} {es : List (Key × Value)} (h : ∀ e ∈ es, k < e.1) :
    ∀ e ∈ Tree.behind p es, p ++ k < e.1 := by
  intro e he
  obtain ⟨w, hw, hmem⟩ := Tree.mem_behind.mp (show (e.1, e.2) ∈ _ from he)
  rw [hw, Lex.append_lt_append_iff]
  exact h _ hmem

theorem behind_lt {p k : Key} {es : List (Key × Value)} (h : ∀ e ∈ es, e.1 < k) :
    ∀ e ∈ Tree.behind p es, e.1 < p ++ k := by
  intro e he
  obtain ⟨w, hw, hmem⟩ := Tree.mem_behind.mp (show (e.1, e.2) ∈ _ from he)
  rw [hw, Lex.append_lt_append_iff]
  exact h _ hmem

theorem le_behind {p k : Key} {es : List (Key × Value)} (h : ∀ e ∈ es, k ≤ e.1) :
    ∀ e ∈ Tree.behind p es, p ++ k ≤ e.1 := by
  intro e he
  obtain ⟨w, hw, hmem⟩ := Tree.mem_behind.mp (show (e.1, e.2) ∈ _ from he)
  rw [hw, ← not_lt, Lex.append_lt_append_iff, not_lt]
  exact h _ hmem

theorem behind_le {p k : Key} {es : List (Key × Value)} (h : ∀ e ∈ es, e.1 ≤ k) :
    ∀ e ∈ Tree.behind p es, e.1 ≤ p ++ k := by
  intro e he
  obtain ⟨w, hw, hmem⟩ := Tree.mem_behind.mp (show (e.1, e.2) ∈ _ from he)
  rw [hw, ← not_lt, Lex.append_lt_append_iff, not_lt]
  exact h _ hmem

/-- Cutting the entries of the node cuts the trie. -/
theorem Ends.cutAbove (h : s.Ends t K) (hwf : t.WF) {l r : List (Key × Value)}
    (hcut : OrdMap.CutAbove s.tree.entries s.suffix l r) :
    OrdMap.CutAbove t.entries K (s.path.before ++ Tree.behind s.path.str l)
      (Tree.behind s.path.str r ++ s.path.after) := by
  refine ⟨?_, ?_, ?_⟩
  . rw [h.entries, hcut.eq]
    simp
  . intro e he
    rcases List.mem_append.mp he with he | he
    . exact le_of_lt (h.before_lt hwf e he)
    . rw [h.key]
      exact behind_le hcut.le e he
  . intro e he
    rcases List.mem_append.mp he with he | he
    . rw [h.key]
      exact lt_behind hcut.lt e he
    . exact h.lt_after hwf e he

theorem Ends.cutBelow (h : s.Ends t K) (hwf : t.WF) {l r : List (Key × Value)}
    (hcut : OrdMap.CutBelow s.tree.entries s.suffix l r) :
    OrdMap.CutBelow t.entries K (s.path.before ++ Tree.behind s.path.str l)
      (Tree.behind s.path.str r ++ s.path.after) := by
  refine ⟨?_, ?_, ?_⟩
  . rw [h.entries, hcut.eq]
    simp
  . intro e he
    rcases List.mem_append.mp he with he | he
    . exact h.before_lt hwf e he
    . rw [h.key]
      exact behind_lt hcut.lt e he
  . intro e he
    rcases List.mem_append.mp he with he | he
    . rw [h.key]
      exact le_behind hcut.le e he
    . exact le_of_lt (h.lt_after hwf e he)

/-- The trie has the key if the node has the suffix. -/
theorem Ends.lookup_eq_none (h : s.Ends t K) (hwf : t.WF) (hne : ∀ e ∈ s.tree.entries, e.1 ≠ s.suffix) :
    OrdMap.lookup t.entries K = none := by
  rw [OrdMap.lookup_eq_none_iff, h.entries]
  intro e he
  rw [List.mem_append, List.mem_append] at he
  rcases he with (he | he) | he
  . exact ne_of_lt (h.before_lt hwf e he)
  . obtain ⟨w, hw, hmem⟩ := Tree.mem_behind.mp (show (e.1, e.2) ∈ _ from he)
    rw [hw, h.key]
    intro heq
    exact hne _ hmem (List.append_cancel_left heq)
  . exact ne_of_gt (h.lt_after hwf e he)

end Stop

namespace Tree

section Missing

variable {arr : List (Branch × Tree)} {rest : Key}

/-- A key that is missing below a node lies between its branches. -/
theorem below_lt (hh : ∀ x ∈ arr, Hangs x) :
    ∀ e ∈ branchEntries (Branches.below arr rest.head?), e.1 < rest := by
  intro e he
  obtain ⟨x, hx, hxe⟩ := mem_branchEntries.mp he
  obtain ⟨hmem, hlt⟩ := Branches.mem_below.mp hx
  exact Path.lt_of_branch_lt (hh x hmem) hlt hxe

theorem lt_above (hh : ∀ x ∈ arr, Hangs x) :
    ∀ e ∈ branchEntries (Branches.above arr rest.head?), rest < e.1 := by
  intro e he
  obtain ⟨x, hx, hxe⟩ := mem_branchEntries.mp he
  obtain ⟨hmem, hlt⟩ := Branches.mem_above.mp hx
  exact Path.gt_of_branch_lt (hh x hmem) hlt hxe

theorem entries_of_not_isset (hsort : Branches.Sorted arr)
    (hset : Branches.isset arr rest.head? = false) (a : Addr) (c : Key) :
    (node a c arr).entries = behind c (branchEntries (Branches.below arr rest.head?)) ++
      behind c (branchEntries (Branches.above arr rest.head?)) := by
  rw [entries_node, ← behind_append, ← branchEntries_append,
    Branches.below_append_above hsort hset]

theorem cutAbove_missing (hsort : Branches.Sorted arr) (hh : ∀ x ∈ arr, Hangs x)
    (hset : Branches.isset arr rest.head? = false) (a : Addr) (c : Key) :
    OrdMap.CutAbove (node a c arr).entries (c ++ rest)
      (behind c (branchEntries (Branches.below arr rest.head?)))
      (behind c (branchEntries (Branches.above arr rest.head?))) :=
  ⟨entries_of_not_isset hsort hset a c,
    Stop.behind_le (fun e he => le_of_lt (below_lt hh e he)), Stop.lt_behind (lt_above hh)⟩

theorem cutBelow_missing (hsort : Branches.Sorted arr) (hh : ∀ x ∈ arr, Hangs x)
    (hset : Branches.isset arr rest.head? = false) (a : Addr) (c : Key) :
    OrdMap.CutBelow (node a c arr).entries (c ++ rest)
      (behind c (branchEntries (Branches.below arr rest.head?)))
      (behind c (branchEntries (Branches.above arr rest.head?))) :=
  ⟨entries_of_not_isset hsort hset a c, Stop.behind_lt (below_lt hh),
    Stop.le_behind (fun e he => le_of_lt (lt_above hh e he))⟩

theorem ne_of_mem_missing {k : Key} (hsort : Branches.Sorted arr) (hh : ∀ x ∈ arr, Hangs x)
    (hset : Branches.isset arr k.head? = false) (a : Addr) (c : Key) :
    ∀ e ∈ (node a c arr).entries, e.1 ≠ c ++ k := by
  intro e he
  rw [entries_of_not_isset hsort hset, List.mem_append] at he
  rcases he with he | he
  . exact ne_of_lt (Stop.behind_lt (below_lt hh) e he)
  . exact ne_of_gt (Stop.lt_behind (lt_above hh) e he)

end Missing

end Tree

/-- The search ends at the leaf of the key, or the trie does not have the key. -/
theorem Stop.Ends.hit_or_miss {s : Stop} {t : Tree} {K : Key} (h : s.Ends t K) (hwf : t.WF) :
    (∃ a v, s.tree = .leaf a s.suffix v ∧ s.prefixLen = s.suffix.length ∧ s.cmp = 0 ∧
      OrdMap.lookup t.entries K = some v) ∨
    s.cmp ≠ 0 ∧ OrdMap.lookup t.entries K = none := by
  have hwf' : s.tree.WF := (Path.wf_plug.mp (h.plug ▸ hwf)).2.2
  have hmiss : s.cmp ≠ 0 → (∀ e ∈ s.tree.entries, e.1 ≠ s.suffix) →
      s.cmp ≠ 0 ∧ OrdMap.lookup t.entries K = none :=
    fun hcmp hne => ⟨hcmp, h.lookup_eq_none hwf hne⟩
  cases h.verdict with
  | hit a v htree hlen hcmp hrest =>
    have hentries := h.entries
    rw [htree] at hentries
    refine Or.inl ⟨a, v, htree, hlen, hcmp, ?_⟩
    rw [OrdMap.lookup_eq_some_iff (Tree.ascending_entries hwf), hentries, h.key]
    simp [Tree.mem_behind]
  | ahead hlen hcmp hlt => exact Or.inr (hmiss (by simp [hcmp]) fun e he => ne_of_gt (hlt e he))
  | behind hlen hcmp hlt => exact Or.inr (hmiss (by simp [hcmp]) fun e he => ne_of_lt (hlt e he))
  | exhausted a arr htree hlen hcmp hrest hset =>
    rw [htree] at hwf'
    obtain ⟨-, -, hsort, hh, -⟩ := Tree.wf_node.mp hwf'
    refine Or.inr (hmiss (by simp [hcmp]) ?_)
    have hne := Tree.ne_of_mem_missing (k := []) hsort hh hset a s.suffix
    rw [List.append_nil] at hne
    rwa [htree]
  | missing a k arr b w htree hlen hcmp hrest hsuf hset =>
    rw [htree] at hwf'
    obtain ⟨-, -, hsort, hh, -⟩ := Tree.wf_node.mp hwf'
    refine Or.inr (hmiss (by simp [hcmp, NOT_FOUND]) ?_)
    rw [htree, hsuf]
    exact Tree.ne_of_mem_missing (k := b :: w) hsort hh hset a k

namespace Tree

/-- The entry of a leaf is found again. -/
theorem search_self {t : Tree} {p : Path} {a : Addr} {k : Key} {v : Value}
    (hplug : p.plug (leaf a k v) = t) (hwf : t.WF) :
    t.search [] (p.str ++ k) = ⟨p, leaf a k v, k.length, 0, []⟩ := by
  have h := Path.wf_plug.mp (hplug ▸ hwf)
  have hleads : p.Leads k := by simpa [label] using h.2.1.leads [] (Or.inr rfl)
  rw [← hplug, search_plug h.1 hleads, search_leaf, getPrefix_self]
  simp

/-- What a search from the root finds. -/
theorem search_root_ends {t : Tree} (hwf : t.WF) (key : Key) : (t.search [] key).Ends t key :=
  search_ends (p := []) rfl hwf (Path.leads_nil key)

/-- The position of the last node of a way down. -/
def deepest : Tree → Nat
  | .leaf _ _ _ => 0
  | .node _ c arr => go c arr
where
  go (c : Key) : List (Branch × Tree) → Nat
    | [] => 0
    | (_, t) :: arr => max (c.length + t.deepest) (go c arr)

theorem deepest_le_of_mem {a : Addr} {c : Key} {arr : List (Branch × Tree)} {x : Branch × Tree}
    (hx : x ∈ arr) : c.length + x.2.deepest ≤ (node a c arr).deepest := by
  rw [deepest]
  induction arr with
  | nil => simp at hx
  | cons y arr ih =>
    obtain ⟨b, t⟩ := y
    rw [deepest.go]
    rcases List.mem_cons.mp hx with rfl | hx
    . exact Nat.le_max_left _ _
    . exact Nat.le_trans (ih hx) (Nat.le_max_right _ _)

theorem deepest_plug (p : Path) (u : Tree) : p.str.length + u.deepest ≤ (p.plug u).deepest := by
  induction p generalizing u with
  | nil => simp
  | cons s p ih =>
    have h1 := ih (s.tree u)
    have h2 : s.compressed.length + u.deepest ≤ (s.tree u).deepest :=
      deepest_le_of_mem (x := (s.branch, u)) (by simp)
    rw [Path.plug_cons, Path.str_cons, List.length_append]
    omega

theorem height_go_le {arr : List (Branch × Tree)} {n : Nat} (h : ∀ x ∈ arr, x.2.height ≤ n) :
    height.go arr ≤ n := by
  induction arr with
  | nil => simp [height.go]
  | cons x arr ih =>
    obtain ⟨b, t⟩ := x
    simp only [List.mem_cons, forall_eq_or_imp] at h
    rw [height.go]
    exact Nat.max_le.mpr ⟨h.1, ih h.2⟩

theorem height_lt_of_mem {a : Addr} {c : Key} {l : List (Branch × Tree)} {x : Branch × Tree}
    (hx : x ∈ l) : x.2.height < (node a c l).height := by
  rw [height, Nat.lt_succ_iff]
  induction l with
  | nil => simp at hx
  | cons y l ih =>
    obtain ⟨b, t⟩ := y
    rw [height.go]
    rcases List.mem_cons.mp hx with rfl | hx
    . exact Nat.le_max_left _ _
    . exact Nat.le_trans (ih hx) (Nat.le_max_right _ _)

/-- Every node below the root takes at least one byte of the key, except for a last empty leaf. -/
theorem height_le_deepest {t : Tree} (hwf : t.WF) :
    t.height ≤ t.deepest + 2 - min t.label.length 1 := by
  induction t using Tree.induct with
  | leaf a k v =>
    simp only [height, deepest, label]
    omega
  | node a c arr ih =>
    obtain ⟨-, -, -, hh, hw⟩ := wf_node.mp hwf
    have hgo : height.go arr ≤ (node a c arr).deepest + 1 - min c.length 1 := by
      refine height_go_le ?_
      intro x hx
      have h1 := ih x hx (hw x hx)
      have h2 := deepest_le_of_mem (a := a) (c := c) hx
      by_cases hnil : x.2.label = []
      . have hnone : x.1 = none := by
          rw [← (hh x hx).1, head, hnil, List.head?_nil]
        have hleaf := (hh x hx).2 hnone
        cases hx2 : x.2 with
        | leaf a' k' v' =>
          simp only [height]
          omega
        | node a' c' arr' => simp [hx2, isLeaf] at hleaf
      . have hpos : 0 < x.2.label.length := List.length_pos_iff.mpr hnil
        omega
    simp only [height, label]
    omega

/-- No node starts so far inside a key that its position does not fit into 16 bits. -/
def Shallow (t : Tree) : Prop := t.deepest < 65536

theorem Shallow.str_lt {t u : Tree} {p : Path} (h : t.Shallow) (hplug : p.plug u = t) :
    p.str.length < 65536 := by
  have h1 := deepest_plug p u
  rw [hplug] at h1
  rw [Shallow] at h
  omega

end Tree
/-- What is under a root: nothing under the null offset. -/
abbrev Trie := Option Tree

namespace Trie

def root : Trie → Addr
  | none => 0
  | some t => t.addr

/-- The map a trie represents. -/
def entries : Trie → List (Key × Value)
  | none => []
  | some t => t.entries

/-- The storage holds a trie of the proper shape. -/
structure Valid (rd : Addr → Node) (m : Trie) : Prop where
  addr_ne : ∀ t ∈ m, t.addr ≠ 0
  wf : ∀ t ∈ m, t.WF
  stored : ∀ t ∈ m, Tree.Stored rd t

def Shallow (m : Trie) : Prop := ∀ t ∈ m, t.Shallow

theorem Valid.ascending {rd : Addr → Node} {m : Trie} (h : m.Valid rd) :
    OrdMap.Ascending m.entries := by
  cases m with
  | none => exact OrdMap.ascending_nil
  | some t => exact Tree.ascending_entries (h.wf t rfl)

end Trie
end Leaves
