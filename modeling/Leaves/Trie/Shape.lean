import Leaves.Trie.Reduce

/-!
The shape of a trie without addresses and values. A trie whose nodes all branch has the only shape
that its keys allow.
-/

namespace Leaves

inductive Shape where
  | leaf (key : Key)
  | node (compressed : Key) (array : List (Branch × Shape))

/-- The keys of the tries of a shape. -/
def Shape.keys : Shape → List Key
  | .leaf k => [k]
  | .node c arr => (go arr).map (c ++ ·)
where
  go : List (Branch × Shape) → List Key
    | [] => []
    | (_, s) :: arr => s.keys ++ go arr

namespace Tree

def shape : Tree → Shape
  | .leaf _ k _ => .leaf k
  | .node _ c arr => .node c (go arr)
where
  go : List (Branch × Tree) → List (Branch × Shape)
    | [] => []
    | (b, t) :: arr => (b, t.shape) :: go arr

/-- Every node of the trie has at least two branches. -/
def Branching : Tree → Prop
  | .leaf _ _ _ => True
  | .node _ _ arr => 2 ≤ arr.length ∧ go arr
where
  go : List (Branch × Tree) → Prop
    | [] => True
    | (_, t) :: arr => t.Branching ∧ go arr

theorem shape_go_eq (arr : List (Branch × Tree)) : shape.go arr = Branches.mapSnd shape arr := by
  induction arr with
  | nil => rfl
  | cons x arr ih => rw [shape.go, ih, Branches.mapSnd_cons]

@[simp]
theorem shape_leaf (a : Addr) (k : Key) (v : Value) : (leaf a k v).shape = .leaf k := by
  rw [shape]

@[simp]
theorem shape_node (a : Addr) (c : Key) (arr : List (Branch × Tree)) :
    (node a c arr).shape = .node c (Branches.mapSnd shape arr) := by
  rw [shape, shape_go_eq]

theorem branching_go_iff (arr : List (Branch × Tree)) :
    Branching.go arr ↔ ∀ x ∈ arr, x.2.Branching := by
  induction arr with
  | nil => simp [Branching.go]
  | cons x arr ih => simp [Branching.go, ih]

@[simp]
theorem branching_leaf (a : Addr) (k : Key) (v : Value) : (leaf a k v).Branching := by
  simp [Branching]

@[simp]
theorem branching_node {a : Addr} {c : Key} {arr : List (Branch × Tree)} :
    (node a c arr).Branching ↔ 2 ≤ arr.length ∧ ∀ x ∈ arr, x.2.Branching := by
  simp [Branching, branching_go_iff]

theorem branching_extend {a : Addr} {c : Key} {t : Tree} :
    (t.extend a c).Branching ↔ t.Branching := by
  cases t with
  | leaf b k v => simp [extend]
  | node b k arr => simp [extend]

/-- The keys of a trie. -/
def keys (t : Tree) : List Key := t.entries.map (·.1)

/-- The keys below the branches of a node. -/
def branchKeys (arr : List (Branch × Tree)) : List Key := (branchEntries arr).map (·.1)

@[simp]
theorem keys_leaf (a : Addr) (k : Key) (v : Value) : (leaf a k v).keys = [k] := rfl

theorem keys_node (a : Addr) (c : Key) (arr : List (Branch × Tree)) :
    (node a c arr).keys = (branchKeys arr).map (c ++ ·) := by
  simp [keys, branchKeys, behind, Function.comp_def]

theorem branchKeys_cons (x : Branch × Tree) (arr : List (Branch × Tree)) :
    branchKeys (x :: arr) = x.2.keys ++ branchKeys arr := by
  simp [branchKeys, keys]

theorem keys_shape (t : Tree) : t.shape.keys = t.keys := by
  induction t using Tree.induct with
  | leaf a k v => rfl
  | node a c arr ih =>
    have hgo : Shape.keys.go (Branches.mapSnd shape arr) = branchKeys arr := by
      induction arr with
      | nil => rfl
      | cons x arr iharr =>
        rw [Branches.mapSnd_cons, Shape.keys.go, branchKeys_cons, ih x (by simp),
          iharr fun y hy => ih y (List.mem_cons_of_mem _ hy)]
    rw [shape_node, Shape.keys, hgo, keys_node]

theorem keys_ne_nil {t : Tree} (h : t.WF) : t.keys ≠ [] := by
  rw [keys, Ne, List.map_eq_nil_iff]
  exact entries_ne_nil h

theorem mem_branchKeys {arr : List (Branch × Tree)} {k : Key} :
    k ∈ branchKeys arr ↔ ∃ x ∈ arr, k ∈ x.2.keys := by
  simp only [branchKeys, keys, List.mem_map, mem_branchEntries]
  constructor
  . rintro ⟨e, ⟨x, hx, he⟩, rfl⟩
    exact ⟨x, hx, e, he, rfl⟩
  . rintro ⟨x, hx, e, he, rfl⟩
    exact ⟨e, ⟨x, hx, he⟩, rfl⟩

/-- Every key under a branch starts with its byte. -/
theorem head?_of_mem_keys {x : Branch × Tree} (hx : Hangs x) {k : Key} (hk : k ∈ x.2.keys) :
    k.head? = x.1 := by
  obtain ⟨e, he, rfl⟩ := List.mem_map.mp hk
  obtain ⟨b, t⟩ := x
  cases b with
  | some b => exact head_of_mem_entries hx.1 he
  | none =>
    obtain ⟨a, v, rfl⟩ := entries_of_hangs_none hx
    simp only [entries_leaf, List.mem_singleton] at he
    rw [he]
    rfl

section Unique

variable {arr arr' : List (Branch × Tree)}

/-- A string in front of all keys below a node that branches is in front of the branches. -/
theorem prefix_of_branching (hsort : Branches.Sorted arr) (hh : ∀ x ∈ arr, Hangs x)
    (hwf : ∀ x ∈ arr, x.2.WF) (htwo : 2 ≤ arr.length) {c c' : Key}
    (h : ∀ k ∈ branchKeys arr, c' <+: c ++ k) : c' <+: c := by
  match arr with
  | x :: y :: arr =>
    obtain ⟨k, hk⟩ := List.exists_mem_of_ne_nil _ (keys_ne_nil (hwf x (by simp)))
    obtain ⟨l, hl⟩ := List.exists_mem_of_ne_nil _ (keys_ne_nil (hwf y (by simp)))
    have hkx := head?_of_mem_keys (hh x (by simp)) hk
    have hly := head?_of_mem_keys (hh y (by simp)) hl
    have hne : x.1 ≠ y.1 := by
      intro heq
      have hlt := (List.pairwise_cons.mp hsort).1 y (by simp)
      rw [heq] at hlt
      omega
    have h1 := h k (mem_branchKeys.mpr ⟨x, by simp, hk⟩)
    have h2 := h l (mem_branchKeys.mpr ⟨y, by simp, hl⟩)
    rcases List.prefix_or_prefix_of_prefix h1 (List.prefix_append c k) with hle | hle
    . exact hle
    . obtain ⟨w, rfl⟩ := hle
      rw [List.prefix_append_right_inj] at h1 h2
      cases w with
      | nil => simp
      | cons b w =>
        -- both branches would have to start with the next byte
        obtain ⟨u, rfl⟩ := h1
        obtain ⟨u', rfl⟩ := h2
        rw [← hkx, ← hly] at hne
        exact absurd rfl hne

/-- The keys of the first branch end where the next byte changes. -/
theorem split_branchKeys {x : Branch × Tree} (hsort : Branches.Sorted (x :: arr))
    (hh : ∀ y ∈ x :: arr, Hangs y) :
    (branchKeys (x :: arr)).takeWhile (fun k => k.head? = x.1) = x.2.keys ∧
      (branchKeys (x :: arr)).dropWhile (fun k => k.head? = x.1) = branchKeys arr := by
  have hin : ∀ k ∈ x.2.keys, decide (k.head? = x.1) = true := by
    intro k hk
    exact decide_eq_true (head?_of_mem_keys (hh x (by simp)) hk)
  have hout : ∀ k ∈ branchKeys arr, ¬ decide (k.head? = x.1) = true := by
    intro k hk heq
    obtain ⟨y, hy, hky⟩ := mem_branchKeys.mp hk
    have hhead := head?_of_mem_keys (hh y (List.mem_cons_of_mem _ hy)) hky
    have hlt := (List.pairwise_cons.mp hsort).1 y hy
    rw [← hhead, of_decide_eq_true heq] at hlt
    omega
  rw [branchKeys_cons, List.takeWhile_append_of_pos hin, List.dropWhile_append_of_pos hin]
  cases hk : branchKeys arr with
  | nil => simp
  | cons k l =>
    have hnot := hout k (by rw [hk]; exact List.mem_cons_self)
    rw [decide_eq_true_iff] at hnot
    simp [hnot]

/-- The branches of a node and what is below them follow from the keys. -/
theorem mapSnd_shape_unique (hsort : Branches.Sorted arr) (hsort' : Branches.Sorted arr')
    (hh : ∀ x ∈ arr, Hangs x) (hh' : ∀ x ∈ arr', Hangs x) (hwf : ∀ x ∈ arr, x.2.WF)
    (hwf' : ∀ x ∈ arr', x.2.WF) (hkeys : branchKeys arr = branchKeys arr')
    (ih : ∀ x ∈ arr, ∀ x' ∈ arr', x.2.keys = x'.2.keys → x.2.shape = x'.2.shape) :
    Branches.mapSnd shape arr = Branches.mapSnd shape arr' := by
  induction arr generalizing arr' with
  | nil =>
    cases arr' with
    | nil => rfl
    | cons x' arr' =>
      rw [branchKeys_cons] at hkeys
      exact absurd (List.append_eq_nil_iff.mp hkeys.symm).1 (keys_ne_nil (hwf' x' (by simp)))
  | cons x arr iharr =>
    cases arr' with
    | nil =>
      rw [branchKeys_cons] at hkeys
      exact absurd (List.append_eq_nil_iff.mp hkeys).1 (keys_ne_nil (hwf x (by simp)))
    | cons x' arr' =>
      have hbranch : x.1 = x'.1 := by
        obtain ⟨k, l, hk⟩ := List.exists_cons_of_ne_nil (keys_ne_nil (hwf x (by simp)))
        obtain ⟨k', l', hk'⟩ := List.exists_cons_of_ne_nil (keys_ne_nil (hwf' x' (by simp)))
        have hx := head?_of_mem_keys (hh x (by simp)) (hk ▸ List.mem_cons_self)
        have hx' := head?_of_mem_keys (hh' x' (by simp)) (hk' ▸ List.mem_cons_self)
        rw [branchKeys_cons, branchKeys_cons, hk, hk', List.cons_append, List.cons_append,
          List.cons.injEq] at hkeys
        rw [← hx, ← hx', hkeys.1]
      obtain ⟨htake, hdrop⟩ := split_branchKeys hsort hh
      obtain ⟨htake', hdrop'⟩ := split_branchKeys hsort' hh'
      rw [← hbranch, ← hkeys] at htake' hdrop'
      have hfirst := ih x (by simp) x' (by simp) (htake.symm.trans htake')
      have hrest := iharr hsort.of_cons hsort'.of_cons (fun y hy => hh y (by simp [hy]))
        (fun y hy => hh' y (by simp [hy])) (fun y hy => hwf y (by simp [hy]))
        (fun y hy => hwf' y (by simp [hy])) (hdrop.symm.trans hdrop')
        (fun y hy y' hy' => ih y (by simp [hy]) y' (by simp [hy']))
      rw [Branches.mapSnd_cons, Branches.mapSnd_cons, hbranch, hfirst, hrest]

end Unique

theorem one_lt_length_keys {a : Addr} {c : Key} {arr : List (Branch × Tree)}
    (hwf : (node a c arr).WF) (hb : (node a c arr).Branching) : 1 < (node a c arr).keys.length := by
  obtain ⟨-, -, -, -, hw⟩ := wf_node.mp hwf
  match arr, branching_node.mp hb with
  | x :: y :: arr, _ =>
    have hx := List.length_pos_iff.mpr (keys_ne_nil (hw x (by simp)))
    have hy := List.length_pos_iff.mpr (keys_ne_nil (hw y (by simp)))
    rw [keys_node, List.length_map, branchKeys_cons, branchKeys_cons, List.length_append,
      List.length_append]
    omega

/-- The keys determine the shape. -/
theorem shape_unique {t t' : Tree} (hwf : t.WF) (hwf' : t'.WF) (hb : t.Branching)
    (hb' : t'.Branching) (hkeys : t.keys = t'.keys) : t.shape = t'.shape := by
  induction t using Tree.induct generalizing t' with
  | leaf a k v =>
    cases t' with
    | leaf a' k' v' =>
      simp only [keys_leaf, List.cons.injEq, and_true] at hkeys
      rw [shape_leaf, shape_leaf, hkeys]
    | node a' c' arr' =>
      have hlen := one_lt_length_keys hwf' hb'
      rw [← hkeys, keys_leaf, List.length_singleton] at hlen
      omega
  | node a c arr ih =>
    cases t' with
    | leaf a' k' v' =>
      have hlen := one_lt_length_keys hwf hb
      rw [hkeys, keys_leaf, List.length_singleton] at hlen
      omega
    | node a' c' arr' =>
      obtain ⟨-, -, hsort, hh, hw⟩ := wf_node.mp hwf
      obtain ⟨-, -, hsort', hh', hw'⟩ := wf_node.mp hwf'
      obtain ⟨htwo, hchild⟩ := branching_node.mp hb
      obtain ⟨htwo', hchild'⟩ := branching_node.mp hb'
      rw [keys_node, keys_node] at hkeys
      have hle : c' <+: c := by
        apply prefix_of_branching hsort hh hw htwo
        intro k hk
        have hmem := List.mem_map_of_mem (f := (c ++ ·)) hk
        rw [hkeys] at hmem
        obtain ⟨k', -, hk'⟩ := List.mem_map.mp hmem
        rw [← hk']
        exact List.prefix_append _ _
      have hge : c <+: c' := by
        apply prefix_of_branching hsort' hh' hw' htwo'
        intro k hk
        have hmem := List.mem_map_of_mem (f := (c' ++ ·)) hk
        rw [← hkeys] at hmem
        obtain ⟨k', -, hk'⟩ := List.mem_map.mp hmem
        rw [← hk']
        exact List.prefix_append _ _
      have hc : c = c' := hge.eq_of_length_le hle.length_le
      subst hc
      have hbelow : branchKeys arr = branchKeys arr' :=
        List.map_injective_iff.mpr (fun _ _ h => List.append_cancel_left h) hkeys
      rw [shape_node, shape_node,
        mapSnd_shape_unique hsort hsort' hh hh' hw hw' hbelow fun x hx x' hx' h =>
          ih x hx (hw x hx) (hw' x' hx') (hchild x hx) (hchild' x' hx') h]

/-- Tries of one shape have as many entries. -/
theorem length_entries_of_shape {t t' : Tree} (h : t.shape = t'.shape) :
    t.entries.length = t'.entries.length := by
  have hkeys := congrArg (fun s => s.keys.length) h
  simpa only [keys_shape, keys, List.length_map] using hkeys

end Tree

/-- Everything beside the path branches, and so do its nodes, whatever is at the end. -/
def Path.Branching (p : Path) : Prop :=
  ∀ s ∈ p, s.left ++ s.right ≠ [] ∧ ∀ x ∈ s.left ++ s.right, x.2.Branching

namespace Path

variable {s : Step} {p p' : Path} {t : Tree}

theorem branching_cons : Branching (s :: p) ↔
    (s.left ++ s.right ≠ [] ∧ ∀ x ∈ s.left ++ s.right, x.2.Branching) ∧ Branching p := by
  simp only [Branching, List.mem_cons, forall_eq_or_imp]

theorem branching_tree : (s.tree t).Branching ↔
    (s.left ++ s.right ≠ [] ∧ ∀ x ∈ s.left ++ s.right, x.2.Branching) ∧ t.Branching := by
  rw [Step.tree, Tree.branching_node]
  have hlen : 2 ≤ (s.left ++ (s.branch, t) :: s.right).length ↔ s.left ++ s.right ≠ [] := by
    rw [← List.length_pos_iff]
    simp only [List.length_append, List.length_cons]
    omega
  rw [hlen, and_assoc]
  simp only [List.mem_append, List.mem_cons]
  constructor
  . rintro ⟨hne, h⟩
    refine ⟨hne, fun x hx => h x ?_, h (s.branch, t) (by simp)⟩
    tauto
  . rintro ⟨hne, h, ht⟩
    refine ⟨hne, fun x hx => ?_⟩
    rcases hx with hx | rfl | hx
    . exact h x (Or.inl hx)
    . exact ht
    . exact h x (Or.inr hx)

theorem branching_plug : (plug p t).Branching ↔ Branching p ∧ t.Branching := by
  induction p generalizing t with
  | nil => simp [Branching]
  | cons s p ih =>
    rw [plug_cons, ih, branching_tree, branching_cons]
    tauto

theorem Twin.branching (h : Twin p p') : Branching p' ↔ Branching p := by
  induction h with
  | nil => rfl
  | @cons s s' p p' hs h ih =>
    rw [branching_cons, branching_cons, ih, hs]

end Path

/-- The trie branches wherever it has a node. -/
def Trie.Branching (m : Trie) : Prop := ∀ t, m = some t → t.Branching

end Leaves
