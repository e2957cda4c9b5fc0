import Leaves.Replication.Hash

/-!
Pruning: a node of the sender is left out if the hash the receiver looks up for its path is the
same. The strings that are hashed hold a key and a value, or the string of a node and the hashes of
its children, without their lengths.
-/

namespace Leaves

open OrdMap (Ascending)

variable (blake3 : List UInt8 → List UInt8)

/-- No two of the strings have the same hash. -/
def CollisionFree (strings : List (List UInt8)) : Prop :=
  ∀ x ∈ strings, ∀ y ∈ strings, blake3 x = blake3 y → x = y

variable {blake3} in
theorem CollisionFree.mono {xs ys : List (List UInt8)} (h : CollisionFree blake3 xs)
    (hsub : ys ⊆ xs) : CollisionFree blake3 ys :=
  fun x hx y hy => h x (hsub hx) y (hsub hy)

namespace Tree

variable (db db' : HashSource)

/-- Wherever the strings of two nodes below `p` and `q` are the same, they fall into the same parts.
(The hash of a trie that hangs where the other database has a leaf: it holds the same single entry.)
-/
def Alike : Key → Tree → Key → Tree → Prop
  | p, .leaf a k v, q, .leaf a' k' v' =>
    hashed blake3 db p (.leaf a k v) = hashed blake3 db' q (.leaf a' k' v') →
      (p ++ k).length = (q ++ k').length
  | p, .node a c arr, q, .node a' c' arr' =>
    hashed blake3 db p (.node a c arr) = hashed blake3 db' q (.node a' c' arr') →
      c.length = c'.length ∧ go (p ++ c) arr (q ++ c') arr'
  | p, s, q, r => hashed blake3 db p s = hashed blake3 db' q r → contents db p s = contents db' q r
where
  go : Key → List (Branch × Tree) → Key → List (Branch × Tree) → Prop
    | p, (_, s) :: arr, q, (_, r) :: arr' => Alike p s q r ∧ go p arr q arr'
    | _, _, _, _ => True

variable {blake3 db db'}

theorem Alike.of_imp {p q : Key} {s r : Tree}
    (h : hashed blake3 db p s = hashed blake3 db' q r → Alike blake3 db db' p s q r) :
    Alike blake3 db db' p s q r := by
  cases s <;> cases r <;> exact fun heq => h heq heq

variable (db) in
theorem contents_ne_nil (p : Key) {t : Tree} (h : t.WF) : contents db p t ≠ [] := by
  simp [contents, behind, entries_ne_nil h]

/-- The keys below a branch go on with its byte. -/
theorem branch_of_mem_contents {p : Key} {x : Branch × Tree} (hx : Hangs x) {k : Key}
    {d : List UInt8} (h : (k, d) ∈ contents db p x.2) : (k.drop p.length).head? = x.1 := by
  obtain ⟨v, hv, -⟩ := (mem_contents db).mp h
  obtain ⟨s, rfl, hs⟩ := mem_behind.mp hv
  rw [List.drop_left]
  obtain ⟨b, t⟩ := x
  cases b with
  | some b => exact head_of_mem_entries hx.1 hs
  | none =>
    obtain ⟨a, w, rfl⟩ := entries_of_hangs_none hx
    simp only [entries_leaf, List.mem_singleton, Prod.mk.injEq] at hs
    rw [hs.1]
    rfl

theorem ascending_contents {p : Key} {t : Tree} (h : t.WF) : Ascending (contents db p t) := by
  have hes : Ascending (behind p t.entries) := ascending_behind.mpr (ascending_entries h)
  rw [Ascending, contents, List.pairwise_map]
  exact hes

theorem Alike.go_contents_eq {p q : Key} {arr arr' : List (Branch × Tree)}
    (hgo : Alike.go blake3 db db' p arr q arr')
    (hmap : arr.map (fun x => blake3 (hashed blake3 db p x.2)) =
      arr'.map (fun x => blake3 (hashed blake3 db' q x.2)))
    (hch : ∀ x ∈ arr, ∀ y ∈ arr', Alike blake3 db db' p x.2 q y.2 →
      blake3 (hashed blake3 db p x.2) = blake3 (hashed blake3 db' q y.2) →
        contents db p x.2 = contents db' q y.2) :
    (arr.flatMap fun x => contents db p x.2) = arr'.flatMap fun x => contents db' q x.2 := by
  induction arr generalizing arr' with
  | nil =>
    cases arr' with
    | nil => rfl
    | cons y arr' => simp at hmap
  | cons x arr ih =>
    cases arr' with
    | nil => simp at hmap
    | cons y arr' =>
      simp only [List.map_cons, List.cons.injEq] at hmap
      simp only [Alike.go] at hgo
      have hxy := hch x (by simp) y (by simp) hgo.1 hmap.1
      have hrest := ih hgo.2 hmap.2 (fun x hx y hy => hch x (by simp [hx]) y (by simp [hy]))
      rw [List.flatMap_cons, List.flatMap_cons, hxy, hrest]

section Sound

variable (hlen : ∀ s, (blake3 s).length = HASH_SIZE)

include hlen

theorem length_hashes (p : Key) (arr : List (Branch × Tree)) :
    (arr.flatMap fun x => (HashTree.deepCopy blake3 db p x.2).page.hash).length =
      HASH_SIZE * arr.length := by
  induction arr with
  | nil => rfl
  | cons x arr ih =>
    rw [List.flatMap_cons, List.length_append, ih, hash_deepCopy, hlen, List.length_cons,
      Nat.mul_succ, Nat.add_comm]

/-- A string of hashes tells every one of them. -/
theorem hashes_eq {p q : Key} {arr arr' : List (Branch × Tree)}
    (h : (arr.flatMap fun x => (HashTree.deepCopy blake3 db p x.2).page.hash) =
      arr'.flatMap fun x => (HashTree.deepCopy blake3 db' q x.2).page.hash) :
    arr.map (fun x => blake3 (hashed blake3 db p x.2)) =
      arr'.map (fun x => blake3 (hashed blake3 db' q x.2)) := by
  have hcount : arr.length = arr'.length := by
    have := congrArg List.length h
    rw [length_hashes hlen, length_hashes hlen] at this
    exact Nat.eq_of_mul_eq_mul_left (by decide) this
  simp only [hash_deepCopy] at h
  rw [List.flatMap_def, List.flatMap_def] at h
  refine List.eq_iff_flatten_eq.mpr ⟨h, ?_⟩
  simp only [List.map_map, Function.comp_def, hlen, List.map_const', hcount]

/-- Under the same hash are the same keys and values. -/
theorem Alike.contents_eq {s r : Tree} {p q : Key} (h : Alike blake3 db db' p s q r)
    (hfree : CollisionFree blake3 (strings blake3 db p s ++ strings blake3 db' q r))
    (heq : hashed blake3 db p s = hashed blake3 db' q r) : contents db p s = contents db' q r := by
  induction s using Tree.induct generalizing p q r with
  | leaf a k v =>
    cases r with
    | node a' c' arr' => exact h heq
    | leaf a' k' v' =>
      have hkey := h heq
      rw [hashed, hashed] at heq
      obtain ⟨h1, h2⟩ := List.append_inj heq hkey
      rw [contents_leaf, contents_leaf, h1, h2]
  | node a c arr ih =>
    cases r with
    | leaf a' k' v' => exact h heq
    | node a' c' arr' =>
      obtain ⟨hc, hgo⟩ := h heq
      rw [hashed, hashed] at heq
      obtain ⟨-, hhs⟩ := List.append_inj heq hc
      have hmap := hashes_eq hlen hhs
      rw [contents_node, contents_node]
      refine Alike.go_contents_eq hgo hmap ?_
      intro x hx y hy hxy hhash
      have hfree' : CollisionFree blake3
          (strings blake3 db (p ++ c) x.2 ++ strings blake3 db' (q ++ c') y.2) :=
        hfree.mono (List.append_subset.mpr
          ⟨List.Subset.trans (strings_child blake3 db hx) (List.subset_append_left _ _),
            List.Subset.trans (strings_child blake3 db' hy) (List.subset_append_right _ _)⟩)
      refine ih x hx hxy hfree' (hfree' _ ?_ _ ?_ hhash)
      . exact List.mem_append_left _ (hashed_mem_strings blake3 db _ _)
      . exact List.mem_append_right _ (hashed_mem_strings blake3 db' _ _)

end Sound

section Exact

variable (hlen : ∀ s, (blake3 s).length = HASH_SIZE)

/-- The keys that go on with the first branch of a node are those below it. -/
theorem filter_contents {p : Key} {x : Branch × Tree} {arr : List (Branch × Tree)}
    (hs : Branches.Sorted (x :: arr)) (hh : ∀ y ∈ x :: arr, Hangs y) :
    ((x :: arr).flatMap fun y => contents db p y.2).filter
        (fun e => (e.1.drop p.length).head? = x.1) = contents db p x.2 := by
  have hx : (contents db p x.2).filter (fun e => (e.1.drop p.length).head? = x.1) =
      contents db p x.2 := by
    rw [List.filter_eq_self]
    intro e he
    rw [decide_eq_true_eq]
    exact branch_of_mem_contents (hh x (by simp)) he
  have harr : (arr.flatMap fun y => contents db p y.2).filter
      (fun e => (e.1.drop p.length).head? = x.1) = [] := by
    rw [List.filter_eq_nil_iff]
    intro e he
    obtain ⟨y, hy, hey⟩ := List.mem_flatMap.mp he
    have hlt := (List.pairwise_cons.mp hs).1 y hy
    rw [decide_eq_true_eq, branch_of_mem_contents (hh y (by simp [hy])) hey]
    intro heq
    rw [heq] at hlt
    exact lt_irrefl _ hlt
  rw [List.flatMap_cons, List.filter_append, hx, harr, List.append_nil]

/-- The keys of a node tell what is below every branch. -/
theorem Alike.go_of_contents {p : Key} {arr arr' : List (Branch × Tree)}
    (hs : Branches.Sorted arr) (hs' : Branches.Sorted arr') (hh : ∀ x ∈ arr, Hangs x ∧ x.2.WF)
    (hh' : ∀ x ∈ arr', Hangs x ∧ x.2.WF)
    (heq : (arr.flatMap fun x => contents db p x.2) = arr'.flatMap fun x => contents db' p x.2)
    (hch : ∀ x ∈ arr, ∀ y ∈ arr', contents db p x.2 = contents db' p y.2 →
      Alike blake3 db db' p x.2 p y.2) :
    Alike.go blake3 db db' p arr p arr' := by
  induction arr generalizing arr' with
  | nil => simp [Alike.go]
  | cons x arr ih =>
    cases arr' with
    | nil => simp [Alike.go]
    | cons y arr' =>
      have hbranch : x.1 = y.1 := by
        obtain ⟨e, l, hx⟩ := List.exists_cons_of_ne_nil
          (contents_ne_nil db p (hh x (by simp)).2)
        obtain ⟨f, l', hy⟩ := List.exists_cons_of_ne_nil
          (contents_ne_nil db' p (hh' y (by simp)).2)
        have hef : e = f := by
          rw [List.flatMap_cons, List.flatMap_cons, hx, hy] at heq
          exact (List.cons.inj heq).1
        rw [← branch_of_mem_contents (hh x (by simp)).1 (show (e.1, e.2) ∈ _ by rw [hx]; simp),
          ← branch_of_mem_contents (hh' y (by simp)).1 (show (f.1, f.2) ∈ _ by rw [hy]; simp), hef]
      have hxy : contents db p x.2 = contents db' p y.2 := by
        rw [← filter_contents hs (fun z hz => (hh z hz).1),
          ← filter_contents hs' (fun z hz => (hh' z hz).1), heq, hbranch]
      have hrest : (arr.flatMap fun x => contents db p x.2) =
          arr'.flatMap fun x => contents db' p x.2 := by
        rw [List.flatMap_cons, List.flatMap_cons, hxy] at heq
        exact List.append_cancel_left heq
      refine ⟨hch x (by simp) y (by simp) hxy, ih hs.of_cons hs'.of_cons ?_ ?_ hrest ?_⟩
      . exact fun z hz => hh z (by simp [hz])
      . exact fun z hz => hh' z (by simp [hz])
      . exact fun z hz w hw => hch z (by simp [hz]) w (by simp [hw])

include hlen

/-- A node with a shorter string would have a single branch, and the other one none. -/
theorem length_le_of_contents {p : Key} {a a' : Addr} {c c' : Key}
    {arr arr' : List (Branch × Tree)} (hwf : (node a c arr).WF) (hwf' : (node a' c' arr').WF)
    (heq : hashed blake3 db p (.node a c arr) = hashed blake3 db' p (.node a' c' arr'))
    (hcon : contents db p (.node a c arr) = contents db' p (.node a' c' arr')) :
    c'.length ≤ c.length := by
  by_contra hlt
  rw [not_le] at hlt
  obtain ⟨-, hne, hsort, hh, hch⟩ := wf_node.mp hwf
  obtain ⟨-, hne', -, -, -⟩ := wf_node.mp hwf'
  rw [hashed, hashed] at heq
  have hlens := congrArg List.length heq
  rw [List.length_append, List.length_append, length_hashes hlen, length_hashes hlen] at hlens
  obtain ⟨y, rfl⟩ : ∃ y, c' = c ++ y := by
    refine ⟨c'.drop c.length, ?_⟩
    have htake := congrArg (List.take c.length) heq
    rw [List.take_left, List.take_append_of_le_length hlt.le] at htake
    have hcut := List.take_append_drop c.length c'
    rw [← htake] at hcut
    exact hcut.symm
  have hyne : y ≠ [] := by
    rintro rfl
    simp at hlt
  have hone : arr.length ≤ 1 := by
    refine Branches.length_le_one hsort (b := y.head?) ?_
    intro x hx
    obtain ⟨⟨k, d⟩, l, hxl⟩ := List.exists_cons_of_ne_nil
      (contents_ne_nil db (p ++ c) (hch x hx))
    have hmem : (k, d) ∈ contents db (p ++ c) x.2 := by simp [hxl]
    rw [← branch_of_mem_contents (hh x hx) hmem]
    have hmem' : (k, d) ∈ contents db' p (.node a' (c ++ y) arr') := by
      rw [← hcon, contents_node]
      exact List.mem_flatMap.mpr ⟨x, hx, hmem⟩
    rw [contents_node] at hmem'
    obtain ⟨z, -, hz⟩ := List.mem_flatMap.mp hmem'
    obtain ⟨v, hv, -⟩ := (mem_contents db').mp hz
    obtain ⟨w, rfl, -⟩ := mem_behind.mp hv
    rw [← List.append_assoc p c y, List.append_assoc (p ++ c) y w, List.drop_left,
      List.head?_append_of_ne_nil _ hyne]
  have hpos : 0 < arr'.length := List.length_pos_of_ne_nil hne'
  rw [List.length_append] at hlens hlt
  simp only [HASH_SIZE] at hlens
  omega

theorem alike_of_contents {s r : Tree} {p : Key} (hs : s.WF) (hr : r.WF)
    (heq : contents db p s = contents db' p r) : Alike blake3 db db' p s p r := by
  induction s using Tree.induct generalizing p r with
  | leaf a k v =>
    cases r with
    | node a' c' arr' => exact fun _ => heq
    | leaf a' k' v' =>
      intro _
      rw [contents_leaf, contents_leaf, List.cons.injEq, Prod.mk.injEq] at heq
      rw [heq.1.1]
  | node a c arr ih =>
    cases r with
    | leaf a' k' v' => exact fun _ => heq
    | node a' c' arr' =>
      intro hstr
      have hle := length_le_of_contents hlen hs hr hstr heq
      have hge := length_le_of_contents hlen hr hs hstr.symm heq.symm
      have hcl := Nat.le_antisymm hge hle
      have hcc : c = c' := by
        rw [hashed, hashed] at hstr
        exact (List.append_inj hstr hcl).1
      subst hcc
      obtain ⟨-, -, hsort, hh, hch⟩ := wf_node.mp hs
      obtain ⟨-, -, hsort', hh', hch'⟩ := wf_node.mp hr
      rw [contents_node, contents_node] at heq
      refine ⟨rfl, Alike.go_of_contents hsort hsort' ?_ ?_ heq ?_⟩
      . exact fun x hx => ⟨hh x hx, hch x hx⟩
      . exact fun x hx => ⟨hh' x hx, hch' x hx⟩
      . exact fun x hx y hy hxy => ih x hx (hch x hx) (hch' y hy) hxy

end Exact

variable (db) in
/-- The keys a path leads to, with their contents, are below its end. -/
theorem mem_contents_plug {p : Path} {t : Tree} {k : Key} {d : List UInt8} (hwf : (p.plug t).WF)
    (hk : p.Leads k) :
    (p.str ++ k, d) ∈ contents db [] (p.plug t) ↔ (p.str ++ k, d) ∈ contents db p.str t := by
  simp only [mem_contents, behind_nil_left, Path.mem_entries_plug hwf hk, mem_behind,
    List.append_cancel_left_eq, exists_eq_left']

/-- What is hashed for a node, and looked up for its path. -/
def type (t : Tree) : NodeTypes := if t.isLeaf then .leaf else .trie

end Tree

/-- The node a lookup returns stands on the way to all that the path leads to. -/
theorem Stop.Ends.leads_landed {s : Stop} {t u : Tree} {key : Key} {q : Path} {ty : NodeTypes}
    (h : s.Ends t key) (hwf : t.WF) (hl : s.landed ty = some (q, u)) :
    q.plug u = t ∧ ∃ x, key = q.str ++ x ∧ ∀ y, (ty = .leaf → y = []) → q.Leads (x ++ y) := by
  have hwf' := Path.wf_plug.mp (h.plug ▸ hwf)
  cases ty with
  | leaf =>
    simp only [Stop.landed, Option.ite_none_right_eq_some, Option.some.injEq, Prod.mk.injEq] at hl
    obtain ⟨-, rfl, rfl⟩ := hl
    refine ⟨h.plug, s.suffix, h.key, ?_⟩
    intro y hy
    rw [hy rfl, List.append_nil]
    exact h.leads
  | trie =>
    rw [Stop.landed] at hl
    split at hl
    next hleaf =>
      rw [Option.map_eq_some_iff] at hl
      obtain ⟨st, hst, heq⟩ := hl
      obtain ⟨q', hpath⟩ : ∃ q', s.path = st :: q' := by
        cases hp : s.path with
        | nil => simp [hp] at hst
        | cons st' q' =>
          rw [hp, List.head?_cons, Option.some.injEq] at hst
          exact ⟨q', by rw [hst]⟩
      rw [hpath, List.tail_cons, Prod.mk.injEq] at heq
      obtain ⟨rfl, rfl⟩ := heq
      have hplug := h.plug
      have hkey := h.key
      rw [hpath] at hplug hkey hwf'
      refine ⟨hplug, st.compressed ++ s.suffix, ?_, ?_⟩
      . rw [hkey, Path.str_cons, List.append_assoc]
      . intro y _
        rw [List.append_assoc]
        exact Path.leads_step hwf'.1 _
    next hleaf =>
      rw [Option.some.injEq, Prod.mk.injEq] at hl
      obtain ⟨rfl, rfl⟩ := hl
      refine ⟨h.plug, s.suffix, h.key, ?_⟩
      intro y _
      cases hx : s.suffix with
      | cons b w =>
        refine h.leads.congr ?_
        rw [hx]
        rfl
      | nil =>
        cases hp : s.path with
        | nil => trivial
        | cons st q' =>
          have hleads := h.leads
          have hfits := hwf'.2.1
          rw [hp] at hleads hfits
          rw [hx, Path.leads_cons, List.head?_nil] at hleads
          exact absurd (hfits.2 hleads.symm) hleaf

/-- Two databases hold the same at the path of a leaf, or at and below the path of a trie. -/
def SameUnder (es es' : List (Key × List UInt8)) (path : Key) (ty : NodeTypes) : Prop :=
  ∀ y, (ty = .leaf → y = []) → ∀ d, (path ++ y, d) ∈ es ↔ (path ++ y, d) ∈ es'

variable (db db' : HashSource)

/-- The hash of `w` below the path `p` tells it from `u`, the node that has been found for its path
below `q`. -/
def Discerned (s r : Tree) (p : Path) (w : Tree) (q : Path) (u : Tree) : Prop :=
  if w.isLeaf = true ∨ (p.str = q.str ∧ w.label = u.label) then
    Tree.Alike blake3 db db' p.str w q.str u
  else
    Tree.hashed blake3 db p.str w = Tree.hashed blake3 db' q.str u →
      SameUnder (s.contents db []) (r.contents db' []) (p.str ++ w.label) w.type

namespace Tree

theorem strings_plug (p : Path) (t : Tree) :
    strings blake3 db p.str t ⊆ strings blake3 db [] (p.plug t) := by
  induction p generalizing t with
  | nil => exact fun _ h => h
  | cons st p ih =>
    refine List.Subset.trans ?_ (ih (st.tree t))
    exact strings_child blake3 db (p := Path.str p) (x := (st.branch, t)) (by simp)

variable {db} in
theorem exists_of_mem_contents {p : Key} {t : Tree} {k : Key} {d : List UInt8}
    (h : (k, d) ∈ contents db p t) : ∃ y, k = p ++ t.label ++ y := by
  obtain ⟨v, hv, -⟩ := (mem_contents db).mp h
  obtain ⟨x, rfl, hx⟩ := mem_behind.mp hv
  obtain ⟨y, rfl⟩ := prefix_of_mem_entries hx
  exact ⟨y, (List.append_assoc _ _ _).symm⟩

end Tree

section Pruned

variable {blake3 db db'} {s r w u : Tree} {p q : Path}
variable (hs : s.WF) (hr : r.WF) (hw : p.plug w = s)
variable (hu : (r.search [] (p.str ++ w.label)).landed w.type = some (q, u))

include hs hw in
theorem leads_label (y : Key) (hy : w.type = .leaf → y = []) : p.Leads (w.label ++ y) := by
  have hfits := (Path.wf_plug.mp (hw ▸ hs)).2.1
  cases hleaf : w.isLeaf with
  | true => exact hfits.leads y (Or.inr (hy (by simp [Tree.type, hleaf])))
  | false =>
    cases p with
    | nil => trivial
    | cons st p => exact hfits.leads y (Or.inl (hfits.label_ne_nil hleaf))

include hu in
/-- A node that is looked up for a leaf is a leaf. -/
theorem isLeaf_landed : u.isLeaf = w.isLeaf := by
  obtain ⟨st, hst⟩ : ∃ st, st = r.search [] (p.str ++ w.label) := ⟨_, rfl⟩
  rw [← hst] at hu
  cases hleaf : w.isLeaf with
  | true =>
    simp only [Tree.type, hleaf, ↓reduceIte, Stop.landed, Option.ite_none_right_eq_some,
      Option.some.injEq, Prod.mk.injEq] at hu
    rw [← hu.2.2]
    exact hu.1
  | false =>
    simp only [Tree.type, hleaf, Bool.false_eq_true, ↓reduceIte, Stop.landed] at hu
    split at hu
    next h =>
      rw [Option.map_eq_some_iff] at hu
      obtain ⟨step, -, heq⟩ := hu
      rw [Prod.mk.injEq] at heq
      rw [← heq.2]
      rfl
    next h =>
      rw [Option.some.injEq, Prod.mk.injEq] at hu
      rw [← hu.2]
      simpa using h

/-- Nodes at the same place that hold the same below it are the same. -/
theorem contents_eq_of_sameUnder {path : Key} (hwf : w.WF) (hwf' : u.WF)
    (hp : p.str ++ w.label = path) (hq : q.str ++ u.label = path)
    (h : SameUnder (w.contents db p.str) (u.contents db' q.str) path .trie) :
    w.contents db p.str = u.contents db' q.str := by
  refine (Tree.ascending_contents hwf).ext (Tree.ascending_contents hwf') ?_
  rintro ⟨k, d⟩
  constructor
  . intro hk
    obtain ⟨y, rfl⟩ := Tree.exists_of_mem_contents hk
    rw [hp] at hk ⊢
    exact (h y (by simp) d).mp hk
  . intro hk
    obtain ⟨y, rfl⟩ := Tree.exists_of_mem_contents hk
    rw [hq] at hk ⊢
    exact (h y (by simp) d).mpr hk

include hs hr hw hu

/-- What there is to compare is below the two nodes. -/
theorem sameUnder_iff :
    SameUnder (s.contents db []) (r.contents db' []) (p.str ++ w.label) w.type ↔
      SameUnder (w.contents db p.str) (u.contents db' q.str) (p.str ++ w.label) w.type := by
  obtain ⟨hq, x, hx, hleads⟩ := (Tree.search_root_ends hr _).leads_landed hr hu
  have hstep : ∀ y, (w.type = .leaf → y = []) → ∀ d,
      ((p.str ++ w.label ++ y, d) ∈ s.contents db [] ↔
        (p.str ++ w.label ++ y, d) ∈ w.contents db p.str) ∧
      ((p.str ++ w.label ++ y, d) ∈ r.contents db' [] ↔
        (p.str ++ w.label ++ y, d) ∈ u.contents db' q.str) := by
    intro y hy d
    refine ⟨?_, ?_⟩
    . rw [List.append_assoc, ← hw]
      exact Tree.mem_contents_plug db (hw ▸ hs) (leads_label hs hw y hy)
    . rw [hx, List.append_assoc, ← hq]
      exact Tree.mem_contents_plug db' (hq ▸ hr) (hleads y hy)
  constructor
  . intro h y hy d
    rw [← (hstep y hy d).1, ← (hstep y hy d).2]
    exact h y hy d
  . intro h y hy d
    rw [(hstep y hy d).1, (hstep y hy d).2]
    exact h y hy d

/-- A pruned node is the same in both databases exactly if its hash discerns it. -/
theorem sameUnder_iff_discerned (hlen : ∀ x, (blake3 x).length = HASH_SIZE)
    (hfree : CollisionFree blake3 (s.strings blake3 db [] ++ r.strings blake3 db' [])) :
    (blake3 (u.hashed blake3 db' q.str) = blake3 (w.hashed blake3 db p.str) →
        SameUnder (s.contents db []) (r.contents db' []) (p.str ++ w.label) w.type) ↔
      Discerned blake3 db db' s r p w q u := by
  obtain ⟨hq, -⟩ := (Tree.search_root_ends hr _).leads_landed hr hu
  have hfree' : CollisionFree blake3 (w.strings blake3 db p.str ++ u.strings blake3 db' q.str) := by
    refine hfree.mono (List.append_subset.mpr ⟨?_, ?_⟩)
    . rw [← hw]
      exact List.Subset.trans (Tree.strings_plug blake3 db p w) (List.subset_append_left _ _)
    . rw [← hq]
      exact List.Subset.trans (Tree.strings_plug blake3 db' q u) (List.subset_append_right _ _)
  have hstrings : blake3 (u.hashed blake3 db' q.str) = blake3 (w.hashed blake3 db p.str) ↔
      w.hashed blake3 db p.str = u.hashed blake3 db' q.str := by
    refine ⟨fun h => hfree' _ ?_ _ ?_ h.symm, fun h => by rw [h]⟩
    . exact List.mem_append_left _ (Tree.hashed_mem_strings blake3 db _ _)
    . exact List.mem_append_right _ (Tree.hashed_mem_strings blake3 db' _ _)
  rw [hstrings, Discerned]
  split
  next hcond =>
    rw [sameUnder_iff hs hr hw hu]
    constructor
    . intro h
      have hleaf := isLeaf_landed hu
      cases w with
      | leaf a k v =>
        cases u with
        | node a' c' arr' => simp [Tree.isLeaf] at hleaf
        | leaf a' k' v' =>
          intro hstr
          have hmem := (h hstr [] (fun _ => rfl) (db.content v)).mp (by simp [Tree.label])
          simp only [Tree.contents_leaf, List.mem_singleton, Prod.mk.injEq, Tree.label,
            List.append_nil] at hmem
          rw [hmem.1]
      | node a c arr =>
        cases u with
        | leaf a' k' v' => simp [Tree.isLeaf] at hleaf
        | node a' c' arr' =>
          intro hstr
          obtain ⟨hplace, hlabel⟩ := hcond.resolve_left (by simp [Tree.isLeaf])
          have hwfw := (Path.wf_plug.mp (hw ▸ hs)).2.2
          have hwfu := (Path.wf_plug.mp (hq ▸ hr)).2.2
          have hcon := contents_eq_of_sameUnder hwfw hwfu rfl (by rw [hplace, hlabel]) (h hstr)
          rw [← hplace] at hcon hstr ⊢
          exact Tree.alike_of_contents hlen hwfw hwfu hcon hstr
    . intro h hstr
      have hcon := h.contents_eq hlen hfree' hstr
      intro y _ d
      rw [hcon]
  next hcond => rfl

end Pruned

/--
Hash pruning. For a node `w` of the sender and a trie `r` of the receiver: if the lookup of its path
returns its hash, then both hold the same under the path, exactly if the hash discerns `w` from what
has been looked up. Equal hashes of the roots: the same maps, exactly if all strings fall into the
same parts.
-/
theorem hashPruning {s r w : Tree} {p : Path} (hs : s.WF) (hr : r.WF) (hw : p.plug w = s)
    (hlen : ∀ x, (blake3 x).length = HASH_SIZE)
    (hfree : CollisionFree blake3 (s.strings blake3 db [] ++ r.strings blake3 db' [])) :
    ((HashTree.lookup (some (HashTree.deepCopy blake3 db' [] r)) (p.str ++ w.label) w.type =
          some (HashTree.deepCopy blake3 db p.str w).page.hash →
        SameUnder (s.contents db []) (r.contents db' []) (p.str ++ w.label) w.type) ↔
      ∀ q u, (r.search [] (p.str ++ w.label)).landed w.type = some (q, u) →
        Discerned blake3 db db' s r p w q u) ∧
    (((HashTree.deepCopy blake3 db [] s).page.hash = (HashTree.deepCopy blake3 db' [] r).page.hash →
        s.contents db [] = r.contents db' []) ↔ Tree.Alike blake3 db db' [] s [] r) := by
  refine ⟨?_, ?_⟩
  . rw [HashTree.lookup_deepCopy blake3 db' hr, Tree.hash_deepCopy]
    cases hl : (r.search [] (p.str ++ w.label)).landed w.type with
    | none => simp
    | some x =>
      obtain ⟨q, u⟩ := x
      rw [Option.map_some, Option.some.injEq, sameUnder_iff_discerned hs hr hw hl hlen hfree]
      simp only [Option.some.injEq, Prod.mk.injEq, and_imp]
      constructor
      . rintro h q' u' rfl rfl
        exact h
      . intro h
        exact h q u rfl rfl
  . rw [Tree.hash_deepCopy, Tree.hash_deepCopy]
    constructor
    . intro h
      refine .of_imp fun heq => Tree.alike_of_contents hlen hs hr (h ?_)
      rw [heq]
    . intro h hhash
      refine h.contents_eq hlen hfree (hfree _ ?_ _ ?_ hhash)
      . exact List.mem_append_left _ (Tree.hashed_mem_strings blake3 db _ _)
      . exact List.mem_append_right _ (Tree.hashed_mem_strings blake3 db' _ _)

/-- The node of the keys 0x61, 0x62 and 0x61, 0x63 and its copy in another database. -/
theorem hashPruning_pair :
    let blake3 : List UInt8 → List UInt8 := fun x => (x ++ List.replicate HASH_SIZE 0).take HASH_SIZE
    let db : HashSource := ⟨fun _ => 1, Value.bytes⟩
    let s : Tree := .node 1 [0x61] [(some 0x62, .leaf 2 [0x62] ⟨false, [1]⟩),
      (some 0x63, .leaf 3 [0x63] ⟨false, [2]⟩)]
    let r : Tree := .node 4 [0x61] [(some 0x62, .leaf 5 [0x62] ⟨false, [1]⟩),
      (some 0x63, .leaf 6 [0x63] ⟨true, [2]⟩)]
    ((HashTree.deepCopy blake3 db [] s).page.hash = (HashTree.deepCopy blake3 db [] r).page.hash →
      s.contents db [] = r.contents db []) ↔ Tree.Alike blake3 db db [] s [] r := by
  intro blake3 db s r
  refine (hashPruning blake3 db db (s := s) (r := r) (p := []) (w := s) ?_ ?_ rfl ?_ ?_).2
  . simp [s, Branches.Sorted, Tree.Hangs, Tree.head, Tree.label, fitsPage_iff, LeafNode.sizeOf,
      LeafNode.HEADER_SIZE]
  . simp [r, Branches.Sorted, Tree.Hangs, Tree.head, Tree.label, fitsPage_iff, LeafNode.sizeOf,
      LeafNode.HEADER_SIZE]
  . intro x
    simp [blake3]
  . unfold CollisionFree
    decide

/-- The bytes 0x61, 0x62 and 0x63 are hashed for the key 0x61 of one and for 0x61, 0x62 of the
other. -/
theorem hashPruning_shifted :
    let blake3 : List UInt8 → List UInt8 := fun x => (x ++ List.replicate HASH_SIZE 0).take HASH_SIZE
    let db : HashSource := ⟨fun _ => 1, Value.bytes⟩
    let s : Tree := .leaf 1 [0x61] ⟨false, [0x62, 0x63]⟩
    let r : Tree := .leaf 1 [0x61, 0x62] ⟨false, [0x63]⟩
    s.WF ∧ r.WF ∧ (∀ x, (blake3 x).length = HASH_SIZE) ∧
      CollisionFree blake3 (s.strings blake3 db [] ++ r.strings blake3 db []) ∧
      HashTree.lookup (some (HashTree.deepCopy blake3 db [] r)) [0x61] .leaf =
        some (HashTree.deepCopy blake3 db [] s).page.hash ∧
      ¬ SameUnder (s.contents db []) (r.contents db []) [0x61] .leaf ∧
      (HashTree.deepCopy blake3 db [] s).page.hash = (HashTree.deepCopy blake3 db [] r).page.hash ∧
      s.contents db [] ≠ r.contents db [] := by
  intro blake3 db s r
  refine ⟨Tree.wf_leaf.mpr (by decide), Tree.wf_leaf.mpr (by decide), ?_, ?_, by decide, ?_,
    by decide, by decide⟩
  . intro x
    simp [blake3]
  . intro x hx y hy _
    simp only [s, r, Tree.strings, Tree.hashed, List.cons_append, List.nil_append, List.mem_cons,
      List.not_mem_nil, or_false, or_self, db] at hx hy
    rw [hx, hy]
  . intro h
    have := (h [] (fun _ => rfl) [0x62, 0x63]).mp (by decide)
    revert this
    decide

end Leaves
