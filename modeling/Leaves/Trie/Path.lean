import Leaves.Trie.Tree

/-!
Paths from the root of a trie to one of its subtrees. A path remembers what is left and right of
the way down, so the trie is the path with the subtree plugged into its end.
-/

namespace Leaves

/-- One node on the way down and the branch that was taken. -/
structure Step where
  addr : Addr
  compressed : Key
  left : List (Branch × Tree)
  branch : Branch
  right : List (Branch × Tree)
  deriving Inhabited

/-- The node of the step with the subtree `t` under its branch. -/
def Step.tree (s : Step) (t : Tree) : Tree :=
  .node s.addr s.compressed (s.left ++ (s.branch, t) :: s.right)

@[simp]
theorem Step.addr_tree (s : Step) (t : Tree) : (s.tree t).addr = s.addr := rfl

@[simp]
theorem Step.label_tree (s : Step) (t : Tree) : (s.tree t).label = s.compressed := rfl

/-- A way down, the innermost step first. -/
abbrev Path := List Step

namespace Path

def plug : Path → Tree → Tree
  | [], t => t
  | s :: p, t => plug p (s.tree t)

/-- The part of the key that is spelled on the way down. -/
def str : Path → Key
  | [] => []
  | s :: p => str p ++ s.compressed

/-- The entries left of the path. -/
def before : Path → List (Key × Value)
  | [] => []
  | s :: p => before p ++ Tree.behind (str p ++ s.compressed) (Tree.branchEntries s.left)

/-- The entries right of the path. -/
def after : Path → List (Key × Value)
  | [] => []
  | s :: p => Tree.behind (str p ++ s.compressed) (Tree.branchEntries s.right) ++ after p

@[simp]
theorem plug_nil (t : Tree) : plug [] t = t := rfl

@[simp]
theorem plug_cons (s : Step) (p : Path) (t : Tree) : plug (s :: p) t = plug p (s.tree t) := rfl

@[simp]
theorem str_nil : str [] = [] := rfl

@[simp]
theorem str_cons (s : Step) (p : Path) : str (s :: p) = str p ++ s.compressed := rfl

theorem plug_append (p q : Path) (t : Tree) : plug (p ++ q) t = plug q (plug p t) := by
  induction p generalizing t with
  | nil => simp
  | cons s p ih => simp [ih]

/-- The entries of a trie around one of its subtrees. -/
theorem entries_plug (p : Path) (t : Tree) :
    (plug p t).entries = before p ++ Tree.behind (str p) t.entries ++ after p := by
  induction p generalizing t with
  | nil => simp [before, after]
  | cons s p ih => simp [ih, before, after, Step.tree, List.append_assoc]

/-- The storage holds the nodes of the path and everything beside it. -/
def Stored (rd : Addr → Node) : Path → Addr → Prop
  | [], _ => True
  | s :: p, a =>
    rd s.addr = .trie ⟨s.compressed,
        Branches.mapSnd Tree.addr s.left ++ (s.branch, a) :: Branches.mapSnd Tree.addr s.right⟩ ∧
      (∀ x ∈ s.left, Tree.Stored rd x.2) ∧ (∀ x ∈ s.right, Tree.Stored rd x.2) ∧
      Stored rd p s.addr

theorem stored_tree {rd : Addr → Node} {s : Step} {t : Tree} :
    Tree.Stored rd (s.tree t) ↔
      rd s.addr = .trie ⟨s.compressed, Branches.mapSnd Tree.addr s.left ++
        (s.branch, t.addr) :: Branches.mapSnd Tree.addr s.right⟩ ∧
      (∀ x ∈ s.left, Tree.Stored rd x.2) ∧ (∀ x ∈ s.right, Tree.Stored rd x.2) ∧
      Tree.Stored rd t := by
  simp only [Step.tree, Tree.Stored, Tree.cells_node, Branches.mapSnd_append,
    Branches.mapSnd_cons, List.mem_cons, forall_eq_or_imp, List.mem_append, Tree.branchCells,
    List.mem_flatMap]
  constructor
  . rintro ⟨h1, h2⟩
    refine ⟨h1, ?_, ?_, ?_⟩
    . exact fun x hx y hy => h2 y ⟨x, Or.inl hx, hy⟩
    . exact fun x hx y hy => h2 y ⟨x, Or.inr (Or.inr hx), hy⟩
    . exact fun y hy => h2 y ⟨_, Or.inr (Or.inl rfl), hy⟩
  . rintro ⟨h1, h2, h3, h4⟩
    refine ⟨h1, ?_⟩
    intro y hy
    obtain ⟨x, hx, hy⟩ := hy
    rcases hx with hx | hx | hx
    . exact h2 x hx y hy
    . exact h4 y (by simpa [hx] using hy)
    . exact h3 x hx y hy

theorem stored_plug {rd : Addr → Node} {p : Path} {t : Tree} :
    Tree.Stored rd (plug p t) ↔ Stored rd p t.addr ∧ Tree.Stored rd t := by
  induction p generalizing t with
  | nil => simp [Stored]
  | cons s p ih =>
    rw [plug_cons, ih, stored_tree, Step.addr_tree, Stored]
    tauto

/-- A subtree may be plugged into the path: its root starts with the last branch. -/
def Fits : Path → Tree → Prop
  | [], _ => True
  | s :: _, t => Tree.Hangs (s.branch, t)

theorem Fits.congr {p : Path} {t t' : Tree} (h : Fits p t) (hhead : t'.head = t.head)
    (hleaf : t.isLeaf = true → t'.isLeaf = true) : Fits p t' := by
  cases p with
  | nil => trivial
  | cons s p => exact ⟨hhead.trans h.1, fun hnone => hleaf (h.2 hnone)⟩

/-- The shape of a trie around the end of a path. -/
def WF : Path → Prop
  | [] => True
  | s :: p =>
    s.compressed.length ≤ 255 ∧ Branches.Sorted (s.left ++ (s.branch, default) :: s.right) ∧
      (∀ x ∈ s.left, Tree.Hangs x ∧ x.2.WF) ∧ (∀ x ∈ s.right, Tree.Hangs x ∧ x.2.WF) ∧
      (∀ t, Fits p (s.tree t)) ∧ WF p

theorem fits_tree_iff {p : Path} {s : Step} (t t' : Tree) : Fits p (s.tree t) ↔ Fits p (s.tree t') := by
  cases p with
  | nil => simp [Fits]
  | cons s' p => simp [Fits, Tree.Hangs, Tree.head, Step.tree, Tree.label, Tree.isLeaf]

theorem wf_tree {s : Step} {t : Tree} :
    (s.tree t).WF ↔ s.compressed.length ≤ 255 ∧
      Branches.Sorted (s.left ++ (s.branch, default) :: s.right) ∧
      (∀ x ∈ s.left, Tree.Hangs x ∧ x.2.WF) ∧ (∀ x ∈ s.right, Tree.Hangs x ∧ x.2.WF) ∧
      Tree.Hangs (s.branch, t) ∧ t.WF := by
  have hs : Branches.Sorted (s.left ++ (s.branch, t) :: s.right) ↔
      Branches.Sorted (s.left ++ (s.branch, default) :: s.right) :=
    ⟨Branches.sorted_replace, Branches.sorted_replace⟩
  simp only [Step.tree, Tree.wf_node, hs, ne_eq, List.append_eq_nil_iff, reduceCtorEq, and_false,
    not_false_eq_true, true_and, List.mem_append, List.mem_cons]
  constructor
  . rintro ⟨h1, h2, h3, h4⟩
    refine ⟨h1, h2, ?_, ?_, h3 _ (Or.inr (Or.inl rfl)), h4 _ (Or.inr (Or.inl rfl))⟩
    . exact fun x hx => ⟨h3 x (Or.inl hx), h4 x (Or.inl hx)⟩
    . exact fun x hx => ⟨h3 x (Or.inr (Or.inr hx)), h4 x (Or.inr (Or.inr hx))⟩
  . rintro ⟨h1, h2, h3, h4, h5, h6⟩
    refine ⟨h1, h2, ?_, ?_⟩
    . rintro x (hx | rfl | hx)
      . exact (h3 x hx).1
      . exact h5
      . exact (h4 x hx).1
    . rintro x (hx | rfl | hx)
      . exact (h3 x hx).2
      . exact h6
      . exact (h4 x hx).2

theorem wf_plug {p : Path} {t : Tree} : (plug p t).WF ↔ WF p ∧ Fits p t ∧ t.WF := by
  induction p generalizing t with
  | nil => simp [WF, Fits]
  | cons s p ih =>
    have hfits : Fits p (s.tree t) ↔ ∀ t', Fits p (s.tree t') :=
      ⟨fun h t' => (fits_tree_iff t t').mp h, fun h => h t⟩
    rw [plug_cons, ih, wf_tree, hfits, WF]
    simp only [Fits]
    tauto

theorem str_append (p q : Path) : str (p ++ q) = str q ++ str p := by
  induction p with
  | nil => simp
  | cons s p ih => simp [ih]

theorem before_append (p q : Path) :
    before (p ++ q) = before q ++ Tree.behind (str q) (before p) := by
  induction p with
  | nil => simp [before]
  | cons s p ih => simp [before, ih, str_append, List.append_assoc]

theorem after_append (p q : Path) :
    after (p ++ q) = Tree.behind (str q) (after p) ++ after q := by
  induction p with
  | nil => simp [after]
  | cons s p ih => simp [after, ih, str_append, List.append_assoc]

/-- A key may go on behind the path: it starts with the last branch. -/
def Leads : Path → Key → Prop
  | [], _ => True
  | s :: _, k => k.head? = s.branch

@[simp]
theorem leads_nil (k : Key) : Leads [] k := trivial

@[simp]
theorem leads_cons (s : Step) (p : Path) (k : Key) : Leads (s :: p) k ↔ k.head? = s.branch :=
  Iff.rfl

theorem Leads.congr {p : Path} {k k' : Key} (h : Leads p k) (hk : k.head? = k'.head?) :
    Leads p k' := by
  cases p with
  | nil => trivial
  | cons s p => rw [leads_cons, ← hk]; exact h

theorem Fits.leads {p : Path} {t : Tree} (h : Fits p t) (k : Key) (hne : t.label ≠ [] ∨ k = []) :
    Leads p (t.label ++ k) := by
  cases p with
  | nil => trivial
  | cons s p =>
    have hhead : t.label.head? = s.branch := h.1
    rw [leads_cons, List.head?_append, hhead]
    rcases hne with hne | rfl
    . cases hb : s.branch with
      | none => simp_all
      | some b => rfl
    . cases s.branch <;> rfl

/-- The string of a node on the way down is only empty at the root. -/
theorem Fits.label_ne_nil {s : Step} {p : Path} {t : Tree} (h : Fits (s :: p) t)
    (ht : t.isLeaf = false) : t.label ≠ [] := by
  intro hnil
  have hhead : t.head = s.branch := h.1
  rw [Tree.head, hnil, List.head?_nil] at hhead
  have := h.2 hhead.symm
  simp [ht] at this

theorem leads_step {s : Step} {p : Path} (hwf : WF (s :: p)) (k : Key) :
    Leads p (s.compressed ++ k) := by
  have hfits : Fits p (s.tree default) := hwf.2.2.2.2.1 default
  cases p with
  | nil => trivial
  | cons s' p => exact hfits.leads k (Or.inl (hfits.label_ne_nil rfl))

/-- The keys under a smaller branch are smaller than those that start with a bigger one. -/
theorem lt_of_branch_lt {x : Branch × Tree} (hx : Tree.Hangs x) {k : Key}
    (hlt : x.1.toInt < Branch.toInt k.head?) {e : Key × Value} (he : e ∈ x.2.entries) : e.1 < k := by
  have hy : Tree.Hangs (k.head?, .leaf 0 k default) := ⟨rfl, fun _ => rfl⟩
  exact Tree.entries_lt_of_branch_lt hx hy hlt he (f := (k, default)) (by simp)

theorem gt_of_branch_lt {x : Branch × Tree} (hx : Tree.Hangs x) {k : Key}
    (hlt : Branch.toInt k.head? < x.1.toInt) {e : Key × Value} (he : e ∈ x.2.entries) : k < e.1 := by
  have hy : Tree.Hangs (k.head?, .leaf 0 k default) := ⟨rfl, fun _ => rfl⟩
  exact Tree.entries_lt_of_branch_lt hy hx hlt (e := (k, default)) (by simp) he

/-- The entries left of a path are smaller than every key the path leads to. -/
theorem before_lt {p : Path} {k : Key} (hwf : WF p) (hk : Leads p k) :
    ∀ e ∈ before p, e.1 < str p ++ k := by
  induction p generalizing k with
  | nil => simp [before]
  | cons s p ih =>
    intro e he
    rw [before, List.mem_append] at he
    rcases he with he | he
    . rw [str_cons, List.append_assoc]
      exact ih hwf.2.2.2.2.2 (leads_step hwf k) e he
    . obtain ⟨w, hw, hmem⟩ := Tree.mem_behind.mp (show (e.1, e.2) ∈ _ from he)
      obtain ⟨x, hx, hxe⟩ := Tree.mem_branchEntries.mp hmem
      obtain ⟨-, -, hlt, -, -⟩ := Branches.sorted_append_cons.mp hwf.2.1
      rw [leads_cons] at hk
      rw [hw, str_cons, Lex.append_lt_append_iff]
      exact lt_of_branch_lt (hwf.2.2.1 x hx).1 (by rw [hk]; exact hlt x hx) hxe

/-- The entries right of a path are bigger than every key the path leads to. -/
theorem lt_after {p : Path} {k : Key} (hwf : WF p) (hk : Leads p k) :
    ∀ e ∈ after p, str p ++ k < e.1 := by
  induction p generalizing k with
  | nil => simp [after]
  | cons s p ih =>
    intro e he
    rw [after, List.mem_append] at he
    rcases he with he | he
    . obtain ⟨w, hw, hmem⟩ := Tree.mem_behind.mp (show (e.1, e.2) ∈ _ from he)
      obtain ⟨x, hx, hxe⟩ := Tree.mem_branchEntries.mp hmem
      obtain ⟨-, -, -, hlt, -⟩ := Branches.sorted_append_cons.mp hwf.2.1
      rw [leads_cons] at hk
      rw [hw, str_cons, Lex.append_lt_append_iff]
      exact gt_of_branch_lt (hwf.2.2.2.1 x hx).1 (by rw [hk]; exact hlt x hx) hxe
    . rw [str_cons, List.append_assoc]
      exact ih hwf.2.2.2.2.2 (leads_step hwf k) e he

/-- The keys a path leads to are below its end. -/
theorem mem_entries_plug {p : Path} {t : Tree} {k : Key} {v : Value} (hwf : (plug p t).WF)
    (hk : Leads p k) : (str p ++ k, v) ∈ (plug p t).entries ↔ (k, v) ∈ t.entries := by
  have hp := (wf_plug.mp hwf).1
  rw [entries_plug, List.mem_append, List.mem_append, Tree.mem_behind]
  constructor
  . rintro ((h | ⟨s, hs, h⟩) | h)
    . exact absurd (before_lt hp hk _ h) (lt_irrefl _)
    . rwa [List.append_cancel_left hs]
    . exact absurd (lt_after hp hk _ h) (lt_irrefl _)
  . intro h
    exact Or.inl (Or.inr ⟨k, rfl, h⟩)

end Path
end Leaves
