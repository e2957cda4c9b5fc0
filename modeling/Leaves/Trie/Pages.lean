import Leaves.Trie.Search
import Mathlib.Data.List.Perm.Basic

/-!
The pages a trie takes, and what a change of other pages leaves alone. A copy of the nodes on a path
is a twin of the path: only the addresses differ.
-/

namespace Leaves
namespace Tree

/-- The addresses of the nodes of the tree. -/
def addrs (t : Tree) : List Addr := t.cells.map (·.1)

/-- The addresses of the nodes below the branches of a node. -/
def branchAddrs (arr : List (Branch × Tree)) : List Addr := arr.flatMap (fun x => x.2.addrs)

@[simp]
theorem addrs_leaf (a : Addr) (k : Key) (v : Value) : (leaf a k v).addrs = [a] := rfl

@[simp]
theorem addrs_node (a : Addr) (c : Key) (arr : List (Branch × Tree)) :
    (node a c arr).addrs = a :: branchAddrs arr := by
  simp [addrs, branchAddrs, branchCells, List.map_flatMap]

@[simp]
theorem branchAddrs_nil : branchAddrs [] = [] := rfl

@[simp]
theorem branchAddrs_cons (x : Branch × Tree) (arr : List (Branch × Tree)) :
    branchAddrs (x :: arr) = x.2.addrs ++ branchAddrs arr := by
  simp [branchAddrs]

@[simp]
theorem branchAddrs_append (arr arr' : List (Branch × Tree)) :
    branchAddrs (arr ++ arr') = branchAddrs arr ++ branchAddrs arr' := by
  simp [branchAddrs]

theorem addr_mem_addrs (t : Tree) : t.addr ∈ t.addrs := by
  match t with
  | .leaf a k v => simp [addr]
  | .node a c arr => simp [addr]

theorem addrs_subset {arr : List (Branch × Tree)} {x : Branch × Tree} (hx : x ∈ arr) :
    ∀ a ∈ x.2.addrs, a ∈ branchAddrs arr :=
  fun _ ha => List.mem_flatMap.mpr ⟨x, hx, ha⟩

theorem stored_leaf {rd : Addr → Node} {a : Addr} {k : Key} {v : Value} :
    Stored rd (leaf a k v) ↔ rd a = .leaf ⟨k, v.big, v.bytes⟩ := by
  simp [Stored]

theorem stored_node {rd : Addr → Node} {a : Addr} {c : Key} {arr : List (Branch × Tree)} :
    Stored rd (node a c arr) ↔
      rd a = .trie ⟨c, Branches.mapSnd addr arr⟩ ∧ ∀ x ∈ arr, Stored rd x.2 := by
  simp only [Stored, cells_node, List.mem_cons, forall_eq_or_imp, branchCells, List.mem_flatMap]
  constructor
  . rintro ⟨h1, h2⟩
    exact ⟨h1, fun x hx y hy => h2 y ⟨x, hx, hy⟩⟩
  . rintro ⟨h1, h2⟩
    refine ⟨h1, ?_⟩
    rintro y ⟨x, hx, hy⟩
    exact h2 x hx y hy

/-- A tree is stored as long as its pages stay the same. -/
theorem Stored.congr {rd rd' : Addr → Node} {t : Tree} (h : Stored rd t)
    (heq : ∀ a ∈ t.addrs, rd' a = rd a) : Stored rd' t := by
  intro x hx
  rw [heq x.1 (List.mem_map_of_mem hx)]
  exact h x hx

theorem stored_congr_branches {rd rd' : Addr → Node} {arr : List (Branch × Tree)}
    (h : ∀ x ∈ arr, Stored rd x.2) (heq : ∀ a ∈ branchAddrs arr, rd' a = rd a) :
    ∀ x ∈ arr, Stored rd' x.2 :=
  fun x hx => (h x hx).congr (fun a ha => heq a (addrs_subset hx a ha))

end Tree

namespace Path

/-- The addresses of the nodes of the path and of everything beside it. -/
def addrs : Path → List Addr
  | [] => []
  | s :: p => s.addr :: (Tree.branchAddrs s.left ++ Tree.branchAddrs s.right) ++ addrs p

@[simp]
theorem addrs_nil : addrs [] = [] := rfl

@[simp]
theorem addrs_cons (s : Step) (p : Path) :
    addrs (s :: p) =
      s.addr :: (Tree.branchAddrs s.left ++ Tree.branchAddrs s.right) ++ addrs p := rfl

theorem perm_tree (s : Step) (t : Tree) :
    (s.tree t).addrs.Perm
      (s.addr :: (Tree.branchAddrs s.left ++ Tree.branchAddrs s.right) ++ t.addrs) := by
  rw [Step.tree, Tree.addrs_node, Tree.branchAddrs_append, Tree.branchAddrs_cons, List.cons_append]
  refine List.Perm.cons _ ?_
  rw [List.append_assoc]
  exact List.perm_append_comm.append_left _

theorem perm_plug (p : Path) (t : Tree) : (plug p t).addrs.Perm (addrs p ++ t.addrs) := by
  induction p generalizing t with
  | nil => exact List.Perm.refl _
  | cons s p ih =>
    refine (ih (s.tree t)).trans ?_
    rw [addrs_cons]
    refine ((perm_tree s t).append_left _).trans ?_
    rw [← List.append_assoc]
    exact List.perm_append_comm.append_right _

theorem Stored.congr {rd rd' : Addr → Node} {p : Path} {a : Addr} (h : Stored rd p a)
    (heq : ∀ b ∈ addrs p, rd' b = rd b) : Stored rd' p a := by
  induction p generalizing a with
  | nil => trivial
  | cons s p ih =>
    obtain ⟨h1, h2, h3, h4⟩ := h
    simp only [addrs_cons, List.cons_append, List.mem_cons, List.mem_append,
      forall_eq_or_imp] at heq
    refine ⟨heq.1.trans h1, ?_, ?_, ih h4 (fun b hb => heq.2 b (Or.inr hb))⟩
    . exact Tree.stored_congr_branches h2 (fun b hb => heq.2 b (Or.inl (Or.inl hb)))
    . exact Tree.stored_congr_branches h3 (fun b hb => heq.2 b (Or.inl (Or.inr hb)))

/-- The address of the root of a trie with the path and `a` at its end. -/
def top : Path → Addr → Addr
  | [], a => a
  | s :: p, _ => top p s.addr

theorem addr_plug (p : Path) (t : Tree) : (plug p t).addr = top p t.addr := by
  induction p generalizing t with
  | nil => rfl
  | cons s p ih => exact ih (s.tree t)

/-- The paths differ in the addresses of their nodes only. -/
def Twin (p p' : Path) : Prop := List.Forall₂ (fun s s' => s' = { s with addr := s'.addr }) p p'

theorem Twin.refl (p : Path) : Twin p p := List.forall₂_same.mpr (fun _ _ => rfl)

section Twin

variable {p p' : Path}

theorem Twin.length (h : Twin p p') : p'.length = p.length := h.length_eq.symm

theorem Twin.str (h : Twin p p') : Path.str p' = Path.str p := by
  induction h with
  | nil => rfl
  | cons hs _ ih => rw [str_cons, str_cons, ih, hs]

theorem Twin.before (h : Twin p p') : Path.before p' = Path.before p := by
  induction h with
  | nil => rfl
  | cons hs h ih => rw [Path.before, Path.before, ih, Twin.str h, hs]

theorem Twin.after (h : Twin p p') : Path.after p' = Path.after p := by
  induction h with
  | nil => rfl
  | cons hs h ih => rw [Path.after, Path.after, ih, Twin.str h, hs]

theorem Twin.fits (h : Twin p p') (t : Tree) : Fits p' t ↔ Fits p t := by
  cases h with
  | nil => exact Iff.rfl
  | cons hs _ => rw [Fits, Fits, hs]

theorem Twin.leads (h : Twin p p') (k : Key) : Leads p' k ↔ Leads p k := by
  cases h with
  | nil => exact Iff.rfl
  | cons hs _ => rw [Leads, Leads, hs]

theorem Twin.wf (h : Twin p p') : Path.WF p' ↔ Path.WF p := by
  induction h with
  | nil => exact Iff.rfl
  | @cons s s' p p' hs h ih =>
    have hfits : (∀ t, Fits p' (s'.tree t)) ↔ ∀ t, Fits p (s.tree t) := by
      refine forall_congr' (fun t => (Twin.fits h _).trans ?_)
      rw [hs]
      cases p with
      | nil => exact Iff.rfl
      | cons s2 p => exact Iff.rfl
    rw [Path.WF, Path.WF, ih, hfits, hs]

/-- Plugging another tree into a twin changes the entries at the end of the path only. -/
theorem Twin.entries_plug (h : Twin p p') (t : Tree) :
    (plug p' t).entries = Path.before p ++ Tree.behind (Path.str p) t.entries ++ Path.after p := by
  rw [Path.entries_plug, h.before, h.str, h.after]

end Twin

end Path

/-- The pages of a trie, the empty trie has none. -/
def Trie.addrs : Trie → List Addr
  | none => []
  | some t => t.addrs

end Leaves
